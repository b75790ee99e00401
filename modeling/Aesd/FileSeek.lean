import Aesd.BufferRefinement
import Aesd.LineFraming
import Aesd.SocketServer
import Mathlib.Algebra.Order.BigOperators.Group.List

/-! Where `aesd_llseek` can go. It hands `generic_file_llseek_size` a limit that is made up of the
number of slots and the chunk size of the server; how many bytes the device holds depends on
the lines that have been written. -/
namespace Aesd
open FixedWidth Memory

def seekBase (fPos eof whence : Int) : Option Int :=
  if whence = 0 then some 0 else if whence = 1 then some fPos else if whence = 2 then some eof
  else none

/-- What `generic_file_llseek_size` does: it adds, and refuses a sum outside `0 .. maxsize`. -/
def Resolves (generic : GenericFileLlseekSize) : Prop :=
  ∀ fPos offset whence maxsize eof base, seekBase fPos eof whence = some base →
    if 0 ≤ base + offset ∧ base + offset ≤ maxsize then
      generic fPos offset whence maxsize eof = base + offset
    else generic fPos offset whence maxsize eof < 0

def genericFileLlseekSize : GenericFileLlseekSize := fun fPos offset whence maxsize eof =>
  match seekBase fPos eof whence with
  | none => -EINVAL
  | some base => if 0 ≤ base + offset ∧ base + offset ≤ maxsize then base + offset else -EINVAL

theorem resolves_genericFileLlseekSize : Resolves genericFileLlseekSize := by
  intro fPos offset whence maxsize eof base hbase
  have hneg : -EINVAL < 0 := by decide
  simp only [genericFileLlseekSize, hbase]
  split
  · rfl
  · exact hneg

/-- All three ways to `p` return `p` and leave the file there, from wherever it is. -/
structure Reaches (generic : GenericFileLlseekSize) (k : Kernel) (p : Int) : Prop where
  set : ∀ fPos, aesdLlseek generic k fPos p 0 = (p, p)
  cur : ∀ fPos, aesdLlseek generic k fPos (p - fPos) 1 = (p, p)
  fromEnd : ∀ fPos, aesdLlseek generic k fPos (p - k.dev.buffer.totalSize) 2 = (p, p)

def ReachesEveryByte (generic : GenericFileLlseekSize) (k : Kernel) : Prop :=
  ∀ p, 0 ≤ p → p ≤ k.dev.buffer.totalSize → Reaches generic k p

section Limit
variable {generic : GenericFileLlseekSize} (hgen : Resolves generic) (k : Kernel)
include hgen

theorem aesdLlseek_of_le {whence base offset fPos p : Int}
    (hbase : seekBase fPos k.dev.buffer.totalSize whence = some base) (hp : base + offset = p)
    (h0 : 0 ≤ p) (hmax : p ≤ maxFileSize) : aesdLlseek generic k fPos offset whence = (p, p) := by
  have hres := hgen fPos offset whence maxFileSize k.dev.buffer.totalSize base hbase
  rw [hp, if_pos ⟨h0, hmax⟩] at hres
  have hwhence : whence = 0 ∨ whence = 1 ∨ whence = 2 := by
    by_contra hnone
    push Not at hnone
    rw [seekBase, if_neg hnone.1, if_neg hnone.2.1, if_neg hnone.2.2] at hbase
    cases hbase
  simp only [aesdLlseek, if_pos hwhence, hres, if_pos h0]

theorem aesdLlseek_of_gt (fPos : Int) {p : Int} (hmax : maxFileSize < p) :
    (aesdLlseek generic k fPos p 0).1 < 0 := by
  have hres := hgen fPos p 0 maxFileSize k.dev.buffer.totalSize 0 rfl
  rw [Int.zero_add, if_neg (by omega)] at hres
  simpa only [aesdLlseek, true_or, if_true] using hres

theorem reachesEveryByte_iff :
    ReachesEveryByte generic k ↔ k.dev.buffer.totalSize ≤ maxFileSize := by
  constructor
  · intro h
    by_contra hlong
    have hpast : maxFileSize < k.dev.buffer.totalSize := Int.not_le.mp hlong
    have h0 : 0 ≤ k.dev.buffer.totalSize := by
      have hlimit : (0 : Int) ≤ maxFileSize := by decide
      omega
    have hneg := aesdLlseek_of_gt hgen k 0 hpast
    rw [(h _ h0 (Int.le_refl _)).set 0] at hneg
    dsimp only at hneg
    omega
  · intro hmax p h0 hp
    have hlimit : p ≤ maxFileSize := hp.trans hmax
    refine ⟨fun fPos => ?_, fun fPos => ?_, fun fPos => ?_⟩
    · exact aesdLlseek_of_le hgen k rfl (Int.zero_add p) h0 hlimit
    · exact aesdLlseek_of_le hgen k rfl (by omega) h0 hlimit
    · exact aesdLlseek_of_le hgen k rfl (by omega) h0 hlimit

end Limit

theorem aesdWrite_added {env : WriteEnv} {k : Kernel} {buf : List UInt8} {res : WriteResult}
    (hunlocked : k.dev.mutex = false) (hcall : aesdWrite env k buf = some res) :
    res.kernel.dev.buffer = res.added.toList.foldl CircularBuffer.addEntry k.dev.buffer := by
  rw [aesdWrite_of_unlocked env buf hunlocked] at hcall
  obtain ⟨s, hsection, rfl⟩ := Option.map_eq_some_iff.mp hcall
  obtain ⟨w, -, ⟨-, rfl⟩ | ⟨-, rfl⟩⟩ := writeSection_cases hsection
  · rfl
  · rfl

def writeCalls (writes : List (WriteEnv × List UInt8)) : List ClientOp :=
  writes.map fun w => .write w.1 w.2

def ServedWrite (w : WriteEnv × List UInt8) : Prop :=
  w.1.Succeeds ∧ w.2 ≠ [] ∧ w.2.length < kmallocBound

theorem ServedWrite.valid {w : WriteEnv × List UInt8} (h : ServedWrite w) :
    ClientOp.Valid (.write w.1 w.2) :=
  ⟨h.1, h.2.1, h.2.2.trans (by decide)⟩

section Writes
variable {slots : Vector BufferEntry 10} {unset : Unset} {writes : List (WriteEnv × List UInt8)}
  {t : ClientTrace}

theorem valid_writeCalls (hv : ∀ w ∈ writes, ServedWrite w) :
    ∀ op ∈ writeCalls writes, op.Valid := by
  intro op hop
  obtain ⟨w, hw, rfl⟩ := List.mem_map.mp hop
  exact (hv w hw).valid

theorem framed_of_run (hv : ∀ w ∈ writes, ServedWrite w)
    (hrun : ClientOp.run (initModule slots unset) (writeCalls writes) = some t) :
    ClientOp.Fits (writeCalls writes) ∧ Framed t (ClientOp.runs (writeCalls writes)) := by
  obtain ⟨hreturn, hhang⟩ := ClientOp.run_framed slots unset _ (valid_writeCalls hv)
  by_cases hfits : ClientOp.Fits (writeCalls writes)
  · obtain ⟨t', ht', -, f⟩ := hreturn hfits
    rw [hrun, Option.some.injEq] at ht'
    exact ⟨hfits, ht' ▸ f⟩
  · rw [hhang hfits] at hrun
    cases hrun

theorem mirrors_of_run (hv : ∀ w ∈ writes, ServedWrite w)
    (hrun : ClientOp.run (initModule slots unset) (writeCalls writes) = some t) :
    ∃ r : RingBuffer BufferEntry 10, Mirrors t.kernel.dev.buffer r ∧ r.live = t.added.rtake 10 := by
  induction writes using List.reverseRecOn generalizing t with
  | nil =>
      cases hrun
      exact ⟨_, Mirrors.fresh slots, by simp⟩
  | append_singleton writes w ih =>
      have hold : ∀ w' ∈ writes, ServedWrite w' := fun w' hw' => hv w' (by simp [hw'])
      have hsplit : writeCalls (writes ++ [w]) = writeCalls writes ++ [.write w.1 w.2] := by
        simp [writeCalls]
      rw [hsplit, ClientOp.run_append_singleton] at hrun
      obtain ⟨u, hu, hlast⟩ := Option.bind_eq_some_iff.mp hrun
      obtain ⟨r, hm, hlive⟩ := ih hold hu
      obtain ⟨res, hcall, rfl⟩ := Option.map_eq_some_iff.mp hlast
      have hbuffer := aesdWrite_added (framed_of_run hold hu).2.unlocked hcall
      dsimp only
      rw [hbuffer]
      cases res.added with
      | none => exact ⟨r, hm, by simpa using hlive⟩
      | some e =>
          refine ⟨r.push e, hm.addEntry e, ?_⟩
          rw [r.live_push, hlive, Option.toList_some, RingBuffer.rtake_append_rtake]

theorem ended_lt (hv : ∀ w ∈ writes, ServedWrite w) (hfits : ClientOp.Fits (writeCalls writes)) :
    ∀ run ∈ (ClientOp.runs (writeCalls writes)).ended, run.flatten.length < 2 ^ 32 := by
  induction writes using List.reverseRecOn with
  | nil => simp [writeCalls, ClientOp.runs, Runs.empty]
  | append_singleton writes w ih =>
      have hsplit : writeCalls (writes ++ [w]) = writeCalls writes ++ [.write w.1 w.2] := by
        simp [writeCalls]
      have hw := (hv w (by simp)).2.2
      unfold kmallocBound at hw
      rw [hsplit, ClientOp.fits_append_singleton] at hfits
      have hold := ih (fun w' hw' => hv w' (by simp [hw'])) hfits.1
      rw [hsplit, ClientOp.runs_write]
      by_cases hends : EndsLine w.2
      · rw [(Runs.push_of_ends _ hends).1]
        intro run hrun
        rcases List.mem_append.mp hrun with hmem | hnew
        · exact hold run hmem
        · rw [List.mem_singleton.mp hnew, List.flatten_append, List.length_append,
            List.flatten_singleton]
          rcases hfits.2 with hnil | hlt
          · rw [hnil]
            simp
            omega
          · exact hlt
      · rw [(Runs.push_of_not_ends _ hends).1]
        exact hold

theorem totalSize_of_run (hv : ∀ w ∈ writes, ServedWrite w)
    (hrun : ClientOp.run (initModule slots unset) (writeCalls writes) = some t) :
    t.kernel.dev.buffer.totalSize =
      ((((ClientOp.runs (writeCalls writes)).ended.rtake 10).map
        fun run => run.flatten.length).sum : Nat) := by
  obtain ⟨hfits, f⟩ := framed_of_run hv hrun
  obtain ⟨r, hm, hlive⟩ := mirrors_of_run hv hrun
  have hsizes : t.added.map BufferEntry.size =
      (ClientOp.runs (writeCalls writes)).ended.map fun run => run.flatten.length := by
    rw [← List.forall₂_eq_eq_eq, List.forall₂_map_left_iff, List.forall₂_map_right_iff]
    exact f.added.imp fun _ _ he => he.1
  have hlast : (t.added.rtake 10).map BufferEntry.size =
      ((ClientOp.runs (writeCalls writes)).ended.rtake 10).map fun run => run.flatten.length := by
    have hlen := congrArg List.length hsizes
    rw [List.length_map, List.length_map] at hlen
    rw [List.rtake, List.rtake, List.map_drop, List.map_drop, hsizes, hlen]
  have hbound : ((((ClientOp.runs (writeCalls writes)).ended.rtake 10).map
      fun run => run.flatten.length).sum) ≤ 10 * 2 ^ 32 := by
    have hle := List.sum_le_card_nsmul (((ClientOp.runs (writeCalls writes)).ended.rtake 10).map
      fun run => run.flatten.length) (2 ^ 32) (by
        intro n hn
        obtain ⟨run, hmem, rfl⟩ := List.mem_map.mp hn
        exact (ended_lt hv hfits run (List.mem_of_mem_drop hmem)).le)
    have hten : ((ClientOp.runs (writeCalls writes)).ended.rtake 10).length ≤ 10 := by
      rw [List.rtake, List.length_drop]
      omega
    rw [List.length_map, nsmul_eq_mul, Nat.cast_id] at hle
    exact hle.trans (Nat.mul_le_mul_right _ hten)
  rw [hm.totalSize, hlive, hlast]
  exact toSsize_of_lt (by omega)

end Writes

/-- `aesd_llseek` reaches every byte, from any position and in all three ways, exactly on the
devices whose last ten lines have together no more bytes than ten chunks of the server. -/
theorem reachesEveryByte_iff_lines (generic : GenericFileLlseekSize) (hgen : Resolves generic)
    (slots : Vector BufferEntry 10) (unset : Unset) (writes : List (WriteEnv × List UInt8))
    (hv : ∀ w ∈ writes, ServedWrite w) (t : ClientTrace)
    (hrun : ClientOp.run (initModule slots unset) (writeCalls writes) = some t) :
    ReachesEveryByte generic t.kernel ↔
      ((((ClientOp.runs (writeCalls writes)).ended.rtake 10).map
        fun run => run.flatten.length).sum : Nat) ≤ maxFileSize := by
  rw [reachesEveryByte_iff hgen, totalSize_of_run hv hrun]

theorem reachesEveryByte_short_line : ∃ t,
    ClientOp.run (initModule CircularBuffer.init.entry .zeroed) (writeCalls [(.zeroed, [97, 10])]) =
      some t ∧ ReachesEveryByte genericFileLlseekSize t.kernel := by
  have hv : ∀ w ∈ [(WriteEnv.zeroed, [(97 : UInt8), 10])], ServedWrite w := by
    intro w hw
    rw [List.mem_singleton.mp hw]
    exact ⟨WriteEnv.zeroed_succeeds, by simp, by decide⟩
  obtain ⟨t, hrun⟩ := Option.isSome_iff_exists.mp (show (ClientOp.run
    (initModule CircularBuffer.init.entry .zeroed) (writeCalls [(.zeroed, [97, 10])])).isSome = true by
      decide +kernel)
  exact ⟨t, hrun, (reachesEveryByte_iff_lines genericFileLlseekSize
    resolves_genericFileLlseekSize _ _ _ hv t hrun).mpr (by decide)⟩

def longLine : List UInt8 := List.replicate (10 * bufSize) 97 ++ [10]

/-- Behind the line of `longLine` no call of `aesd_llseek` gets to the end of the data. -/
theorem not_reachesEveryByte_longLine : ∃ t,
    ClientOp.run (initModule CircularBuffer.init.entry .zeroed) (writeCalls [(.zeroed, longLine)]) =
      some t ∧ ¬ ReachesEveryByte genericFileLlseekSize t.kernel := by
  have hends : EndsLine longLine := by
    rw [EndsLine, longLine, List.getLast?_append]
    rfl
  have hlen : longLine.length = 10 * bufSize + 1 := by simp [longLine]
  have hv : ∀ w ∈ [(WriteEnv.zeroed, longLine)], ServedWrite w := by
    intro w hw
    rw [List.mem_singleton.mp hw]
    refine ⟨WriteEnv.zeroed_succeeds, by simp [longLine], ?_⟩
    dsimp only
    rw [hlen]
    decide
  have hfits : ClientOp.Fits (writeCalls [(.zeroed, longLine)]) :=
    (ClientOp.fits_append_singleton [] _).mpr ⟨fun _ _ _ h => by simp at h, Or.inl rfl⟩
  have hended : (ClientOp.runs (writeCalls [(.zeroed, longLine)])).ended = [[longLine]] :=
    (Runs.push_of_ends .empty hends).1
  obtain ⟨t, hrun, -, -⟩ := (ClientOp.run_framed CircularBuffer.init.entry .zeroed _
    (valid_writeCalls hv)).1 hfits
  refine ⟨t, hrun, ?_⟩
  rw [reachesEveryByte_iff resolves_genericFileLlseekSize, totalSize_of_run hv hrun, hended]
  have hsum : (([[longLine]].rtake 10).map fun run => run.flatten.length).sum =
      10 * bufSize + 1 := by
    simp [List.rtake, hlen]
  rw [hsum]
  decide

end Aesd

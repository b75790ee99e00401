import Aesd.CharDevice

/-! What the parts of `aesd_write` do when its kernel calls succeed: the blocks a call
owns when it reaches the lock, and the effect of its locked region in the branch that
finds no pending line. -/
namespace Aesd
open FixedWidth Memory

structure Prepared (h : Heap) (c : WriteCall) (buf : List UInt8) : Prop where
  count : c.count = buf.length
  bytes : h.bytesAt c.data 0 buf.length = buf
  data_next : c.data < h.next
  tmp_next : c.tmp < h.next
  data_ne_tmp : c.data ≠ c.tmp
  addEntry_ne_data : c.addEntry ≠ c.data
  addEntry_ne_tmp : c.addEntry ≠ c.tmp

structure Allocated (h : Heap) (c : WriteCall) (pending : Nat) : Prop where
  addEntry_ok : h.ok c.addEntry 0 = true
  addEntry_live : (h.block c.addEntry).live = true
  data_live : (h.block c.data).live = true
  data_len : (h.block c.data).len = c.count
  tmp_live : (h.block c.tmp).live = true
  tmp_len : (h.block c.tmp).len = toSize (c.count + pending : Nat)

theorem WriteEnv.Succeeds.eq {env : WriteEnv} (hs : env.Succeeds) :
    ∃ a d t j low, env = ⟨some a, some d, some t, some j, low, 0⟩ := by
  obtain ⟨a, ha⟩ := Option.isSome_iff_exists.mp hs.addEntry
  obtain ⟨d, hd⟩ := Option.isSome_iff_exists.mp hs.data
  obtain ⟨t, ht⟩ := Option.isSome_iff_exists.mp hs.tmp
  obtain ⟨j, hj⟩ := Option.isSome_iff_exists.mp hs.joined
  have hc := hs.copied
  cases env
  simp_all

def WriteEnv.zeroed : WriteEnv :=
  ⟨some fun _ => 0, some fun _ => 0, some fun _ => 0, some fun _ => 0, 0, 0⟩

theorem WriteEnv.zeroed_succeeds : WriteEnv.zeroed.Succeeds := ⟨rfl, rfl, rfl, rfl, rfl⟩

section Prolog
variable {env : WriteEnv} (hs : env.Succeeds) (k : Kernel) (buf : List UInt8)
include hs

theorem writeProlog_call :
    (writeProlog env k buf).1 =
      ⟨k.heap.next, k.heap.next + 1, k.heap.next + 2, buf.length⟩ := by
  obtain ⟨a, d, t, j, low, rfl⟩ := hs.eq
  simp [writeProlog]

theorem writeProlog_next :
    (writeProlog env k buf).2.heap.next = k.heap.next + 3 := by
  obtain ⟨a, d, t, j, low, rfl⟩ := hs.eq
  simp [writeProlog, copyFromUser, Heap.next_storeList]

theorem writeProlog_extends :
    k.heap.Extends (writeProlog env k buf).2.heap := by
  obtain ⟨a, d, t, j, low, rfl⟩ := hs.eq
  simp only [writeProlog, copyFromUser_all, kmalloc_some]
  have e := (((Heap.Extends.refl k.heap).alloc 16 a).alloc buf.length d).alloc
    (toSize (buf.length + k.dev.partialEntry.size : Nat)) t
  exact e.storeList _ (by simp) _ _

theorem writeProlog_prepared :
    Prepared (writeProlog env k buf).2.heap (writeProlog env k buf).1 buf := by
  have hnext := writeProlog_next hs k buf
  have hcall := writeProlog_call hs k buf
  refine ⟨by rw [hcall], ?_, by rw [hcall, hnext]; simp, by rw [hcall, hnext]; simp,
    by rw [hcall]; simp, by rw [hcall]; simp, by rw [hcall]; simp⟩
  obtain ⟨a, d, t, j, low, rfl⟩ := hs.eq
  simp only [writeProlog, copyFromUser_all, kmalloc_some, Heap.bytesAt_storeList]

theorem writeProlog_allocated :
    Allocated (writeProlog env k buf).2.heap (writeProlog env k buf).1
      k.dev.partialEntry.size := by
  obtain ⟨a, d, t, j, low, rfl⟩ := hs.eq
  have h0 : ∀ n : Nat, n ≠ n + 1 + 1 := fun n => by omega
  constructor <;>
    simp [writeProlog, copyFromUser, Heap.ok, Heap.live_storeList, Heap.len_storeList,
      Heap.alloc, Function.update, h0]

theorem writeProlog_fault :
    (writeProlog env k buf).2.heap.fault = k.heap.fault := by
  obtain ⟨a, d, t, j, low, rfl⟩ := hs.eq
  simp only [writeProlog, copyFromUser_all, kmalloc_some]
  rw [Heap.fault_storeList]
  · simp
  · intro i hi
    simp [Heap.ok, Heap.alloc, Function.update, hi]

end Prolog

theorem writeProlog_dev (env : WriteEnv) (k : Kernel) (buf : List UInt8) :
    (writeProlog env k buf).2.dev = k.dev := rfl

theorem writeSection_single (env : WriteEnv) (c : WriteCall) {k : Kernel}
    (hpart : k.dev.isPartial = false) :
    writeSection env c k =
      if k.heap.load c.data (toSsize c.count - 1) ≠ newline then
        some (⟨{ k.dev with isPartial := true, partialEntry := ⟨c.data, toSize c.count⟩ },
          (k.heap.check c.data (toSsize c.count - 1)).free c.addEntry⟩, none)
      else
        some (⟨{ k.dev with
            isPartial := false, buffer := k.dev.buffer.addEntry ⟨c.data, toSize c.count⟩ },
          (k.heap.check c.data (toSsize c.count - 1)).check c.addEntry 0⟩,
          some ⟨c.data, toSize c.count⟩) := by
  simp [writeSection, gatherLine, hpart, toSize_toSsize]

theorem aesdWrite_of_unlocked (env : WriteEnv) {k : Kernel} (buf : List UInt8)
    (hunlocked : k.dev.mutex = false) :
    aesdWrite env k buf =
      (writeSection env (writeProlog env k buf).1 (writeProlog env k buf).2.mutexLock).map
        fun s => ⟨{ dev := s.1.mutexUnlock.dev
                    heap := s.1.heap.free (writeProlog env k buf).1.tmp },
          toSsize (writeProlog env k buf).1.count, s.2⟩ := by
  simp only [aesdWrite, writeProlog_dev, hunlocked, Kernel.mutexLock, Bool.not_true,
    Bool.false_eq_true, if_false]
  cases writeSection env (writeProlog env k buf).1 _ with
  | none => rfl
  | some s => simp [writeEpilog, Kernel.mutexUnlock]

theorem load_last {h : Heap} {p : Nat} {l : List UInt8} (hbytes : h.bytesAt p 0 l.length = l)
    (hne : l ≠ []) : h.load p ((l.length : Int) - 1) = l.getLast hne := by
  have hpos : 0 < l.length := List.length_pos_iff.mpr hne
  have hget := Heap.getElem?_bytesAt h p 0 l.length (l.length - 1) (by omega)
  rw [hbytes, List.getElem?_eq_getElem (by omega), Option.some.injEq] at hget
  rw [List.getLast_eq_getElem, hget]
  congr 1
  omega

theorem aesdWrite_single {env : WriteEnv} (hs : env.Succeeds) {k : Kernel} {buf : List UInt8}
    (hunlocked : k.dev.mutex = false) (hclear : k.dev.isPartial = false) (hne : buf ≠ [])
    (hlen : buf.length < 2 ^ 63) :
    ∃ res, aesdWrite env k buf = some res ∧ res.ret = buf.length ∧
      res.kernel.heap.fault = k.heap.fault ∧ k.heap.Extends res.kernel.heap ∧
      res.kernel.heap.Holds (k.heap.next + 1) buf ∧
      (buf.getLast? = some newline ∧ res.added = some ⟨k.heap.next + 1, buf.length⟩ ∧
        res.kernel.dev = { k.dev with
          mutex := false
          isPartial := false
          buffer := k.dev.buffer.addEntry ⟨k.heap.next + 1, buf.length⟩ } ∨
      buf.getLast? ≠ some newline ∧ res.added = none ∧
        res.kernel.dev = { k.dev with
          mutex := false
          isPartial := true
          partialEntry := ⟨k.heap.next + 1, buf.length⟩ }) := by
  have hpos : 0 < buf.length := List.length_pos_iff.mpr hne
  have hcall := writeProlog_call hs k buf
  have prep := writeProlog_prepared hs k buf
  have alloc := writeProlog_allocated hs k buf
  have ext := writeProlog_extends hs k buf
  have hfault := writeProlog_fault hs k buf
  rw [hcall] at prep alloc
  have hcount : toSsize (buf.length : Nat) = buf.length := toSsize_of_lt hlen
  have hsize : toSize (buf.length : Nat) = buf.length := toSize_of_lt (by omega)
  have hlast : (writeProlog env k buf).2.heap.load (k.heap.next + 1) ((buf.length : Int) - 1) =
      buf.getLast hne := load_last prep.bytes hne
  have hiff : buf.getLast? = some newline ↔ buf.getLast hne = newline := by
    rw [List.getLast?_eq_some_getLast hne, Option.some.injEq]
  have hok : (writeProlog env k buf).2.heap.ok (k.heap.next + 1) ((buf.length : Int) - 1) =
      true := by
    refine (Heap.ok_iff _ _ _).mpr ⟨alloc.data_live, by omega, ?_⟩
    rw [alloc.data_len]
    dsimp only
    omega
  have hfirst : (writeProlog env k buf).2.heap.ok k.heap.next 0 = true := alloc.addEntry_ok
  have hfirst' : ((writeProlog env k buf).2.heap.block k.heap.next).live = true :=
    alloc.addEntry_live
  have htmp : ((writeProlog env k buf).2.heap.block (k.heap.next + 2)).live = true :=
    alloc.tmp_live
  have hdata : ((writeProlog env k buf).2.heap.block (k.heap.next + 1)).live = true :=
    alloc.data_live
  have hdlen : ((writeProlog env k buf).2.heap.block (k.heap.next + 1)).len = buf.length :=
    alloc.data_len
  have hwrite := aesdWrite_of_unlocked env buf hunlocked
  rw [hcall, writeSection_single _ _ (by exact hclear)] at hwrite
  simp only [Kernel.mutexLock, Kernel.mutexUnlock, hcount, hsize, hlast, writeProlog_dev] at hwrite
  by_cases hnl : buf.getLast hne = newline
  · simp only [hnl, ne_eq, not_true_eq_false, if_false, Option.map_some] at hwrite
    refine ⟨_, hwrite, rfl, ?_, ((ext.check _ _).check _ _).free (k.heap.next + 2) (by omega),
      ⟨?_, ?_, ?_⟩, Or.inl ⟨hiff.mpr hnl, rfl, rfl⟩⟩
    · rw [Heap.fault_free]
      simp [hok, hfirst, hfault, htmp]
    · simp [Heap.live_free, hdata]
    · simp [hdlen]
    · refine Eq.trans (Heap.bytesAt_congr fun i _ => ?_) prep.bytes
      simp
  · simp only [hnl, ne_eq, not_false_eq_true, if_true, Option.map_some] at hwrite
    refine ⟨_, hwrite, rfl, ?_, ((ext.check _ _).free k.heap.next (Nat.le_refl _)).free
      (k.heap.next + 2) (by omega), ⟨?_, ?_, ?_⟩, Or.inr ⟨fun h => hnl (hiff.mp h), rfl, rfl⟩⟩
    · rw [Heap.fault_free, Heap.fault_free, Heap.live_free]
      simp [hok, hfault, htmp, hfirst']
    · simp [Heap.live_free, hdata]
    · simp [hdlen]
    · refine Eq.trans (Heap.bytesAt_congr fun i _ => ?_) prep.bytes
      simp

def joinedHeap (env : WriteEnv) (c : WriteCall) (entry : BufferEntry) (h : Heap) : Heap :=
  let h := Heap.moves entry.buffptr 0 c.tmp 0 entry.size h
  let h := Heap.moves c.data 0 c.tmp entry.size c.count h
  let q := kmalloc (h.free c.data) (toSize (c.count + entry.size : Nat)) env.joined
  let h := q.2.store c.data 0 (if q.1 = 0 then 0 else env.joinedLow)
  Heap.moves c.tmp 0 c.data 0 (c.count + entry.size) h

theorem rounds_move_eq_moves (src dst d n : Nat) (h : Heap) :
    rounds (fun i h => h.move src i dst (d + i : Nat)) n h = Heap.moves src 0 dst d n h := by
  rw [Heap.moves]
  congr 1
  ext i h : 2
  rw [zero_add, Nat.cast_add]

theorem joinPartial_eq (env : WriteEnv) (c : WriteCall) (k : Kernel)
    (hlt : c.count + k.dev.partialEntry.size < 2 ^ 32) :
    joinPartial env c k = some (((c.count + k.dev.partialEntry.size : Nat) : Int),
      joinedHeap env c k.dev.partialEntry k.heap) := by
  have hsize : toSsize (toSsize c.count + k.dev.partialEntry.size) =
      (c.count + k.dev.partialEntry.size : Nat) := by
    rw [toSsize_toSsize_add, ← Nat.cast_add]
    exact toSsize_of_lt (by omega)
  have hfirst := rounds_move_eq_moves k.dev.partialEntry.buffptr c.tmp 0
  have hlast := rounds_move_eq_moves c.tmp c.data 0
  simp only [Nat.zero_add, Nat.cast_zero] at hfirst hlast
  simp only [joinPartial, hsize, Option.bind_eq_bind]
  rw [forUint_of_lt (by omega), Option.bind_some, hfirst, forUint_of_lt (by omega),
    Option.bind_some, rounds_move_eq_moves, forUint_of_lt hlt, Option.bind_some, hlast]
  rfl

/-- From 2^32 bytes on one of the three loops never ends. -/
theorem joinPartial_eq_none (env : WriteEnv) (c : WriteCall) (k : Kernel)
    (hge : 2 ^ 32 ≤ c.count + k.dev.partialEntry.size) : joinPartial env c k = none := by
  simp only [joinPartial, Option.bind_eq_bind]
  by_cases hfirst : k.dev.partialEntry.size < 2 ^ 32
  · rw [forUint_of_lt hfirst, Option.bind_some]
    by_cases hsecond : c.count < 2 ^ 32
    · have hsize : toSsize (toSsize c.count + k.dev.partialEntry.size) =
          (c.count + k.dev.partialEntry.size : Nat) := by
        rw [toSsize_toSsize_add, ← Nat.cast_add]
        exact toSsize_of_lt (by omega)
      rw [forUint_of_lt hsecond, Option.bind_some, hsize,
        forUint_eq_none (by exact_mod_cast hge), Option.bind_none]
    · rw [forUint_eq_none (by omega), Option.bind_none]
  · rw [forUint_eq_none (by omega), Option.bind_none]

theorem gatherLine_cases {env : WriteEnv} {c : WriteCall} {k : Kernel} {w : Int × Heap}
    (hgather : gatherLine env c k = some w) :
    k.dev.isPartial = false ∧ w = (toSsize c.count, k.heap) ∨
      k.dev.isPartial = true ∧ c.count + k.dev.partialEntry.size < 2 ^ 32 ∧
        w = (((c.count + k.dev.partialEntry.size : Nat) : Int),
          joinedHeap env c k.dev.partialEntry k.heap) := by
  rw [gatherLine] at hgather
  split at hgather
  · rename_i hset
    by_cases hlt : c.count + k.dev.partialEntry.size < 2 ^ 32
    · rw [joinPartial_eq env c k hlt, Option.some.injEq] at hgather
      exact Or.inr ⟨hset, hlt, hgather.symm⟩
    · rw [joinPartial_eq_none env c k (Nat.le_of_not_lt hlt)] at hgather
      cases hgather
  · rename_i hclear
    rw [Option.some.injEq] at hgather
    exact Or.inl ⟨Bool.not_eq_true _ ▸ hclear, hgather.symm⟩

theorem gatherLine_of_clear {env : WriteEnv} {c : WriteCall} {k : Kernel} {w : Int × Heap}
    (hclear : k.dev.isPartial = false) (hgather : gatherLine env c k = some w) :
    w = (toSsize c.count, k.heap) := by
  rcases gatherLine_cases hgather with ⟨-, heq⟩ | ⟨hset, -⟩
  · exact heq
  · rw [hclear] at hset
    cases hset

theorem writeSection_cases {env : WriteEnv} {c : WriteCall} {k : Kernel}
    {s : Kernel × Option BufferEntry} (hsection : writeSection env c k = some s) :
    ∃ w, gatherLine env c k = some w ∧
      (w.2.load c.data (w.1 - 1) ≠ newline ∧
        s = (⟨{ k.dev with isPartial := true, partialEntry := ⟨c.data, toSize w.1⟩ },
          (w.2.check c.data (w.1 - 1)).free c.addEntry⟩, none) ∨
      w.2.load c.data (w.1 - 1) = newline ∧
        s = (⟨{ k.dev with
            isPartial := false, buffer := k.dev.buffer.addEntry ⟨c.data, toSize w.1⟩ },
          (w.2.check c.data (w.1 - 1)).check c.addEntry 0⟩, some ⟨c.data, toSize w.1⟩)) := by
  rw [writeSection] at hsection
  obtain ⟨w, hgather, hsection⟩ := Option.bind_eq_some_iff.mp hsection
  refine ⟨w, hgather, ?_⟩
  dsimp only at hsection
  split at hsection
  · rename_i hopen
    exact Or.inl ⟨hopen, (Option.some.inj hsection).symm⟩
  · rename_i hends
    exact Or.inr ⟨not_not.mp hends, (Option.some.inj hsection).symm⟩

section Joined
variable {env : WriteEnv} (hs : env.Succeeds) (c : WriteCall) (entry : BufferEntry) {h : Heap}
include hs

theorem joinedHeap_next : (joinedHeap env c entry h).next = h.next + 1 := by
  obtain ⟨a, d, t, j, low, rfl⟩ := hs.eq
  simp [joinedHeap]

theorem joinedHeap_load (p : Nat) (hp : p < h.next) (hd : p ≠ c.data) (ht : p ≠ c.tmp) (i : Int) :
    (joinedHeap env c entry h).load p i = h.load p i := by
  obtain ⟨a, d, t, j, low, rfl⟩ := hs.eq
  have hne : p ≠ h.next := by omega
  simp only [joinedHeap, kmalloc_some]
  rw [Heap.load_moves_of_ne _ _ _ _ _ _ _ _ hd, Heap.load_store, if_neg (by tauto),
    Heap.load_alloc_of_ne _ _ _ _ _ (by simpa using hne), Heap.load_free,
    Heap.load_moves_of_ne _ _ _ _ _ _ _ _ ht, Heap.load_moves_of_ne _ _ _ _ _ _ _ _ ht]

theorem joinedHeap_bytes (hdt : c.data ≠ c.tmp) (ht : c.tmp < h.next)
    (het : entry.buffptr ≠ c.tmp) :
    (joinedHeap env c entry h).bytesAt c.data 0 (entry.size + c.count) =
      h.bytesAt entry.buffptr 0 entry.size ++ h.bytesAt c.data 0 c.count := by
  obtain ⟨a, d, t, j, low, rfl⟩ := hs.eq
  have hne : c.tmp ≠ h.next := by omega
  simp only [joinedHeap, kmalloc_some]
  rw [Nat.add_comm entry.size, Heap.bytesAt_moves _ _ _ _ _ _ hdt.symm, Nat.add_comm c.count,
    Heap.bytesAt_add]
  congr 1
  · rw [← Heap.bytesAt_moves h entry.buffptr c.tmp 0 0 entry.size het]
    apply Heap.bytesAt_congr
    intro i hi
    rw [Heap.load_store, if_neg (by tauto), Heap.load_alloc_of_ne _ _ _ _ _ (by simpa using hne),
      Heap.load_free, Heap.load_moves _ _ _ _ _ _ _ _ hdt, if_neg (by omega)]
  · have hsrc : h.bytesAt c.data 0 c.count =
        (Heap.moves entry.buffptr 0 c.tmp 0 entry.size h).bytesAt c.data 0 c.count := by
      apply Heap.bytesAt_congr
      intro i hi
      rw [Heap.load_moves_of_ne _ _ _ _ _ _ _ _ hdt]
    rw [hsrc, ← Heap.bytesAt_moves _ c.data c.tmp 0 entry.size c.count hdt]
    apply Heap.bytesAt_congr
    intro i hi
    rw [Heap.load_store, if_neg (by tauto), Heap.load_alloc_of_ne _ _ _ _ _ (by simpa using hne),
      Heap.load_free, zero_add]

end Joined

end Aesd

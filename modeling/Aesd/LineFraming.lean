import Aesd.WriteSteps
import Aesd.Lib.Runs
import Mathlib.Data.List.Forall2
import Mathlib.Data.List.Induction

/-! Newline framing of writes. A write appends its bytes to the pending line; the line goes
to the buffer when the write ends in a newline and stays pending otherwise. Only byte
contents are looked at here: accesses outside a block or to a freed one read and write
the bytes that lie there. -/
namespace Aesd
open FixedWidth Memory

structure Pends (k : Kernel) (pending : List UInt8) : Prop where
  clear : k.dev.isPartial = false → pending = []
  size : k.dev.isPartial = true → k.dev.partialEntry.size = pending.length
  bytes : k.dev.isPartial = true →
    k.heap.bytesAt k.dev.partialEntry.buffptr 0 pending.length = pending
  lt_next : k.dev.isPartial = true → k.dev.partialEntry.buffptr < k.heap.next

theorem Pends.of_clear {k : Kernel} (h : k.dev.isPartial = false) : Pends k [] where
  clear _ := rfl
  size hset := absurd (h.symm.trans hset) Bool.false_ne_true
  bytes hset := absurd (h.symm.trans hset) Bool.false_ne_true
  lt_next hset := absurd (h.symm.trans hset) Bool.false_ne_true

theorem Pends.of_load {k k' : Kernel} {pending : List UInt8} (pend : Pends k pending)
    (hpart : k'.dev.isPartial = k.dev.isPartial)
    (hentry : k'.dev.partialEntry = k.dev.partialEntry) (hnext : k.heap.next ≤ k'.heap.next)
    (hload : k.dev.isPartial = true → ∀ i,
      k'.heap.load k.dev.partialEntry.buffptr i = k.heap.load k.dev.partialEntry.buffptr i) :
    Pends k' pending where
  clear h := pend.clear (hpart.symm.trans h)
  size h := by
    rw [hentry]
    exact pend.size (hpart.symm.trans h)
  bytes h := by
    have hset := hpart.symm.trans h
    rw [hentry]
    exact (Heap.bytesAt_congr fun i _ => hload hset _).trans (pend.bytes hset)
  lt_next h := by
    rw [hentry]
    exact (pend.lt_next (hpart.symm.trans h)).trans_le hnext

theorem Pends.of_extends {k k' : Kernel} {pending : List UInt8} (pend : Pends k pending)
    (ext : k.heap.Extends k'.heap) (hpart : k'.dev.isPartial = k.dev.isPartial)
    (hentry : k'.dev.partialEntry = k.dev.partialEntry) : Pends k' pending :=
  pend.of_load hpart hentry ext.next_le fun hset _ => ext.load (pend.lt_next hset) _

structure Appends (k : Kernel) (c : WriteCall) (line : List UInt8)
    (s : Kernel × Option BufferEntry) (ends : Bool) : Prop where
  next_le : k.heap.next ≤ s.1.heap.next
  others : ∀ p < k.heap.next, p ≠ c.data → p ≠ c.tmp → ∀ i, s.1.heap.load p i = k.heap.load p i
  bytes : s.1.heap.bytesAt c.data 0 line.length = line
  ends_eq : ∀ h : line ≠ [], ends = decide (line.getLast h = newline)
  dev : s.1.dev =
    if ends then
      { k.dev with isPartial := false, buffer := k.dev.buffer.addEntry ⟨c.data, line.length⟩ }
    else { k.dev with isPartial := true, partialEntry := ⟨c.data, line.length⟩ }
  added : s.2 = if ends then some ⟨c.data, line.length⟩ else none

theorem Appends.pends {k : Kernel} {c : WriteCall} {line : List UInt8}
    {s : Kernel × Option BufferEntry} {ends : Bool} (app : Appends k c line s ends)
    (hdata : c.data < k.heap.next) : Pends s.1 (if ends then [] else line) := by
  have hdev := app.dev
  cases ends with
  | true =>
      rw [if_pos rfl] at hdev ⊢
      exact Pends.of_clear (by rw [hdev])
  | false =>
      rw [if_neg Bool.false_ne_true] at hdev ⊢
      refine ⟨?_, ?_, ?_, ?_⟩ <;> rw [hdev]
      · exact fun hclear => absurd hclear.symm Bool.false_ne_true
      · exact fun _ => rfl
      · exact fun _ => app.bytes
      · exact fun _ => hdata.trans_le app.next_le

section Section
variable {env : WriteEnv} {c : WriteCall} {k : Kernel} {buf pending : List UInt8}

theorem writeSection_of_gathered {line : List UInt8} {h : Heap}
    (hjoin : gatherLine env c k = some ((line.length : Int), h))
    (hnext : k.heap.next ≤ h.next)
    (hothers : ∀ p < k.heap.next, p ≠ c.data → p ≠ c.tmp → ∀ i, h.load p i = k.heap.load p i)
    (hbytes : h.bytesAt c.data 0 line.length = line) (hlen : line.length < 2 ^ 63) :
    ∃ s ends, writeSection env c k = some s ∧ Appends k c line s ends := by
  have hsize : toSize (line.length : Int) = line.length := toSize_of_lt (by omega)
  have hlast : ∀ hne : line ≠ [], h.load c.data ((line.length : Int) - 1) = line.getLast hne :=
    fun hne => load_last hbytes hne
  by_cases hnl : h.load c.data ((line.length : Int) - 1) = newline
  · refine ⟨⟨⟨{ k.dev with
        isPartial := false, buffer := k.dev.buffer.addEntry ⟨c.data, line.length⟩ },
        (h.check c.data ((line.length : Int) - 1)).check c.addEntry 0⟩,
        some ⟨c.data, line.length⟩⟩, true, ?_, ?_⟩
    · simp only [writeSection, hjoin, Option.bind_eq_bind, Option.bind_some, hnl, hsize, ne_eq,
        not_true_eq_false, if_false]
    · refine ⟨hnext, hothers, hbytes, fun hne => ?_, rfl, rfl⟩
      rw [← hlast hne, hnl]
      rfl
  · refine ⟨⟨⟨{ k.dev with isPartial := true, partialEntry := ⟨c.data, line.length⟩ },
        (h.check c.data ((line.length : Int) - 1)).free c.addEntry⟩, none⟩, false, ?_, ?_⟩
    · simp only [writeSection, hjoin, Option.bind_eq_bind, Option.bind_some, hnl, hsize, ne_eq,
        not_false_eq_true, if_true]
    · refine ⟨by rw [Heap.next_free]; exact hnext, fun p hp hd ht i => ?_, ?_, fun hne => ?_, rfl,
        rfl⟩
      · rw [Heap.load_free, Heap.load_check, hothers p hp hd ht i]
      · refine Eq.trans (Heap.bytesAt_congr fun i _ => ?_) hbytes
        rw [Heap.load_free, Heap.load_check]
      · rw [← hlast hne, decide_eq_false hnl]

theorem writeSection_appends (hs : env.Succeeds) (prep : Prepared k.heap c buf)
    (pend : Pends k pending)
    (hapart : k.dev.isPartial = true → k.dev.partialEntry.buffptr ≠ c.data ∧
      k.dev.partialEntry.buffptr ≠ c.tmp)
    (hcount : buf.length < 2 ^ 63)
    (hlt : k.dev.isPartial = true → pending.length + buf.length < 2 ^ 32) :
    ∃ s ends, writeSection env c k = some s ∧ Appends k c (pending ++ buf) s ends := by
  cases hpart : k.dev.isPartial
  · rw [pend.clear hpart, List.nil_append]
    refine writeSection_of_gathered (h := k.heap) ?_ (Nat.le_refl _) (fun _ _ _ _ _ => rfl)
      prep.bytes hcount
    rw [gatherLine, hpart, prep.count, toSsize_of_lt hcount]
    rfl
  · have hsize := pend.size hpart
    have hsum := hlt hpart
    have hcnt := prep.count
    have hbytes := joinedHeap_bytes hs c k.dev.partialEntry prep.data_ne_tmp prep.tmp_next
      (hapart hpart).2
    rw [hsize, hcnt, pend.bytes hpart, prep.bytes, ← List.length_append] at hbytes
    refine writeSection_of_gathered (h := joinedHeap env c k.dev.partialEntry k.heap) ?_ ?_ ?_
      hbytes (by rw [List.length_append]; omega)
    · rw [gatherLine, hpart, if_pos rfl, joinPartial_eq env c k (by omega), hsize, hcnt,
        List.length_append,
        Nat.add_comm]
    · rw [joinedHeap_next hs]
      omega
    · exact fun p hp hd ht i => joinedHeap_load hs c _ p hp hd ht i

theorem writeSection_hangs (env : WriteEnv) (hcount : c.count = buf.length)
    (pend : Pends k pending) (hpart : k.dev.isPartial = true)
    (hge : 2 ^ 32 ≤ pending.length + buf.length) : writeSection env c k = none := by
  have hsize := pend.size hpart
  rw [writeSection, gatherLine, hpart, if_pos rfl, joinPartial_eq_none env c k (by omega)]
  rfl

end Section

inductive ClientOp
  | write (env : WriteEnv) (buf : List UInt8)
  | flush

structure ClientTrace where
  kernel : Kernel
  rets : List Int
  added : List BufferEntry

def EndsLine (buf : List UInt8) : Prop := buf.getLast? = some newline

instance : DecidablePred EndsLine := fun buf =>
  inferInstanceAs (Decidable (buf.getLast? = some newline))

namespace ClientOp

def Valid : ClientOp → Prop
  | write env buf => env.Succeeds ∧ buf ≠ [] ∧ buf.length < 2 ^ 63
  | flush => True

def apply (t : ClientTrace) : ClientOp → Option ClientTrace
  | write env buf => (aesdWrite env t.kernel buf).map fun res =>
      ⟨res.kernel, t.rets ++ [res.ret], t.added ++ res.added.toList⟩
  | flush => some { t with kernel := (aesdFlush t.kernel).1 }

def run (k : Kernel) (ops : List ClientOp) : Option ClientTrace := ops.foldlM apply ⟨k, [], []⟩

def counts (ops : List ClientOp) : List Int :=
  ops.flatMap fun op => match op with
    | write _ buf => [(buf.length : Int)]
    | flush => []

/-- The runs of consecutive writes, a run being given up by a flush. -/
def runs (ops : List ClientOp) : Runs (List UInt8) EndsLine :=
  ops.foldl (fun rs op => match op with
    | write _ buf => rs.push buf
    | flush => rs.cut) Runs.empty

def Fits (ops : List ClientOp) : Prop :=
  ∀ pre env buf, pre ++ [write env buf] <+: ops →
    (runs pre).trailing = [] ∨ (runs pre).trailing.flatten.length + buf.length < 2 ^ 32

theorem run_append_singleton (k : Kernel) (ops : List ClientOp) (op : ClientOp) :
    run k (ops ++ [op]) = (run k ops).bind fun t => apply t op := by
  simp [run]

@[simp] theorem runs_write (ops : List ClientOp) (env : WriteEnv) (buf : List UInt8) :
    runs (ops ++ [write env buf]) = (runs ops).push buf := by
  simp [runs]

@[simp] theorem runs_flush (ops : List ClientOp) : runs (ops ++ [flush]) = (runs ops).cut := by
  simp [runs]

end ClientOp

/-- The added entries hold the closed runs and the pending line holds the trailing one. -/
structure Framed (t : ClientTrace) (rs : Runs (List UInt8) EndsLine) : Prop where
  unlocked : t.kernel.dev.mutex = false
  added : List.Forall₂ (fun e run => e.size = run.flatten.length ∧ e.buffptr < t.kernel.heap.next ∧
    t.kernel.heap.bytesAt e.buffptr 0 e.size = run.flatten) t.added rs.ended
  pends : Pends t.kernel rs.trailing.flatten
  partial_iff : t.kernel.dev.isPartial = true ↔ rs.trailing ≠ []

theorem endsLine_iff_getLast (pending : List UInt8) {buf : List UInt8} (hne : buf ≠ [])
    (h : pending ++ buf ≠ []) : EndsLine buf ↔ (pending ++ buf).getLast h = newline := by
  rw [EndsLine, List.getLast_append_of_ne_nil h hne, List.getLast?_eq_some_getLast hne,
    Option.some.injEq]

namespace Framed
variable {t : ClientTrace} {rs : Runs (List UInt8) EndsLine} {env : WriteEnv} {buf : List UInt8}

theorem pends_locked (f : Framed t rs) (hs : env.Succeeds) (buf : List UInt8) :
    Pends (writeProlog env t.kernel buf).2.mutexLock rs.trailing.flatten :=
  f.pends.of_extends (writeProlog_extends hs t.kernel buf) rfl rfl

theorem write (f : Framed t rs) (hv : ClientOp.Valid (.write env buf))
    (hfits : rs.trailing = [] ∨ rs.trailing.flatten.length + buf.length < 2 ^ 32) :
    ∃ t', ClientOp.apply t (.write env buf) = some t' ∧ t'.rets = t.rets ++ [(buf.length : Int)] ∧
      Framed t' (rs.push buf) := by
  obtain ⟨hs, hne, hlen⟩ := hv
  have hcall := writeProlog_call hs t.kernel buf
  have hnext := writeProlog_next hs t.kernel buf
  have prep := writeProlog_prepared hs t.kernel buf
  have ext := writeProlog_extends hs t.kernel buf
  have hpend := f.pends_locked hs buf
  rw [hcall] at prep
  obtain ⟨s, ends, hsection, app⟩ := writeSection_appends
    (k := (writeProlog env t.kernel buf).2.mutexLock) hs prep hpend
    (fun hpart => by
      have hlt := f.pends.lt_next hpart
      simp only [Kernel.mutexLock, writeProlog_dev]
      omega)
    hlen (fun hpart => hfits.resolve_left (f.partial_iff.mp hpart))
  have hnext' : t.kernel.heap.next + 3 ≤ s.1.heap.next := by
    have hle := app.next_le
    simp only [Kernel.mutexLock, hnext] at hle
    exact hle
  have hkeep : ∀ p < t.kernel.heap.next, ∀ i,
      (s.1.heap.free (t.kernel.heap.next + 2)).load p i = t.kernel.heap.load p i := by
    intro p hp i
    rw [Heap.load_free, app.others p (by simp only [Kernel.mutexLock, hnext]; omega)
      (by dsimp only; omega) (by dsimp only; omega) i]
    exact ext.load hp i
  have hline : rs.trailing.flatten ++ buf ≠ [] := by simp [hne]
  have hiff := endsLine_iff_getLast rs.trailing.flatten hne hline
  have hends := app.ends_eq hline
  have hold : List.Forall₂ (fun e run => e.size = run.flatten.length ∧
      e.buffptr < (s.1.heap.free (t.kernel.heap.next + 2)).next ∧
      (s.1.heap.free (t.kernel.heap.next + 2)).bytesAt e.buffptr 0 e.size = run.flatten)
      t.added rs.ended := by
    refine f.added.imp fun e run he => ⟨he.1, ?_, ?_⟩
    · rw [Heap.next_free]
      omega
    · exact (Heap.bytesAt_congr fun i _ => hkeep _ he.2.1 _).trans he.2.2
  have hpending : Pends ⟨s.1.mutexUnlock.dev, s.1.heap.free (t.kernel.heap.next + 2)⟩
      (if ends then [] else rs.trailing.flatten ++ buf) :=
    (app.pends (by simp only [Kernel.mutexLock, hnext]; omega)).of_load rfl rfl
      (Heap.next_free _ _).ge fun _ i => by rw [Heap.load_free]
  have happly : ClientOp.apply t (.write env buf) =
      some ⟨⟨s.1.mutexUnlock.dev, s.1.heap.free (t.kernel.heap.next + 2)⟩,
        t.rets ++ [(buf.length : Int)], t.added ++ s.2.toList⟩ := by
    have hret : toSsize (buf.length : Nat) = buf.length := toSsize_of_lt hlen
    rw [ClientOp.apply, aesdWrite_of_unlocked env buf f.unlocked, hcall, hsection]
    simp only [Option.map_some, hret]
  refine ⟨_, happly, rfl, ?_⟩
  have hset : s.1.dev.isPartial = !ends := by
    rw [app.dev]
    cases ends <;> rfl
  have hadded := app.added
  have hflat : (rs.trailing ++ [buf]).flatten = rs.trailing.flatten ++ buf := by simp
  cases ends with
  | true =>
      obtain ⟨hended, htrailing⟩ := rs.push_of_ends (hiff.mpr (decide_eq_true_iff.mp hends.symm))
      rw [if_pos rfl] at hadded hpending
      refine ⟨rfl, ?_, by rw [htrailing]; exact hpending, ?_⟩
      · rw [hended, hadded]
        refine List.rel_append hold (List.Forall₂.cons ⟨?_, ?_, ?_⟩ List.Forall₂.nil)
        · rw [hflat]
        · rw [Heap.next_free]
          dsimp only
          omega
        · rw [hflat]
          exact (Heap.bytesAt_congr fun i _ => Heap.load_free _ _ _ _).trans app.bytes
      · rw [htrailing]
        exact iff_of_false (fun h => Bool.false_ne_true (hset.symm.trans h)) (fun h => h rfl)
  | false =>
      obtain ⟨hended, htrailing⟩ := rs.push_of_not_ends (x := buf)
        (fun h => decide_eq_false_iff_not.mp hends.symm (hiff.mp h))
      rw [if_neg Bool.false_ne_true] at hadded hpending
      refine ⟨rfl, ?_, by rw [htrailing, hflat]; exact hpending, ?_⟩
      · rw [hended, hadded, Option.toList_none, List.append_nil]
        exact hold
      · rw [htrailing]
        exact iff_of_true hset (by simp)

theorem write_hangs (f : Framed t rs) (hs : env.Succeeds) (hne : rs.trailing ≠ [])
    (hge : 2 ^ 32 ≤ rs.trailing.flatten.length + buf.length) :
    ClientOp.apply t (.write env buf) = none := by
  have hcount : (writeProlog env t.kernel buf).1.count = buf.length := by
    rw [writeProlog_call hs]
  rw [ClientOp.apply, aesdWrite_of_unlocked env buf f.unlocked,
    writeSection_hangs env hcount (f.pends_locked hs buf) (f.partial_iff.mpr hne) hge]
  rfl

theorem flush (f : Framed t rs) :
    ∃ t', ClientOp.apply t .flush = some t' ∧ t'.rets = t.rets ∧ Framed t' rs.cut := by
  have hheap : ∀ n, let h := rounds (fun index h => if index < t.kernel.dev.buffer.inOffs then
      h.free (t.kernel.dev.buffer.slot index).buffptr else h) n t.kernel.heap
      h.next = t.kernel.heap.next ∧ ∀ p i, h.load p i = t.kernel.heap.load p i := by
    intro n
    induction n with
    | zero => exact ⟨rfl, fun _ _ => rfl⟩
    | succ n ih =>
        dsimp only [rounds] at ih ⊢
        split
        · exact ⟨by rw [Heap.next_free]; exact ih.1,
            fun p i => by rw [Heap.load_free]; exact ih.2 p i⟩
        · exact ih
  refine ⟨_, rfl, rfl, f.unlocked, ?_, ?_, ?_⟩
  · refine f.added.imp fun e run he => ⟨he.1, ?_, ?_⟩
    · exact he.2.1.trans_eq (hheap 10).1.symm
    · exact (Heap.bytesAt_congr fun i _ => (hheap 10).2 _ _).trans he.2.2
  · exact Pends.of_clear rfl
  · exact iff_of_false Bool.false_ne_true fun h => h rfl

end Framed

namespace ClientOp

def FitsAfter (rs : Runs (List UInt8) EndsLine) : ClientOp → Prop
  | write _ buf => rs.trailing = [] ∨ rs.trailing.flatten.length + buf.length < 2 ^ 32
  | flush => True

theorem fits_append_singleton (ops : List ClientOp) (op : ClientOp) :
    Fits (ops ++ [op]) ↔ Fits ops ∧ FitsAfter (runs ops) op := by
  constructor
  · intro h
    refine ⟨fun pre env buf hpre => h pre env buf (hpre.trans (List.prefix_append _ _)), ?_⟩
    cases op with
    | write env buf => exact h ops env buf (List.prefix_refl _)
    | flush => trivial
  · rintro ⟨hall, hlast⟩ pre env buf hpre
    rcases List.prefix_concat_iff.mp hpre with heq | hpre
    · obtain ⟨rfl, hop⟩ := List.append_inj' heq rfl
      rw [List.singleton_inj] at hop
      rw [← hop] at hlast
      exact hlast
    · exact hall pre env buf hpre

/-- A run of valid calls returns when no pending line gets too long, with every write's own
count and the framing of the writes in the device; otherwise some write never returns. -/
theorem run_framed (slots : Vector BufferEntry 10) (unset : Unset) (ops : List ClientOp)
    (hv : ∀ op ∈ ops, op.Valid) :
    (Fits ops → ∃ t, run (initModule slots unset) ops = some t ∧ t.rets = counts ops ∧
      Framed t (runs ops)) ∧
    (¬ Fits ops → run (initModule slots unset) ops = none) := by
  induction ops using List.reverseRecOn with
  | nil =>
      refine ⟨fun _ => ⟨_, rfl, rfl, rfl, .nil, Pends.of_clear rfl, ?_⟩, fun h => ?_⟩
      · exact iff_of_false Bool.false_ne_true fun h => h rfl
      · exact absurd (fun pre env buf hpre => by simp at hpre) h
  | append_singleton ops op ih =>
      obtain ⟨hrun, hhang⟩ := ih fun op' hop' => hv op' (by simp [hop'])
      have hop := hv op (by simp)
      rw [run_append_singleton, fits_append_singleton]
      by_cases hfits : Fits ops
      · obtain ⟨t, ht, hrets, f⟩ := hrun hfits
        simp only [ht, Option.bind_some, hfits, true_and]
        cases op with
        | write env buf =>
            refine ⟨fun hlast => ?_, fun hlast => ?_⟩
            · obtain ⟨t', happly, hrets', f'⟩ := f.write hop hlast
              refine ⟨t', happly, ?_, by rw [runs_write]; exact f'⟩
              rw [hrets', hrets, counts, counts, List.flatMap_append]
              rfl
            · rw [FitsAfter, not_or, not_lt] at hlast
              exact f.write_hangs hop.1 hlast.1 hlast.2
        | flush =>
            refine ⟨fun _ => ?_, fun hlast => absurd trivial hlast⟩
            obtain ⟨t', happly, hrets', f'⟩ := f.flush
            refine ⟨t', happly, ?_, by rw [runs_flush]; exact f'⟩
            rw [hrets', hrets]
            simp [counts]
      · simp [hfits, hhang hfits]

end ClientOp

/-- Newline framing. However writes and flushes follow one another, the calls all return as
long as no pending line reaches 2^32 bytes; every write then returns its count, the entries
added are the closed runs of writes, in order, and `partial_entry` holds the trailing run,
`partial` being clear exactly when that is empty. -/
theorem writes_are_framed (slots : Vector BufferEntry 10) (unset : Unset) (ops : List ClientOp)
    (hv : ∀ op ∈ ops, op.Valid) :
    ((ClientOp.run (initModule slots unset) ops).isSome = true ↔ ClientOp.Fits ops) ∧
    ∀ t, ClientOp.run (initModule slots unset) ops = some t →
      t.rets = ClientOp.counts ops ∧
      t.added.map (fun e => t.kernel.heap.bytesAt e.buffptr 0 e.size) =
        (ClientOp.runs ops).ended.map List.flatten ∧
      (t.kernel.dev.isPartial = false ↔ (ClientOp.runs ops).trailing = []) ∧
      (t.kernel.dev.isPartial = true →
        t.kernel.heap.bytesAt t.kernel.dev.partialEntry.buffptr 0 t.kernel.dev.partialEntry.size =
          (ClientOp.runs ops).trailing.flatten) := by
  obtain ⟨hrun, hhang⟩ := ClientOp.run_framed slots unset ops hv
  by_cases hfits : ClientOp.Fits ops
  · obtain ⟨t, ht, hrets, f⟩ := hrun hfits
    refine ⟨by simp [ht, hfits], fun t' ht' => ?_⟩
    rw [ht, Option.some.injEq] at ht'
    subst ht'
    refine ⟨hrets, ?_, ?_, fun hpart => ?_⟩
    · rw [← List.forall₂_eq_eq_eq, List.forall₂_map_left_iff, List.forall₂_map_right_iff]
      exact f.added.imp fun _ _ he => he.2.2
    · have hiff := not_congr f.partial_iff
      rwa [Bool.not_eq_true, not_not] at hiff
    · rw [f.pends.size hpart]
      exact f.pends.bytes hpart
  · rw [hhang hfits]
    exact ⟨by simp [hfits], fun t ht => by cases ht⟩

theorem writes_are_framed_three :
    (ClientOp.run (initModule CircularBuffer.init.entry .zeroed)
      [.write .zeroed [97], .write .zeroed [98, 10], .write .zeroed [99]]).map (fun t =>
        (t.rets, t.added.map fun e => t.kernel.heap.bytesAt e.buffptr 0 e.size)) =
      some ([1, 2, 1], [[97, 98, 10]]) := by
  have hfits : ClientOp.Fits [.write .zeroed [97], .write .zeroed [98, 10], .write .zeroed [99]] :=
    (ClientOp.fits_append_singleton [_, _] _).mpr
      ⟨(ClientOp.fits_append_singleton [_] _).mpr
        ⟨(ClientOp.fits_append_singleton [] _).mpr ⟨fun _ _ _ h => by simp at h, Or.inl rfl⟩,
          Or.inr (by decide)⟩, Or.inl rfl⟩
  have h := writes_are_framed CircularBuffer.init.entry .zeroed
    [.write .zeroed [97], .write .zeroed [98, 10], .write .zeroed [99]]
    (by simp [ClientOp.Valid, WriteEnv.zeroed_succeeds])
  obtain ⟨t, ht⟩ := Option.isSome_iff_exists.mp (h.1.mpr hfits)
  rw [ht, Option.map_some, (h.2 t ht).1, (h.2 t ht).2.1]
  rfl

end Aesd

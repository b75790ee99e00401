import Aesd.EntryLookup
import Aesd.WriteSteps

/-! The device as a store of lines. The abstract log is the list of the last ten lines;
`Stores` says that the device holds it: a ring whose live entries own, one by one, live
blocks with exactly the lines' bytes. Commits and flushes act on the log and keep
`Stores`, and none of them faults. -/
namespace Aesd
open FixedWidth Memory Concat

def appendLine (lines : List (List UInt8)) (line : List UInt8) : List (List UInt8) :=
  (lines ++ [line]).rtake 10

/-- Ten lines shorter than this have a byte count that an `ssize_t` can hold. -/
def lineBound : Nat := 2 ^ 59

/-- What the slots hold before anything has been added; only bounded sizes matter. -/
def SmallSlots (slots : Vector BufferEntry 10) : Prop := ∀ i : Fin 10, slots[i].size < lineBound

theorem smallSlots_init : SmallSlots CircularBuffer.init.entry := by
  unfold SmallSlots
  decide

inductive LogOp
  /-- an owned block passed to `aesd_circular_buffer_add_entry` -/
  | commit (line : List UInt8)
  /-- one complete line through `aesd_write` -/
  | write (env : WriteEnv) (line : List UInt8)
  | flush

namespace LogOp

def log (ops : List LogOp) : List (List UInt8) :=
  ops.foldl (fun lines op => match op with
    | commit line => appendLine lines line
    | write _ line => appendLine lines line
    | flush => []) []

/-- Lines are not empty; a line through `aesd_write` ends in a newline and meets no failing
kernel call. -/
def Valid : LogOp → Prop
  | commit line => line ≠ [] ∧ line.length < lineBound
  | write env line => env.Succeeds ∧ line.getLast? = some newline ∧ line.length < lineBound
  | flush => True

def apply (k : Kernel) : LogOp → Kernel
  | commit line =>
      let a := k.heap.alloc line.length fun i => line.getD i.toNat 0
      { dev := { k.dev with buffer := k.dev.buffer.addEntry ⟨a.1, line.length⟩ }, heap := a.2 }
  | write env line => ((aesdWrite env k line).map WriteResult.kernel).getD k
  | flush => (aesdFlush k).1

def run (k : Kernel) (ops : List LogOp) : Kernel := ops.foldl apply k

@[simp] theorem run_append_singleton (k : Kernel) (ops : List LogOp) (op : LogOp) :
    run k (ops ++ [op]) = apply (run k ops) op := by
  simp [run]

@[simp] theorem log_commit (ops : List LogOp) (line : List UInt8) :
    log (ops ++ [commit line]) = appendLine (log ops) line := by
  simp [log]

@[simp] theorem log_write (ops : List LogOp) (env : WriteEnv) (line : List UInt8) :
    log (ops ++ [write env line]) = appendLine (log ops) line := by
  simp [log]

@[simp] theorem log_flush (ops : List LogOp) : log (ops ++ [flush]) = [] := by
  simp [log]

end LogOp

structure Stores (k : Kernel) (r : RingBuffer BufferEntry 10)
    (lines : List (List UInt8)) : Prop where
  mirrors : Mirrors k.dev.buffer r
  unlocked : k.dev.mutex = false
  faultless : k.heap.fault = false
  owned : List.Forall₂ (Owns k.heap) r.live lines
  distinct : (r.live.map BufferEntry.buffptr).Nodup
  nonempty : ∀ l ∈ lines, l ≠ []
  small : ∀ l ∈ lines, l.length < lineBound

theorem Owns.of_extends {h h' : Heap} {e : BufferEntry} {l : List UInt8} (o : Owns h e l)
    (ext : h.Extends h') : Owns h' e l :=
  o.of_block_eq (ext.same _ o.holds.lt_next)

namespace Stores
variable {k : Kernel} {r : RingBuffer BufferEntry 10} {lines : List (List UInt8)}

theorem length_eq (s : Stores k r lines) : lines.length = r.count := by
  rw [← s.owned.length_eq, RingBuffer.length_live]

theorem sizes_eq (s : Stores k r lines) : sizes r = lines.map List.length := by
  have h := s.owned
  unfold sizes
  clear s
  generalize r.live = es at h
  induction h with
  | nil => rfl
  | cons hel _ ih => rw [List.map_cons, List.map_cons, hel.size, ih]

theorem sum_lt (s : Stores k r lines) : (lines.map List.length).sum < 2 ^ 63 := by
  have hall : ∀ n ∈ lines.map List.length, n ≤ lineBound - 1 := by
    intro n hn
    obtain ⟨l, hl, rfl⟩ := List.mem_map.mp hn
    exact Nat.le_sub_one_of_lt (s.small l hl)
  have hsum := List.sum_le_card_nsmul _ _ hall
  have hten : lines.length * (lineBound - 1) ≤ 10 * (lineBound - 1) :=
    Nat.mul_le_mul_right _ (by rw [s.length_eq]; exact r.count_le)
  rw [List.length_map, Nat.nsmul_eq_mul] at hsum
  unfold lineBound at hsum hten
  omega

theorem totalSize (s : Stores k r lines) :
    k.dev.buffer.totalSize = (lines.map List.length).sum := by
  have hle := s.sum_lt
  rw [s.mirrors.totalSize, ← s.sizes_eq]
  rw [← s.sizes_eq] at hle
  exact toSsize_of_lt (by unfold sizes at hle; omega)

theorem length_le_totalChars (s : Stores k r lines) (hslots : SmallSlots k.dev.buffer.entry) :
    (lines.map List.length).sum ≤ k.dev.buffer.totalChars := by
  rw [s.mirrors.entry] at hslots
  have hsum := sum_slots_le r fun i => Nat.le_sub_one_of_lt (hslots i)
  rw [s.mirrors.totalChars_eq_sum (by unfold lineBound at hsum; omega), ← s.sizes_eq]
  exact r.sum_live_le BufferEntry.size

theorem push (s : Stores k r lines) {k' : Kernel} {e : BufferEntry} {line : List UInt8}
    (hbuf : k'.dev.buffer = k.dev.buffer.addEntry e) (hlock : k'.dev.mutex = false)
    (ext : k.heap.Extends k'.heap) (hfault : k'.heap.fault = false) (own : Owns k'.heap e line)
    (hnew : k.heap.next ≤ e.buffptr) (hne : line ≠ []) (hle : line.length < lineBound) :
    Stores k' (r.push e) (appendLine lines line) where
  mirrors := by
    rw [hbuf]
    exact s.mirrors.addEntry e
  unlocked := hlock
  faultless := hfault
  owned := by
    have hold : List.Forall₂ (Owns k'.heap) r.live lines :=
      s.owned.imp fun _ _ o => o.of_extends ext
    exact RingBuffer.forall₂_live_push hold own
  distinct := by
    rw [r.live_push, List.rtake, List.map_drop, List.map_append]
    apply List.Nodup.sublist (List.drop_sublist _ _)
    rw [List.map_singleton, List.nodup_append]
    refine ⟨s.distinct, List.nodup_singleton _, ?_⟩
    intro p hp q hq
    obtain ⟨e', he', rfl⟩ := List.mem_map.mp hp
    rw [List.mem_singleton.mp hq]
    have hlt : e'.buffptr < k.heap.next := by
      obtain ⟨i, hi, rfl⟩ := List.getElem_of_mem he'
      have o := s.owned.get hi (by rw [← s.owned.length_eq]; exact hi)
      exact o.holds.lt_next
    omega
  nonempty l hl := by
    rcases List.mem_append.mp (List.mem_of_mem_drop hl) with h | h
    · exact s.nonempty l h
    · rw [List.mem_singleton.mp h]
      exact hne
  small l hl := by
    rcases List.mem_append.mp (List.mem_of_mem_drop hl) with h | h
    · exact s.small l h
    · rw [List.mem_singleton.mp h]
      exact hle

theorem commit (s : Stores k r lines) {line : List UInt8} (hne : line ≠ [])
    (hle : line.length < lineBound) :
    Stores (LogOp.apply k (.commit line)) (r.push ⟨k.heap.next, line.length⟩)
      (appendLine lines line) := by
  have ext := (Heap.Extends.refl k.heap).alloc line.length fun i => line.getD i.toNat 0
  refine s.push rfl s.unlocked ext s.faultless ⟨?_, rfl⟩ (Nat.le_refl _) hne hle
  have hbytes : (k.heap.alloc line.length fun i => line.getD i.toNat 0).2.bytesAt
      k.heap.next 0 line.length = line := by
    apply List.ext_getElem
    · simp
    · intro i h₁ h₂
      simp [Heap.bytesAt, Heap.load, h₂]
  have hold := Heap.Holds.alloc k.heap (fun i => line.getD i.toNat 0) line.length
  rw [hbytes] at hold
  exact hold

theorem write (s : Stores k r lines)
    (hcomplete : k.dev.isPartial = false) {env : WriteEnv} {line : List UInt8}
    (hv : LogOp.Valid (.write env line)) :
    ∃ res, aesdWrite env k line = some res ∧ res.ret = line.length ∧
      res.added = some ⟨k.heap.next + 1, line.length⟩ ∧ res.kernel.dev.isPartial = false ∧
      res.kernel.dev.seek = k.dev.seek ∧
      res.kernel.dev.buffer = k.dev.buffer.addEntry ⟨k.heap.next + 1, line.length⟩ ∧
      Stores res.kernel (r.push ⟨k.heap.next + 1, line.length⟩) (appendLine lines line) := by
  obtain ⟨hs, hlast, hle⟩ := hv
  have hne : line ≠ [] := by
    rintro rfl
    cases hlast
  obtain ⟨res, hcall, hret, hfault, ext, holds, ⟨-, hadded, hdev⟩ | ⟨hnot, -, -⟩⟩ :=
    aesdWrite_single hs s.unlocked hcomplete hne (hle.trans (by decide))
  · have hbuffer : res.kernel.dev.buffer =
        k.dev.buffer.addEntry ⟨k.heap.next + 1, line.length⟩ := by rw [hdev]
    exact ⟨res, hcall, hret, hadded, by rw [hdev], by rw [hdev], hbuffer,
      s.push hbuffer (by rw [hdev]) ext (hfault.trans s.faultless) ⟨holds, rfl⟩ (Nat.le_succ _)
        hne hle⟩
  · exact absurd hlast hnot

theorem exists_place {r : RingBuffer BufferEntry 10} {i : Nat} (hi : i < r.count) :
    ∃ j < r.count, (r.place j).val = i := by
  have hout := r.outOffs_lt
  cases hf : r.full
  · refine ⟨i, hi, ?_⟩
    have hin := r.inOffs_lt
    rw [count_of_not_full hf] at hi
    rw [place_val, r.outOffs_zero hf]
    omega
  · rw [count_of_full hf] at hi
    refine ⟨(i + 10 - r.outOffs) % 10, by rw [count_of_full hf]; omega, ?_⟩
    rw [place_val]
    omega

theorem inOffs_le_count (r : RingBuffer BufferEntry 10) : r.inOffs ≤ r.count := by
  have hin := r.inOffs_lt
  unfold RingBuffer.count
  split <;> omega

theorem slot_owned (s : Stores k r lines) {i : Nat} (hi : i < r.count) :
    ∃ l ∈ lines, Owns k.heap (k.dev.buffer.slot i) l := by
  obtain ⟨j, hj, rfl⟩ := exists_place hi
  have hlen : j < r.live.length := by simpa using hj
  have hline : j < lines.length := by rw [← s.owned.length_eq]; exact hlen
  have o := s.owned.get hlen hline
  simp only [List.get_eq_getElem, RingBuffer.getElem_live, ← s.mirrors.slot] at o
  exact ⟨_, List.getElem_mem hline, o⟩

theorem slot_live (s : Stores k r lines) {i : Nat} (hi : i < r.inOffs) :
    (k.heap.block (k.dev.buffer.slot i).buffptr).live = true := by
  obtain ⟨l, -, o⟩ := s.slot_owned (hi.trans_le (inOffs_le_count r))
  exact o.holds.live

theorem slot_lt (s : Stores k r lines) {i : Nat} (hi : i < r.count) :
    (k.dev.buffer.slot i).size < lineBound := by
  obtain ⟨l, hl, o⟩ := s.slot_owned hi
  rw [o.size]
  exact s.small l hl

theorem slot_ne (s : Stores k r lines) {i i' : Nat} (hi : i < r.inOffs) (hi' : i' < r.inOffs)
    (hne : i ≠ i') :
    (k.dev.buffer.slot i).buffptr ≠ (k.dev.buffer.slot i').buffptr := by
  obtain ⟨j, hj, rfl⟩ := exists_place (hi.trans_le (inOffs_le_count r))
  obtain ⟨j', hj', rfl⟩ := exists_place (hi'.trans_le (inOffs_le_count r))
  intro heq
  have hlen : j < (r.live.map BufferEntry.buffptr).length := by simpa using hj
  have hlen' : j' < (r.live.map BufferEntry.buffptr).length := by simpa using hj'
  have hget : (r.live.map BufferEntry.buffptr)[j] = (r.live.map BufferEntry.buffptr)[j'] := by
    simp only [List.getElem_map, RingBuffer.getElem_live, ← s.mirrors.slot, heq]
  exact hne (by rw [(s.distinct.getElem_inj_iff).mp hget])

theorem flush_rounds (s : Stores k r lines) (n : Nat) (hn : n ≤ 10) :
    let f := rounds (fun index h => if index < k.dev.buffer.inOffs then
      h.free (k.dev.buffer.slot index).buffptr else h) n k.heap
    f.fault = false ∧ ∀ i < r.inOffs, n ≤ i →
      (f.block (k.dev.buffer.slot i).buffptr).live = true := by
  induction n with
  | zero => exact ⟨s.faultless, fun i hi _ => s.slot_live hi⟩
  | succ n ih =>
      obtain ⟨hfault, hlive⟩ := ih (by omega)
      rw [s.mirrors.inOffs] at hfault hlive ⊢
      dsimp only [rounds]
      split
      · rename_i hlt
        refine ⟨?_, fun i hi hni => ?_⟩
        · rw [Heap.fault_free, hfault, hlive n hlt (Nat.le_refl _)]
          simp
        · have hne := s.slot_ne hi hlt (by omega)
          rw [Heap.live_free, hlive i hi (by omega)]
          simp [hne]
      · rename_i hge
        exact ⟨hfault, fun i hi hni => absurd hi (by omega)⟩

theorem flush (s : Stores k r lines) : Stores (aesdFlush k).1 r.reset [] where
  mirrors := s.mirrors.reset
  unlocked := s.unlocked
  faultless := (s.flush_rounds 10 (Nat.le_refl _)).1
  owned := by
    rw [RingBuffer.live_reset]
    exact .nil
  distinct := by simp
  nonempty := by simp
  small := by simp

end Stores

theorem SmallSlots.addEntry {b : CircularBuffer} (h : SmallSlots b.entry) {e : BufferEntry}
    (he : e.size < lineBound) : SmallSlots (b.addEntry e).entry := by
  have hentry : (b.addEntry e).entry = b.entry.setIfInBounds b.inOffs e := by
    unfold CircularBuffer.addEntry
    split <;> rfl
  intro i
  have hi := h i
  simp only [hentry, Fin.getElem_fin, Vector.getElem_setIfInBounds] at hi ⊢
  split
  · exact he
  · exact hi

/-- Every run of commits, complete writes and flushes from an empty device leaves a device
that holds the log, with no line pending and no seek pending. Slots that are small stay so. -/
theorem LogOp.run_stores (slots : Vector BufferEntry 10) (unset : Unset) (ops : List LogOp)
    (hv : ∀ op ∈ ops, LogOp.Valid op) :
    ∃ r, Stores (LogOp.run (initModule slots unset) ops) r (LogOp.log ops) ∧
      (LogOp.run (initModule slots unset) ops).dev.isPartial = false ∧
      (LogOp.run (initModule slots unset) ops).dev.seek = false ∧
      (SmallSlots slots →
        SmallSlots (LogOp.run (initModule slots unset) ops).dev.buffer.entry) := by
  induction ops using List.reverseRecOn with
  | nil =>
      refine ⟨emptyRing slots, ⟨.fresh slots, rfl, rfl, ?_, ?_, ?_, ?_⟩, rfl, rfl, id⟩
      · rw [live_emptyRing]
        exact .nil
      · simp
      · simp [log]
      · simp [log]
  | append_singleton ops op ih =>
      obtain ⟨r, s, hcomplete, hseek, hslots⟩ := ih fun op' hop' => hv op' (by simp [hop'])
      have hop := hv op (by simp)
      rw [run_append_singleton]
      cases op with
      | commit line =>
          rw [log_commit]
          exact ⟨_, s.commit hop.1 hop.2, hcomplete, hseek, fun h => (hslots h).addEntry hop.2⟩
      | write env line =>
          obtain ⟨res, hres, -, -, hpart, hsk, hbuf, s'⟩ := s.write hcomplete hop
          have happly : apply (run (initModule slots unset) ops) (write env line) =
              res.kernel := by simp [apply, hres]
          rw [log_write, happly]
          refine ⟨_, s', hpart, hsk.trans hseek, fun h => ?_⟩
          rw [hbuf]
          exact (hslots h).addEntry hop.2.2
      | flush =>
          rw [log_flush]
          exact ⟨_, s.flush, rfl, rfl, hslots⟩

end Aesd

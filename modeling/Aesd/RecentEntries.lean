import Aesd.BufferRefinement
import Aesd.CharDevice

/-! The buffer keeps the last ten entries: runs of `aesd_circular_buffer_add_entry` and
`aesd_flush` from a zeroed buffer, of any length and with entries of any size. -/
namespace Aesd
open FixedWidth

inductive BufferOp
  | addEntry (e : BufferEntry)
  | flush

namespace BufferOp

def apply (k : Kernel) : BufferOp → Kernel
  | addEntry e => { k with dev := { k.dev with buffer := k.dev.buffer.addEntry e } }
  | flush => (aesdFlush k).1

def run (k : Kernel) (ops : List BufferOp) : Kernel := ops.foldl apply k

def sinceReset (ops : List BufferOp) : List BufferEntry :=
  ops.foldl (fun es op => match op with
    | addEntry e => es ++ [e]
    | flush => []) []

@[simp] theorem run_append_singleton (k : Kernel) (ops : List BufferOp) (op : BufferOp) :
    run k (ops ++ [op]) = apply (run k ops) op := by
  simp [run]

@[simp] theorem sinceReset_addEntry (ops : List BufferOp) (e : BufferEntry) :
    sinceReset (ops ++ [addEntry e]) = sinceReset ops ++ [e] := by
  simp [sinceReset]

@[simp] theorem sinceReset_flush (ops : List BufferOp) : sinceReset (ops ++ [flush]) = [] := by
  simp [sinceReset]

/-- After any run the buffer is a ring whose live entries are the last ten added. -/
theorem run_mirrors (slots : Vector BufferEntry 10) (unset : Unset) (ops : List BufferOp) :
    ∃ r : RingBuffer BufferEntry 10, Mirrors (run (initModule slots unset) ops).dev.buffer r ∧
      r.live = (sinceReset ops).rtake 10 := by
  induction ops using List.reverseRecOn with
  | nil => exact ⟨_, Mirrors.fresh slots, by simp [sinceReset]⟩
  | append_singleton ops op ih =>
      obtain ⟨r, hm, hl⟩ := ih
      rw [run_append_singleton]
      cases op with
      | addEntry e =>
          refine ⟨r.push e, hm.addEntry e, ?_⟩
          rw [r.live_push, hl, sinceReset_addEntry, RingBuffer.rtake_append_rtake]
      | flush => exact ⟨r.reset, hm.reset, by simp⟩

end BufferOp

/-- The buffer refines "keep the last ten entries since the last reset". -/
theorem buffer_keeps_last_ten (ops : List BufferOp) (unset : Unset)
    (hsum : (((BufferOp.sinceReset ops).rtake 10).map BufferEntry.size).sum < 2 ^ 63) :
    let b := (BufferOp.run (initModule CircularBuffer.init.entry unset) ops).dev.buffer
    let es := BufferOp.sinceReset ops
    b.live = es.rtake 10 ∧
      b.totalSize = ((es.rtake 10).map BufferEntry.size).sum ∧
      b.inOffs < 10 ∧ b.outOffs < 10 ∧
      (b.full = true ↔ 10 ≤ es.length) ∧
      (b.full = true → b.inOffs = b.outOffs) ∧
      (b.full = false → b.outOffs = 0) := by
  obtain ⟨r, hm, hl⟩ := BufferOp.run_mirrors CircularBuffer.init.entry unset ops
  have hlen : r.live.length = 10 ↔ 10 ≤ (BufferOp.sinceReset ops).length := by
    rw [hl, List.rtake, List.length_drop]
    omega
  refine ⟨hm.live.trans hl, ?_, ?_, ?_, ?_, ?_, ?_⟩
  · rw [hm.totalSize, hl, toSsize_of_lt hsum]
  · rw [hm.inOffs]
    exact r.inOffs_lt
  · rw [hm.outOffs]
    exact r.outOffs_lt
  · rw [hm.full, r.full_iff, hlen]
  · rw [hm.full, hm.inOffs, hm.outOffs]
    exact r.offs_eq
  · rw [hm.full, hm.outOffs]
    exact r.outOffs_zero

theorem buffer_keeps_last_ten_twelve :
    ((BufferOp.run (initModule CircularBuffer.init.entry .zeroed)
      ((List.range 12).map fun i => .addEntry ⟨i + 1, i⟩)).dev.buffer).totalSize = 65 := by
  have h := (buffer_keeps_last_ten ((List.range 12).map fun i => .addEntry ⟨i + 1, i⟩) .zeroed
    (by decide)).2.1
  exact h.trans (by decide)

end Aesd

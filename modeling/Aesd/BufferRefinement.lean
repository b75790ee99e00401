import Aesd.CircularBuffer
import Aesd.Lib.RingBuffer

/-! The array code against a ring that keeps the last ten elements. `Mirrors` ties
the C structure to a ring that is well formed by construction, together with the
running byte count; every operation of the driver on the structure is matched by
one operation of the ring. -/
namespace Aesd
open FixedWidth

/-- The slots, indices and flag are those of the ring, and the byte count is the
sum over its live entries. -/
structure Mirrors (b : CircularBuffer) (r : RingBuffer BufferEntry 10) : Prop where
  entry : b.entry = r.slots
  inOffs : b.inOffs = r.inOffs
  outOffs : b.outOffs = r.outOffs
  full : b.full = r.full
  totalSize : b.totalSize = toSsize ((r.live.map BufferEntry.size).sum : Nat)

def emptyRing (slots : Vector BufferEntry 10) : RingBuffer BufferEntry 10 :=
  .empty slots (Nat.succ_pos 9)

@[simp] theorem live_emptyRing (slots : Vector BufferEntry 10) : (emptyRing slots).live = [] :=
  RingBuffer.live_empty _ _

namespace Mirrors
variable {b : CircularBuffer} {r : RingBuffer BufferEntry 10}

theorem fresh (slots : Vector BufferEntry 10) :
    Mirrors { CircularBuffer.init with entry := slots } (emptyRing slots) :=
  ⟨rfl, rfl, rfl, rfl, by simp [CircularBuffer.init, toSsize]⟩

theorem slot (h : Mirrors b r) (i : Fin 10) : b.slot i = r.slot i := by
  rw [CircularBuffer.slot_of_lt _ i.isLt, RingBuffer.slot, Fin.getElem_fin]
  simp only [h.entry]

theorem live (h : Mirrors b r) : b.live = r.live := by
  have hcount : (if b.full then maxWriteOperationsSupported else b.inOffs) = r.count := by
    rw [h.full, h.inOffs]
    rfl
  rw [CircularBuffer.live, hcount]
  apply List.ext_getElem
  · simp
  · intro i h₁ h₂
    have hs := h.slot (r.place i)
    simp only [RingBuffer.place] at hs
    simp only [List.getElem_map, List.getElem_range, RingBuffer.getElem_live, RingBuffer.place,
      h.outOffs, hs]

theorem reset (h : Mirrors b r) :
    Mirrors { b with full := false, inOffs := 0, outOffs := 0, totalSize := 0 } r.reset :=
  ⟨h.entry, rfl, rfl, rfl, by simp [toSsize]⟩

theorem advance_eq_next (i : Nat) : CircularBuffer.advance i = RingBuffer.next 10 i := rfl

theorem slots_push (h : Mirrors b r) (e : BufferEntry) :
    b.entry.setIfInBounds b.inOffs e = (r.push e).slots := by
  have hin := r.inOffs_lt
  simp only [RingBuffer.push, h.entry, h.inOffs]
  apply Vector.ext
  intro i hi
  rw [Vector.getElem_setIfInBounds, Vector.getElem_set]

theorem addEntry (h : Mirrors b r) (e : BufferEntry) : Mirrors (b.addEntry e) (r.push e) := by
  cases hf : r.full
  · have hb : b.full = false := h.full.trans hf
    have hlive := r.live_push_of_not_full e hf
    refine ⟨?_, ?_, ?_, ?_, ?_⟩
    · simpa [CircularBuffer.addEntry, hb] using h.slots_push e
    · simp [CircularBuffer.addEntry, hb, h.inOffs, RingBuffer.push, advance_eq_next]
    · simp [CircularBuffer.addEntry, hb, h.outOffs, RingBuffer.push, hf]
    · simp only [CircularBuffer.addEntry, hb, h.inOffs, RingBuffer.push, hf, Bool.false_or,
        Bool.false_eq_true, if_false]
      split <;> simp_all
    · have htotal : (b.addEntry e).totalSize = toSsize (b.totalSize + e.size) := by
        simp [CircularBuffer.addEntry, hb]
      rw [htotal, h.totalSize, toSsize_toSsize_add, hlive]
      simp
  · have hb : b.full = true := h.full.trans hf
    have hcons := r.live_cons_of_full hf
    have hslot := h.slot ⟨r.inOffs, r.inOffs_lt⟩
    refine ⟨?_, ?_, ?_, ?_, ?_⟩
    · simpa [CircularBuffer.addEntry, hb] using h.slots_push e
    · simp [CircularBuffer.addEntry, hb, h.inOffs, RingBuffer.push, advance_eq_next]
    · simp [CircularBuffer.addEntry, hb, h.outOffs, RingBuffer.push, advance_eq_next, hf]
    · simp [CircularBuffer.addEntry, hb, RingBuffer.push, hf]
    · have htotal : (b.addEntry e).totalSize =
          toSsize (toSsize (b.totalSize - (b.slot b.inOffs).size) + e.size) := by
        simp [CircularBuffer.addEntry, hb]
      rw [htotal, h.totalSize, toSsize_toSsize_sub, toSsize_toSsize_add, h.inOffs, hslot,
        r.live_push_of_full e hf, hcons]
      congr 1
      simp only [List.map_cons, List.sum_cons, List.tail_cons, List.map_append, List.map_nil,
        List.sum_append, List.sum_nil]
      push_cast
      omega

end Mirrors
end Aesd

import Aesd.Lib.FixedWidth
import Mathlib.Data.Vector.Basic

/-! `aesd-circular-buffer.c`: the array of the ten most recent writes with its two
indices, the flag, the byte count, and the position lookup. A `buffptr` is the
number of a heap block, 0 for NULL. `PDEBUG` tracing is left out throughout. -/
namespace Aesd
open FixedWidth

/-- `AESDCHAR_MAX_WRITE_OPERATIONS_SUPPORTED` -/
abbrev maxWriteOperationsSupported : Nat := 10

/-- `struct aesd_buffer_entry` -/
structure BufferEntry where
  buffptr : Nat
  size : Nat
  deriving DecidableEq

/-- `struct aesd_circular_buffer`; `totalSize` is an `ssize_t`. -/
structure CircularBuffer where
  entry : Vector BufferEntry maxWriteOperationsSupported
  inOffs : Nat
  outOffs : Nat
  full : Bool
  totalSize : Int
  deriving DecidableEq

/-- What the lookup of a position returns: `NULL`, or a slot together with the byte
stored in `*entry_offset_byte_rtn` (`none` when that is left untouched). `running`
stands for a search loop that has not ended after ten tests. -/
inductive Lookup
  | null
  | entry (index : Nat) (byte : Option Nat)
  | running
  deriving DecidableEq

namespace CircularBuffer

/-- `aesd_circular_buffer_init` -/
def init : CircularBuffer where
  entry := Vector.replicate maxWriteOperationsSupported ⟨0, 0⟩
  inOffs := 0
  outOffs := 0
  full := false
  totalSize := 0

def slot (b : CircularBuffer) (i : Nat) : BufferEntry := b.entry[i]?.getD ⟨0, 0⟩

def advance (i : Nat) : Nat := if i + 1 = maxWriteOperationsSupported then 0 else i + 1

/-- `aesd_circular_buffer_add_entry` -/
def addEntry (b : CircularBuffer) (e : BufferEntry) : CircularBuffer :=
  if b.full then
    { entry := b.entry.setIfInBounds b.inOffs e
      inOffs := advance b.inOffs
      outOffs := advance b.outOffs
      full := b.full
      totalSize := toSsize (toSsize (b.totalSize - (b.slot b.inOffs).size) + e.size) }
  else
    { entry := b.entry.setIfInBounds b.inOffs e
      inOffs := advance b.inOffs
      outOffs := b.outOffs
      full := if b.inOffs + 1 = maxWriteOperationsSupported then true else b.full
      totalSize := toSsize (b.totalSize + e.size) }

/-- `total_chars`, summed over all ten slots in array order. -/
def totalChars (b : CircularBuffer) : Nat :=
  b.entry.toList.foldl (fun total e => toSize (total + e.size : Nat)) 0

/-- The `while` loop of the lookup, for at most `fuel` tests. -/
def findLoop (b : CircularBuffer) : (fuel index offsetRemaining : Nat) → Option (Nat × Nat)
  | 0, _, _ => none
  | fuel + 1, index, offsetRemaining =>
      if offsetRemaining ≥ (b.slot index).size then
        b.findLoop fuel (advance index) (offsetRemaining - (b.slot index).size)
      else some (index, offsetRemaining)

/-- `aesd_circular_buffer_find_entry_offset_for_fpos` -/
def findEntryOffsetForFpos (b : CircularBuffer) (charOffset : Nat) : Lookup :=
  if charOffset = 0 then .entry b.outOffs none
  else if b.totalChars ≤ charOffset then .null
  else
    match b.findLoop maxWriteOperationsSupported b.outOffs charOffset with
    | none => .running
    | some (index, offsetRemaining) =>
        .entry index (some (if offsetRemaining = (b.slot index).size then 0 else offsetRemaining))

/-- The live entries, read circularly from `out_offs`: `in_offs` of them, or all ten
once the buffer is full. -/
def live (b : CircularBuffer) : List BufferEntry :=
  (List.range (if b.full then maxWriteOperationsSupported else b.inOffs)).map fun i =>
    b.slot ((b.outOffs + i) % maxWriteOperationsSupported)

def slotRange (b : CircularBuffer) : (n i : Nat) → List BufferEntry
  | 0, _ => []
  | n + 1, i => b.slot i :: b.slotRange n (i + 1)

@[simp] theorem length_slotRange (b : CircularBuffer) (n i : Nat) :
    (b.slotRange n i).length = n := by
  induction n generalizing i with
  | zero => rfl
  | succ n ih => rw [slotRange, List.length_cons, ih]

theorem getElem_slotRange (b : CircularBuffer) (n i m : Nat) (h : m < (b.slotRange n i).length) :
    (b.slotRange n i)[m] = b.slot (i + m) := by
  induction n generalizing i m with
  | zero => simp [slotRange] at h
  | succ n ih =>
      cases m with
      | zero => simp [slotRange]
      | succ m =>
          have hm : m < (b.slotRange n (i + 1)).length := by simpa [slotRange] using h
          simp only [slotRange, List.getElem_cons_succ, ih (i + 1) m hm]
          congr 1
          omega

theorem slot_of_lt (b : CircularBuffer) {i : Nat} (h : i < 10) : b.slot i = b.entry[i] := by
  simp [slot, h]

theorem slot_setIfInBounds (b : CircularBuffer) (e : BufferEntry) {i : Nat} (hi : i < 10)
    (j : Nat) {c : CircularBuffer} (hc : c.entry = b.entry.setIfInBounds i e) :
    c.slot j = if j = i then e else b.slot j := by
  unfold slot
  rw [hc]
  by_cases hji : j = i
  · subst hji
    simp [hi]
  · simp [hji, Ne.symm hji]

@[simp] theorem slot_init (i : Nat) : init.slot i = ⟨0, 0⟩ := by
  unfold slot init
  by_cases hi : i < 10
  · simp [hi]
  · simp [hi]

theorem slot_addEntry (b : CircularBuffer) (e : BufferEntry) (hin : b.inOffs < 10) (i : Nat) :
    (b.addEntry e).slot i = if i = b.inOffs then e else b.slot i := by
  apply b.slot_setIfInBounds e hin
  unfold addEntry
  split <;> rfl

def Used (b : CircularBuffer) (i : Nat) : Prop :=
  i < maxWriteOperationsSupported ∧ (b.full = true ∨ i < b.inOffs)

instance (b : CircularBuffer) (i : Nat) : Decidable (b.Used i) :=
  inferInstanceAs (Decidable (_ ∧ _))

theorem used_addEntry {b : CircularBuffer} (e : BufferEntry) (hin : b.inOffs < 10) (i : Nat) :
    (b.addEntry e).Used i ↔ i = b.inOffs ∨ b.Used i := by
  unfold Used addEntry advance maxWriteOperationsSupported
  cases hfull : b.full
  · by_cases hlast : b.inOffs + 1 = 10
    · simp [hlast]
      omega
    · simp [hlast]
      omega
  · simp
    omega

theorem used_of_addEntry {b : CircularBuffer} {e : BufferEntry} {i : Nat} (hin : b.inOffs < 10)
    (hi : i < 10) (hused : (b.addEntry e).full = true ∨ i < (b.addEntry e).inOffs) :
    i = b.inOffs ∨ b.full = true ∨ i < b.inOffs :=
  ((used_addEntry e hin i).mp ⟨hi, hused⟩).imp_right And.right

theorem advance_lt {i : Nat} (h : i < 10) : advance i < 10 := by
  unfold advance maxWriteOperationsSupported
  split <;> omega

theorem totalChars_eq (b : CircularBuffer) :
    b.totalChars = toSize ((b.entry.toList.map BufferEntry.size).sum : Nat) := by
  have hfold : ∀ (l : List BufferEntry) (t : Nat),
      l.foldl (fun total e => toSize (total + e.size : Nat)) (toSize t) =
        toSize (t + (l.map BufferEntry.size).sum : Nat) := by
    intro l
    induction l with
    | nil => simp
    | cons e l ih =>
        intro t
        have hstep : toSize ((toSize t + e.size : Nat) : Int) =
            toSize ((t + e.size : Nat) : Int) := by
          unfold toSize
          omega
        rw [List.foldl_cons, hstep, ih, List.map_cons, List.sum_cons, Nat.add_assoc]
  simpa [totalChars, toSize] using hfold b.entry.toList 0

end CircularBuffer
end Aesd

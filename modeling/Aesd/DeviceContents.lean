import Aesd.ControlSteps
import Aesd.ReadDisclosure

/-! The device as its calls leave it, without the heap: the line in each slot in use, the indices
and counters, the pending line and the pending seek. A slot that is not in use has a size and no
line. A call that returns acts on these alone, wherever its blocks lie. -/
namespace Aesd
open FixedWidth Memory

def BufferEntry.text (h : Heap) (e : BufferEntry) : List UInt8 := h.bytesAt e.buffptr 0 e.size

def blank (text : List UInt8) : List UInt8 := List.replicate text.length 0

/-- What writes and flushes act on. `line i` is the line in slot `i`, blank if that is not in use;
`behind` is what lies behind the array in the place of sizes. -/
structure Lines where
  line : Nat → List UInt8
  behind : Nat → Nat
  inOffs : Nat
  outOffs : Nat
  full : Bool
  totalSize : Int
  pending : Option (List UInt8)

structure Contents where
  lines : Lines
  position : Int
  seek : Bool

def Kernel.contents (k : Kernel) : Contents where
  lines :=
    { line := fun i =>
        if k.dev.buffer.Used i then (k.dev.buffer.slot i).text k.heap
        else List.replicate (k.dev.buffer.slot i).size 0
      behind := k.dev.behind
      inOffs := k.dev.buffer.inOffs
      outOffs := k.dev.buffer.outOffs
      full := k.dev.buffer.full
      totalSize := k.dev.buffer.totalSize
      pending := if k.dev.isPartial then some (k.dev.partialEntry.text k.heap) else none }
  position := k.dev.seektoPosition
  seek := k.dev.seek

namespace Lines

def add (l : Lines) (text : List UInt8) : Lines :=
  if l.full then
    { l with
      line := Function.update l.line l.inOffs text
      inOffs := CircularBuffer.advance l.inOffs
      outOffs := CircularBuffer.advance l.outOffs
      totalSize := toSsize (toSsize (l.totalSize - (l.line l.inOffs).length) + text.length)
      pending := none }
  else
    { l with
      line := Function.update l.line l.inOffs text
      inOffs := CircularBuffer.advance l.inOffs
      full := if l.inOffs + 1 = maxWriteOperationsSupported then true else l.full
      totalSize := toSsize (l.totalSize + text.length)
      pending := none }

def write (l : Lines) (buf : List UInt8) : Lines :=
  if EndsLine buf then l.add (l.pending.getD [] ++ buf)
  else { l with pending := some (l.pending.getD [] ++ buf) }

def flush (l : Lines) : Lines :=
  { l with
    line := fun i => blank (l.line i)
    inOffs := 0
    outOffs := 0
    full := false
    totalSize := 0
    pending := none }

def Used (l : Lines) (i : Nat) : Prop :=
  i < maxWriteOperationsSupported ∧ (l.full = true ∨ i < l.inOffs)

instance (l : Lines) (i : Nat) : Decidable (l.Used i) := inferInstanceAs (Decidable (_ ∧ _))

def kept (l : Lines) : Lines :=
  { l with line := fun i => if l.Used i then l.line i else blank (l.line i) }

def sizeAt (l : Lines) (i : Nat) : Nat :=
  if i < maxWriteOperationsSupported then (l.line i).length
  else if i = maxWriteOperationsSupported then toSize l.totalSize
  else l.behind i

def target (l : Lines) (seekto : AesdSeekto) : Int :=
  toSsize (rounds (fun i pos => toSsize (pos + l.sizeAt i)) seekto.writeCmd (0 : Int) +
    seekto.writeCmdOffset)

theorem line_add (l : Lines) (text : List UInt8) (i : Nat) :
    (l.add text).line i = if i = l.inOffs then text else l.line i := by
  have hline : (l.add text).line = Function.update l.line l.inOffs text := by
    rw [add]
    split <;> rfl
  rw [hline, Function.update_apply]

theorem pending_add (l : Lines) (text : List UInt8) : (l.add text).pending = none := by
  rw [add]
  split <;> rfl

theorem behind_add (l : Lines) (text : List UInt8) : (l.add text).behind = l.behind := by
  rw [add]
  split <;> rfl

@[simp] theorem length_blank (text : List UInt8) : (blank text).length = text.length :=
  List.length_replicate

theorem blank_congr {text text' : List UInt8} (h : text'.length = text.length) :
    blank text' = blank text := by
  rw [blank, blank, h]

theorem length_kept (l : Lines) (i : Nat) : (l.kept.line i).length = (l.line i).length := by
  rw [kept]
  dsimp only
  split
  · rfl
  · exact length_blank _

end Lines

namespace Contents

def write (a : Contents) (buf : List UInt8) : Contents := { a with lines := a.lines.write buf }

def read (a : Contents) (fPos : Int) : Contents :=
  { a with seek := a.seek && decide (a.lines.totalSize ≤ fPos) }

def seekto (a : Contents) (target : AesdSeekto) : Contents :=
  { a with position := a.lines.target target, seek := true }

def flush (a : Contents) : Contents := ⟨a.lines.flush, 0, false⟩

def assign (a : Contents) : Nat → Contents
  | 0 => { a with lines := { a.lines with pending := a.lines.pending.map fun _ => [] } }
  | 1 => { a with lines := { a.lines with pending := none } }
  | 2 => { a with position := 0 }
  | 3 => { a with seek := false }
  | 4 => { a with lines := Lines.kept { a.lines with full := false } }
  | 5 => { a with lines := Lines.kept { a.lines with inOffs := 0 } }
  | 6 => { a with lines := { a.lines with outOffs := 0 } }
  | _ => { a with lines := { a.lines with totalSize := 0 } }

variable (a : Contents) {made : Nat}

theorem length_line_assign (made i : Nat) :
    ((a.assign made).lines.line i).length = (a.lines.line i).length := by
  match made with
  | 4 | 5 => exact Lines.length_kept _ i
  | 0 | 1 | 2 | 3 | 6 | _ + 7 => rfl

theorem behind_assign (made : Nat) : (a.assign made).lines.behind = a.lines.behind := by
  unfold assign
  split <;> rfl

theorem pending_assign (h2 : 2 ≤ made) : (a.assign made).lines.pending = a.lines.pending := by
  match made, h2 with
  | 2, _ | 3, _ | 4, _ | 5, _ | 6, _ | _ + 7, _ => rfl

theorem full_assign (h : a.lines.full = false ∨ made = 4) :
    (a.assign made).lines.full = false := by
  rcases h with h | rfl
  · unfold assign
    split <;> first | rfl | exact h
  · rfl

theorem inOffs_assign (h : a.lines.inOffs = 0 ∨ made = 5) : (a.assign made).lines.inOffs = 0 := by
  rcases h with h | rfl
  · unfold assign
    split <;> first | rfl | exact h
  · rfl

theorem outOffs_assign (h : a.lines.outOffs = 0 ∨ made = 6) :
    (a.assign made).lines.outOffs = 0 := by
  rcases h with h | rfl
  · unfold assign
    split <;> first | rfl | exact h
  · rfl

theorem blank_assign {i : Nat}
    (h : a.lines.line i = blank (a.lines.line i) ∨ made = 5 ∧ a.lines.full = false) :
    (a.assign made).lines.line i = blank ((a.assign made).lines.line i) := by
  have hkept : ∀ l : Lines, l.line i = blank (l.line i) → l.kept.line i = blank (l.kept.line i) := by
    intro l hl
    rw [Lines.kept]
    dsimp only
    split
    · exact hl
    · exact (Lines.blank_congr (Lines.length_blank _)).symm
  rcases h with h | ⟨rfl, hfull⟩
  · match made with
    | 4 | 5 => exact hkept _ h
    | 0 | 1 | 2 | 3 | 6 | _ + 7 => exact h
  · have hnot : ¬ ({ a.lines with inOffs := 0 } : Lines).Used i := by
      rintro ⟨-, hset | hlt⟩
      · exact Bool.false_ne_true (hfull.symm.trans hset)
      · exact Nat.not_lt_zero i hlt
    rw [assign, Lines.kept]
    dsimp only
    rw [if_neg hnot]
    exact (Lines.blank_congr (Lines.length_blank _)).symm

theorem totalSize_assign (h7 : made = 7) : (a.assign made).lines.totalSize = 0 := by
  subst h7
  rfl

theorem totalSize_of_assign (h7 : made ≠ 7) (hmade : made < flushAssignments) :
    (a.assign made).lines.totalSize = a.lines.totalSize := by
  unfold flushAssignments at hmade
  match made with
  | 0 | 1 | 2 | 3 | 4 | 5 | 6 => rfl
  | made + 7 => omega

end Contents

@[simp] theorem BufferEntry.length_text (h : Heap) (e : BufferEntry) :
    (e.text h).length = e.size := Heap.length_bytesAt _ _ _ _

theorem BufferEntry.text_congr {h h' : Heap} {e : BufferEntry}
    (hload : ∀ i, h'.load e.buffptr i = h.load e.buffptr i) : e.text h' = e.text h :=
  Heap.bytesAt_congr fun _ _ => hload _

theorem length_line_contents (k : Kernel) (i : Nat) :
    (k.contents.lines.line i).length = (k.dev.buffer.slot i).size := by
  rw [Kernel.contents]
  dsimp only
  split
  · exact BufferEntry.length_text _ _
  · exact List.length_replicate

theorem sizeAt_contents (k : Kernel) (i : Nat) : k.contents.lines.sizeAt i = k.dev.sizeAt i := by
  rw [Lines.sizeAt, AesdDev.sizeAt, length_line_contents]
  rfl

theorem seektoTarget_contents (k : Kernel) (seekto : AesdSeekto) :
    seektoTarget k.dev seekto = k.contents.lines.target seekto := by
  simp only [seektoTarget, Lines.target, sizeAt_contents]

theorem pendingSize_contents (k : Kernel) :
    (k.contents.lines.pending.getD []).length = k.dev.pendingSize := by
  rw [AesdDev.pendingSize, Kernel.contents]
  dsimp only
  split
  · exact BufferEntry.length_text _ _
  · rfl

theorem contents_of_load {k k' : Kernel} (hdev : k'.dev = k.dev)
    (hslot : ∀ i, k.dev.buffer.Used i → ∀ j, k'.heap.load (k.dev.buffer.slot i).buffptr j =
      k.heap.load (k.dev.buffer.slot i).buffptr j)
    (hpending : k.dev.isPartial = true → ∀ j, k'.heap.load k.dev.partialEntry.buffptr j =
      k.heap.load k.dev.partialEntry.buffptr j) : k'.contents = k.contents := by
  have hline : ∀ i, (if k.dev.buffer.Used i then (k.dev.buffer.slot i).text k'.heap
        else List.replicate (k.dev.buffer.slot i).size 0) =
      if k.dev.buffer.Used i then (k.dev.buffer.slot i).text k.heap
        else List.replicate (k.dev.buffer.slot i).size 0 := by
    intro i
    split
    · rename_i hused
      exact BufferEntry.text_congr (hslot i hused)
    · rfl
  have hpend : (if k.dev.isPartial then some (k.dev.partialEntry.text k'.heap) else none) =
      if k.dev.isPartial then some (k.dev.partialEntry.text k.heap) else none := by
    split
    · rename_i hset
      rw [BufferEntry.text_congr (hpending hset)]
    · rfl
  simp only [Kernel.contents, hdev, hline, hpend]

/-- The slots in use and the pending line lie in blocks that have been handed out. -/
structure Placed (k : Kernel) : Prop where
  unlocked : k.dev.mutex = false
  inOffs_lt : k.dev.buffer.inOffs < 10
  outOffs_lt : k.dev.buffer.outOffs < 10
  slot : ∀ i, k.dev.buffer.Used i → Handed k.heap (k.dev.buffer.slot i)
  pending : k.dev.isPartial = true → k.dev.partialEntry.buffptr < k.heap.next
  totalSize_lt : k.dev.buffer.totalSize < 2 ^ 63
  seekto : -2 ^ 63 ≤ k.dev.seektoPosition ∧ k.dev.seektoPosition < 2 ^ 63

namespace Placed
variable {k k' : Kernel}

theorem settled (p : Placed k) : Settled k where
  unlocked := p.unlocked
  inOffs_lt := p.inOffs_lt
  outOffs_lt := p.outOffs_lt
  slots i hi hused := p.slot i ⟨hi, hused⟩
  totalSize_lt := p.totalSize_lt
  seekto := p.seekto

theorem of_next_le (p : Placed k) (seek : Bool) (hdev : k'.dev = { k.dev with seek := seek })
    (hnext : k.heap.next ≤ k'.heap.next) : Placed k' := by
  obtain ⟨dev, heap⟩ := k'
  subst hdev
  exact ⟨p.unlocked, p.inOffs_lt, p.outOffs_lt, fun i hi => (p.slot i hi).of_next_le hnext,
    fun hset => (p.pending hset).trans_le hnext, p.totalSize_lt, p.seekto⟩

theorem contents_of_retains (p : Placed k) (hdev : k'.dev = k.dev)
    (r : k.heap.Retains k'.heap) : k'.contents = k.contents :=
  contents_of_load hdev (fun i hi => r.load _ (p.slot i hi).1) fun hset => r.load _ (p.pending hset)

end Placed

theorem retains_freeSlot (b : CircularBuffer) (index : Nat) (h : Heap) :
    h.Retains (freeSlot b index h) := by
  rw [freeSlot]
  split
  · exact (Heap.Retains.refl h).free _
  · exact Heap.Retains.refl h

theorem aesdFlush_retains (k : Kernel) : k.heap.Retains (aesdFlush k).1.heap := by
  have hrounds : ∀ n, k.heap.Retains (rounds (freeSlot k.dev.buffer) n k.heap) := by
    intro n
    induction n with
    | zero => exact Heap.Retains.refl _
    | succ n ih => exact ih.trans (retains_freeSlot _ _ _)
  rw [aesdFlush_eq]
  exact hrounds _

theorem Reached.placed {slots : Vector BufferEntry 10} {unset : Unset} {k : Kernel}
    (reached : Reached (initModule slots unset) k) : Placed k where
  unlocked := reached.settled.unlocked
  inOffs_lt := reached.settled.inOffs_lt
  outOffs_lt := reached.settled.outOffs_lt
  slot i hused := reached.settled.slots i hused.1 hused.2
  pending := reached.pending
  totalSize_lt := reached.settled.totalSize_lt
  seekto := reached.settled.seekto

theorem AesdDev.used_assign {d : AesdDev} {made i : Nat} (h : (d.assign made).buffer.Used i) :
    d.buffer.Used i := by
  match made, h with
  | 4, h => exact ⟨h.1, Or.inr (h.2.resolve_left Bool.false_ne_true)⟩
  | 5, h => exact ⟨h.1, Or.inl (h.2.resolve_right (Nat.not_lt_zero i))⟩
  | 0, h | 1, h | 2, h | 3, h | 6, h | _ + 7, h => exact h

theorem AesdDev.slot_assign (d : AesdDev) (made i : Nat) :
    (d.assign made).buffer.slot i = d.buffer.slot i := by
  unfold assign
  split <;> rfl

theorem line_kept (b b' : CircularBuffer) (h : Heap) {i : Nat} (hslot : b'.slot i = b.slot i)
    (hused : b'.Used i → b.Used i) :
    (if b'.Used i then (b'.slot i).text h else List.replicate (b'.slot i).size 0) =
      if b'.Used i then (if b.Used i then (b.slot i).text h else List.replicate (b.slot i).size 0)
      else blank (if b.Used i then (b.slot i).text h else List.replicate (b.slot i).size 0) := by
  rw [hslot]
  by_cases hi : b'.Used i
  · rw [if_pos hi, if_pos hi, if_pos (hused hi)]
  · rw [if_neg hi, if_neg hi, blank]
    split
    · rw [BufferEntry.length_text]
    · rw [List.length_replicate]

theorem contents_assign (k : Kernel) (made : Nat) :
    Kernel.contents { k with dev := k.dev.assign made } = k.contents.assign made := by
  match made with
  | 0 =>
      simp only [Kernel.contents, AesdDev.assign, Contents.assign]
      cases k.dev.isPartial <;> rfl
  | 1 | 2 | 3 | 6 | _ + 7 => rfl
  | 4 =>
      have hused : ∀ i, (k.dev.assign 4).buffer.Used i → k.dev.buffer.Used i :=
        fun _ => AesdDev.used_assign
      have hline := fun i =>
        line_kept k.dev.buffer { k.dev.buffer with full := false } k.heap rfl (hused i)
      simp only [Kernel.contents, AesdDev.assign, hline]
      rfl
  | 5 =>
      have hused : ∀ i, (k.dev.assign 5).buffer.Used i → k.dev.buffer.Used i :=
        fun _ => AesdDev.used_assign
      have hline := fun i =>
        line_kept k.dev.buffer { k.dev.buffer with inOffs := 0 } k.heap rfl (hused i)
      simp only [Kernel.contents, AesdDev.assign, hline]
      rfl

theorem contents_flush {k : Kernel} (p : Placed k) :
    (aesdFlush k).1.contents = k.contents.flush := by
  have hsame : Kernel.contents ⟨k.dev, (aesdFlush k).1.heap⟩ = k.contents :=
    p.contents_of_retains rfl (aesdFlush_retains k)
  have hunused : ∀ i, ¬ (aesdFlush k).1.dev.buffer.Used i := fun i h =>
    h.2.elim Bool.false_ne_true (Nat.not_lt_zero i)
  have hline : ∀ i, (aesdFlush k).1.contents.lines.line i = blank (k.contents.lines.line i) := by
    intro i
    rw [blank, length_line_contents, Kernel.contents]
    dsimp only
    rw [if_neg (hunused i)]
    rfl
  have hlines : (aesdFlush k).1.contents =
      { Contents.flush (Kernel.contents ⟨k.dev, (aesdFlush k).1.heap⟩) with
        lines := { Lines.flush k.contents.lines with
          line := (aesdFlush k).1.contents.lines.line } } := rfl
  rw [hlines, funext hline]
  rfl

theorem contents_seekto (k : Kernel) (target : AesdSeekto) :
    (adjustFileOffset k target).1.contents = k.contents.seekto target := by
  rw [Contents.seekto, ← seektoTarget_contents]
  rfl

theorem Placed.seektoIoctl {k : Kernel} (p : Placed k) (target : AesdSeekto) :
    Placed (adjustFileOffset k target).1 :=
  ⟨p.unlocked, p.inOffs_lt, p.outOffs_lt, p.slot, p.pending, p.totalSize_lt, le_toSsize _,
    toSsize_lt _⟩

theorem placed_of_loaded {k : Kernel} {slots : Vector BufferEntry 10} {unset : Unset}
    (hdev : k.dev = (initModule slots unset).dev) : Placed k := by
  obtain ⟨dev, heap⟩ := k
  subst hdev
  exact ⟨rfl, Nat.succ_pos 9, Nat.succ_pos 9, fun i hi => absurd hi.2 (by rintro (h | h) <;> cases h),
    fun h => absurd h Bool.false_ne_true, (by norm_num : (0 : Int) < 2 ^ 63), zero_mem_range⟩

theorem contents_addEntry {k k' : Kernel} {e : BufferEntry} (hin : k.dev.buffer.inOffs < 10)
    (hdev : k'.dev = { k.dev with isPartial := false, buffer := k.dev.buffer.addEntry e })
    (hslot : ∀ i, k.dev.buffer.Used i →
      (k.dev.buffer.slot i).text k'.heap = (k.dev.buffer.slot i).text k.heap) :
    k'.contents = { k.contents with lines := k.contents.lines.add (e.text k'.heap) } := by
  have hline : (fun i => if (k.dev.buffer.addEntry e).Used i then
        ((k.dev.buffer.addEntry e).slot i).text k'.heap
        else List.replicate ((k.dev.buffer.addEntry e).slot i).size 0) =
      Function.update k.contents.lines.line k.dev.buffer.inOffs (e.text k'.heap) := by
    funext i
    rw [k.dev.buffer.slot_addEntry e hin, Function.update_apply]
    by_cases hi : i = k.dev.buffer.inOffs
    · rw [if_pos ((CircularBuffer.used_addEntry e hin i).mpr (Or.inl hi)), if_pos hi, if_pos hi]
    · have hused : (k.dev.buffer.addEntry e).Used i ↔ k.dev.buffer.Used i :=
        (CircularBuffer.used_addEntry e hin i).trans (or_iff_right hi)
      simp only [hused, if_neg hi, Kernel.contents]
      split
      · rename_i hold
        exact hslot i hold
      · rfl
  have hlength : (k.contents.lines.line k.contents.lines.inOffs).length =
      (k.dev.buffer.slot k.dev.buffer.inOffs).size := length_line_contents k _
  conv_lhs => rw [Kernel.contents]
  simp only [hdev, hline, Bool.false_eq_true, if_false, Lines.add, hlength]
  simp only [Kernel.contents, CircularBuffer.addEntry, BufferEntry.length_text]
  split <;> rfl

namespace Placed
variable {k k' : Kernel}

theorem assign (p : Placed k) (made : Nat) : Placed { k with dev := k.dev.assign made } := by
  have hslot : ∀ i, (k.dev.assign made).buffer.Used i →
      Handed k.heap ((k.dev.assign made).buffer.slot i) := fun i hi => by
    rw [k.dev.slot_assign]
    exact p.slot i (AesdDev.used_assign hi)
  match made, hslot with
  | 0, hslot | 3, hslot | 4, hslot =>
      exact ⟨p.unlocked, p.inOffs_lt, p.outOffs_lt, hslot, p.pending, p.totalSize_lt, p.seekto⟩
  | 1, hslot =>
      exact ⟨p.unlocked, p.inOffs_lt, p.outOffs_lt, hslot, fun h => absurd h Bool.false_ne_true,
        p.totalSize_lt, p.seekto⟩
  | 2, hslot =>
      exact ⟨p.unlocked, p.inOffs_lt, p.outOffs_lt, hslot, p.pending, p.totalSize_lt,
        zero_mem_range⟩
  | 5, hslot =>
      exact ⟨p.unlocked, Nat.succ_pos _, p.outOffs_lt, hslot, p.pending, p.totalSize_lt, p.seekto⟩
  | 6, hslot =>
      exact ⟨p.unlocked, p.inOffs_lt, Nat.succ_pos _, hslot, p.pending, p.totalSize_lt, p.seekto⟩
  | _ + 7, hslot =>
      exact ⟨p.unlocked, p.inOffs_lt, p.outOffs_lt, hslot, p.pending,
        (by norm_num : (0 : Int) < 2 ^ 63), p.seekto⟩

theorem pends (p : Placed k) : Pends k (k.contents.lines.pending.getD []) := by
  cases hset : k.dev.isPartial
  · have hnone : k.contents.lines.pending.getD [] = [] := by simp [Kernel.contents, hset]
    rw [hnone]
    exact .of_clear hset
  · have htext : k.contents.lines.pending.getD [] = k.dev.partialEntry.text k.heap := by
      simp [Kernel.contents, hset]
    rw [htext]
    refine ⟨fun h => ?_, fun _ => (BufferEntry.length_text _ _).symm, fun _ => ?_, p.pending⟩
    · exact absurd (hset.symm.trans h) Bool.false_ne_true.symm
    · rw [BufferEntry.length_text]
      rfl

theorem read (p : Placed k) {env : ReadEnv} (ha : env.Allocates) {count : Nat}
    (hcount : count < kmallocBound) {fPos : Int} (h0 : -2 ^ 63 ≤ fPos) (ubuf : List UInt8) :
    ∃ res, aesdRead env k ubuf count fPos = some res ∧
      res.kernel.contents = k.contents.read fPos ∧ Placed res.kernel ∧
      res.kernel.dev = { k.dev with seek := (k.contents.read fPos).seek } ∧
      k.heap.Retains res.kernel.heap := by
  obtain ⟨res, hcall, hext⟩ : ∃ res, aesdRead env k ubuf count fPos = some res ∧
      k.heap.Extends res.kernel.heap := by
    obtain ⟨init, hinit⟩ := Option.isSome_iff_exists.mp ha.tmpBuf
    by_cases hlt : fPos < k.dev.buffer.totalSize
    · obtain ⟨hlow, hhigh⟩ := p.settled.readPosition_range h0 hlt
      obtain ⟨index, off, hstart, hindex, hoff⟩ :=
        readStart_inside env.stale k.dev.buffer p.outOffs_lt hlow hhigh
      obtain ⟨res, hcall, -, -, -, hext⟩ :=
        aesdRead_filled p.settled ha hcount hlt hstart hindex hoff init ubuf
      rw [← hinit] at hcall
      exact ⟨res, hcall, hext⟩
    · refine ⟨_, aesdRead_pastEnd env count ubuf p.unlocked (Int.not_lt.mp hlt), ?_⟩
      rw [hinit]
      exact (Heap.Extends.refl _).alloc _ _
  obtain ⟨hnext, hdev⟩ := aesdRead_dev p.unlocked hcall
  have hsame : Kernel.contents ⟨k.dev, res.kernel.heap⟩ = k.contents :=
    p.contents_of_retains rfl (.of_extends hext)
  refine ⟨res, hcall, ?_, p.of_next_le _ hdev hnext, hdev, .of_extends hext⟩
  rw [← hsame]
  simp only [Kernel.contents, hdev]
  rfl

end Placed

def PointsAt (d : AesdDev) (q : Nat) : Prop :=
  (∃ i, d.buffer.Used i ∧ (d.buffer.slot i).buffptr = q) ∨ d.isPartial = true ∧ d.partialEntry.buffptr = q

theorem Placed.pointsAt_lt {k : Kernel} (p : Placed k) {q : Nat} (hq : PointsAt k.dev q) :
    q < k.heap.next := by
  rcases hq with ⟨i, hi, rfl⟩ | ⟨hset, rfl⟩
  · exact (p.slot i hi).1
  · exact p.pending hset

structure Wrote (k : Kernel) (c : WriteCall) (buf : List UInt8) (k' : Kernel) : Prop where
  contents : k'.contents = k.contents.write buf
  placed : Placed k'
  next_le : k.heap.next ≤ k'.heap.next
  others : ∀ q < k.heap.next, q ≠ c.data → q ≠ c.tmp → ∀ j,
    k'.heap.load q j = k.heap.load q j
  pointsAt : ∀ q, PointsAt k'.dev q → PointsAt k.dev q ∨ q = c.data

section Write
variable {env : WriteEnv} {c : WriteCall} {k : Kernel} {buf : List UInt8}

/-- A write of `buf` has a byte to look at: one of its own, or the last of a pending line. Without any
it looks at `data[-1]`. -/
def Lines.Takes (l : Lines) (buf : List UInt8) : Prop :=
  buf ≠ [] ∨ l.pending.getD [] ≠ [] ∧ ¬ EndsLine (l.pending.getD [])

theorem Lines.Takes.ne_nil {l : Lines} (h : l.Takes buf) : l.pending.getD [] ++ buf ≠ [] := by
  rcases h with hne | ⟨hne, -⟩
  · exact List.append_ne_nil_of_right_ne_nil _ hne
  · exact List.append_ne_nil_of_left_ne_nil hne _

theorem Lines.Takes.endsLine_iff {l : Lines} (h : l.Takes buf) :
    EndsLine buf ↔ (l.pending.getD [] ++ buf).getLast h.ne_nil = newline := by
  by_cases hbuf : buf = []
  · subst hbuf
    obtain ⟨hne, hopen⟩ := h.resolve_left fun h => h rfl
    rw [EndsLine, List.getLast?_eq_some_getLast hne, Option.some.injEq] at hopen
    refine iff_of_false (fun hends => by cases hends) fun hlast => hopen ?_
    simpa using hlast
  · exact endsLine_iff_getLast _ hbuf h.ne_nil

theorem Wrote.of_appends (p : Placed k) (prep : Prepared k.heap c buf)
    (hapart : ∀ q, PointsAt k.dev q → q ≠ c.data ∧ q ≠ c.tmp) (htakes : k.contents.lines.Takes buf)
    (hfits : k.dev.pendingSize + buf.length < kmallocBound)
    {s : Kernel × Option BufferEntry} {ends : Bool}
    (app : Appends k.mutexLock c (k.contents.lines.pending.getD [] ++ buf) s ends) :
    Wrote k c buf ⟨s.1.mutexUnlock.dev, s.1.heap.free c.tmp⟩ := by
  have hlen : (k.contents.lines.pending.getD [] ++ buf).length =
      k.dev.pendingSize + buf.length := by
    rw [List.length_append, pendingSize_contents]
  have hnext : k.heap.next ≤ (s.1.heap.free c.tmp).next := by
    rw [Heap.next_free]
    exact app.next_le
  have hload : ∀ q < k.heap.next, q ≠ c.data → q ≠ c.tmp → ∀ j,
      (s.1.heap.free c.tmp).load q j = k.heap.load q j := by
    intro q hq hd ht j
    rw [Heap.load_free]
    exact app.others q hq hd ht j
  have hold : ∀ q, PointsAt k.dev q → ∀ j,
      (s.1.heap.free c.tmp).load q j = k.heap.load q j :=
    fun q hq => hload q (p.pointsAt_lt hq) (hapart q hq).1 (hapart q hq).2
  have htext : BufferEntry.text (s.1.heap.free c.tmp)
      ⟨c.data, (k.contents.lines.pending.getD [] ++ buf).length⟩ =
      k.contents.lines.pending.getD [] ++ buf :=
    (Heap.bytesAt_congr fun _ _ => Heap.load_free _ _ _ _).trans app.bytes
  have hnew : Handed (s.1.heap.free c.tmp)
      ⟨c.data, (k.contents.lines.pending.getD [] ++ buf).length⟩ :=
    ⟨prep.data_next.trans_le hnext, by dsimp only; rw [hlen]; exact hfits⟩
  have hends : ends = true ↔ EndsLine buf := by
    rw [htakes.endsLine_iff, app.ends_eq htakes.ne_nil, decide_eq_true_iff]
  have hdev := app.dev
  have hunlocked := p.unlocked
  cases ends with
  | true =>
      rw [if_pos rfl] at hdev
      have hfinal : s.1.mutexUnlock.dev = { k.dev with
          isPartial := false
          buffer := k.dev.buffer.addEntry
            ⟨c.data, (k.contents.lines.pending.getD [] ++ buf).length⟩ } := by
        rw [Kernel.mutexUnlock, hdev]
        dsimp only [Kernel.mutexLock]
        rw [← hunlocked]
      have hslot := fun i hi => BufferEntry.text_congr (e := k.dev.buffer.slot i)
        (hold _ (Or.inl ⟨i, hi, rfl⟩))
      refine ⟨?_, ?_, hnext, hload, fun q hq => ?_⟩
      · rw [@contents_addEntry k ⟨s.1.mutexUnlock.dev, s.1.heap.free c.tmp⟩ _ p.inOffs_lt hfinal
          hslot, htext, Contents.write, Lines.write, if_pos (hends.mp rfl)]
      · rw [hfinal]
        refine ⟨hunlocked, ?_, ?_, fun i hi => ?_, fun h => absurd h Bool.false_ne_true, ?_, p.seekto⟩
        · dsimp only
          rw [CircularBuffer.addEntry]
          split <;> exact CircularBuffer.advance_lt p.inOffs_lt
        · dsimp only
          rw [CircularBuffer.addEntry]
          split
          · exact CircularBuffer.advance_lt p.outOffs_lt
          · exact p.outOffs_lt
        · dsimp only
          rw [k.dev.buffer.slot_addEntry _ p.inOffs_lt]
          split
          · exact hnew
          · rename_i hne
            exact (p.slot i (((CircularBuffer.used_addEntry _ p.inOffs_lt i).mp hi).resolve_left
              hne)).of_next_le hnext
        · dsimp only
          rw [CircularBuffer.addEntry]
          split <;> exact toSsize_lt _
      · rw [hfinal] at hq
        rcases hq with ⟨i, hused, hi⟩ | ⟨hset, -⟩
        · dsimp only at hused hi
          rw [k.dev.buffer.slot_addEntry _ p.inOffs_lt] at hi
          split at hi
          · exact Or.inr hi.symm
          · rename_i hne
            exact Or.inl (Or.inl ⟨i, ((CircularBuffer.used_addEntry _ p.inOffs_lt i).mp
              hused).resolve_left hne, hi⟩)
        · exact absurd hset Bool.false_ne_true
  | false =>
      rw [if_neg Bool.false_ne_true] at hdev
      have hfinal : s.1.mutexUnlock.dev = { k.dev with
          isPartial := true
          partialEntry := ⟨c.data, (k.contents.lines.pending.getD [] ++ buf).length⟩ } := by
        rw [Kernel.mutexUnlock, hdev]
        dsimp only [Kernel.mutexLock]
        rw [← hunlocked]
      refine ⟨?_, ?_, hnext, hload, fun q hq => ?_⟩
      · have hsame : Kernel.contents ⟨{ k.dev with isPartial := false }, s.1.heap.free c.tmp⟩ =
            Kernel.contents ⟨{ k.dev with isPartial := false }, k.heap⟩ :=
          contents_of_load rfl (fun i hi => hold _ (Or.inl ⟨i, hi, rfl⟩)) fun h =>
            absurd h Bool.false_ne_true
        have hline := congrArg (fun a => a.lines.line) hsame
        rw [Contents.write, Lines.write, if_neg fun h => Bool.false_ne_true (hends.mpr h)]
        conv_lhs => rw [Kernel.contents]
        dsimp only [Kernel.contents] at hline ⊢
        rw [hfinal]
        dsimp only
        rw [hline, if_pos rfl, htext]
        rfl
      · rw [hfinal]
        exact ⟨hunlocked, p.inOffs_lt, p.outOffs_lt, fun i hi => (p.slot i hi).of_next_le hnext,
          fun _ => hnew.1, p.totalSize_lt, p.seekto⟩
      · rw [hfinal] at hq
        rcases hq with hq | ⟨-, rfl⟩
        · exact Or.inl (Or.inl hq)
        · exact Or.inr rfl

theorem Placed.writeRest (p : Placed k) (hs : env.Succeeds) (prep : Prepared k.heap c buf)
    (hapart : ∀ q, PointsAt k.dev q → q ≠ c.data ∧ q ≠ c.tmp) (htakes : k.contents.lines.Takes buf)
    (hfits : k.dev.pendingSize + buf.length < kmallocBound) :
    ∃ res, writeRest env c k = some res ∧ Wrote k c buf res.kernel := by
  have hpending := pendingSize_contents k
  unfold kmallocBound at hfits
  have hpends : Pends k.mutexLock (k.contents.lines.pending.getD []) :=
    p.pends.of_load rfl rfl (Nat.le_refl _) fun _ _ => rfl
  obtain ⟨s, ends, hsection, app⟩ := writeSection_appends (k := k.mutexLock) hs prep hpends
    (fun hset => hapart _ (Or.inr ⟨hset, rfl⟩)) (by omega) (fun _ => by omega)
  refine ⟨_, by rw [writeRest_of_unlocked env c p.unlocked, hsection, Option.map_some], ?_⟩
  exact .of_appends p prep hapart htakes hfits app

theorem Placed.writeProlog (p : Placed k) (hs : env.Succeeds) (buf : List UInt8) :
    (writeProlog env k buf).2.contents = k.contents ∧ Placed (writeProlog env k buf).2 ∧
      (∀ q, PointsAt k.dev q → q ≠ (writeProlog env k buf).1.data ∧
        q ≠ (writeProlog env k buf).1.tmp) := by
  have ext := writeProlog_extends hs k buf
  refine ⟨p.contents_of_retains rfl (.of_extends ext), p.of_next_le k.dev.seek rfl ext.next_le,
    fun q hq => ?_⟩
  have hlt := p.pointsAt_lt hq
  rw [writeProlog_call hs]
  dsimp only
  omega

theorem Placed.write (p : Placed k) (hs : env.Succeeds) (htakes : k.contents.lines.Takes buf)
    (hfits : k.dev.pendingSize + buf.length < kmallocBound) :
    ∃ res, aesdWrite env k buf = some res ∧ res.kernel.contents = k.contents.write buf ∧
      Placed res.kernel ∧ res.ret = buf.length := by
  obtain ⟨hsame, placed, hapart⟩ := p.writeProlog hs buf
  have prep := writeProlog_prepared hs k buf
  obtain ⟨res, hcall, wrote⟩ := placed.writeRest hs prep hapart (by rw [hsame]; exact htakes) hfits
  refine ⟨res, hcall, by rw [wrote.contents, hsame], wrote.placed, ?_⟩
  rw [writeRest_of_unlocked _ _ placed.unlocked] at hcall
  obtain ⟨s, -, rfl⟩ := Option.map_eq_some_iff.mp hcall
  unfold kmallocBound at hfits
  dsimp only
  rw [prep.count, toSsize_of_lt (by omega)]

end Write

end Aesd

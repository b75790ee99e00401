import Aesd.CircularBuffer
import Aesd.KernelServices
import Mathlib.Data.List.Forall2

/-! `aesd_circular_buffer_read_helper`: the copy of a range of slots into `data`, with
its `uint` counters. `gathered` is the number of bytes it hands over and `Faultless`
says when every access stays inside the blocks; both look only at sizes. -/
namespace Aesd
open FixedWidth Memory

def helperEnd (size count readCount byteOffset : Nat) : Nat :=
  if toSize (readCount + size : Nat) < count then toUint size
  else toUint (toSize (toSize ((count : Int) - readCount) + byteOffset : Nat))

/-- `n` rounds of the inner loop: `tmp[j] = data[readCount + j] = buffptr[k + j]`. -/
def helperCopy (src tmp data k readCount n : Nat) (h : Heap) : Heap :=
  rounds (fun j h => (h.move src (k + j : Nat) tmp j).move src (k + j : Nat) data
    (readCount + j : Nat)) n h

structure HelperState where
  heap : Heap
  k : Nat
  readCount : Nat

/-- At most `n` rounds of the outer loop, from slot `i` on. -/
def helperLoop (b : CircularBuffer) (tmp data count byteOffset : Nat) :
    (n i : Nat) → HelperState → HelperState
  | 0, _, s => s
  | n + 1, i, s =>
      let e := b.slot i
      if e.size = 0 ∨ toSize ((count : Int) - s.readCount) = 0 then s
      else
        let j := helperEnd e.size count s.readCount byteOffset - s.k
        helperLoop b tmp data count byteOffset n (i + 1)
          ⟨helperCopy e.buffptr tmp data s.k s.readCount j s.heap, 0,
            toSize (s.readCount + j : Nat)⟩

/-- `aesd_circular_buffer_read_helper`; the scratch block `tmp` is never freed. -/
def readHelper (h : Heap) (b : CircularBuffer) (index1 index2 data count byteOffset : Nat)
    (tmp : Kmalloc) : Heap × Nat :=
  let t := kmalloc h count tmp
  let s := helperLoop b t.1 data count byteOffset (index2 - index1) index1
    ⟨t.2, toUint byteOffset, 0⟩
  (s.heap, s.readCount)

/-- Bytes handed over from entries of the given sizes, `readCount` of them being there
already and the first entry being read from byte `k`. -/
def gathered (count byteOffset : Nat) : List Nat → (k readCount : Nat) → Nat
  | [], _, readCount => readCount
  | size :: sizes, k, readCount =>
      if size = 0 ∨ readCount = count then readCount
      else if readCount + size < count then
        gathered count byteOffset sizes 0 (readCount + (size - k))
      else count + byteOffset - k

/-- Every byte is read from inside its entry and written inside the `count` bytes. -/
def Faultless (count byteOffset : Nat) : List Nat → (k readCount : Nat) → Prop
  | [], _, _ => True
  | size :: sizes, k, readCount =>
      if size = 0 ∨ readCount = count then True
      else if readCount + size < count then
        Faultless count byteOffset sizes 0 (readCount + (size - k))
      else count - readCount + byteOffset ≤ size ∧ byteOffset ≤ k

structure Owns (h : Heap) (e : BufferEntry) (l : List UInt8) : Prop where
  holds : h.Holds e.buffptr l
  size : e.size = l.length

theorem Owns.of_block_eq {h h' : Heap} {e : BufferEntry} {l : List UInt8} (o : Owns h e l)
    (heq : h'.block e.buffptr = h.block e.buffptr) : Owns h' e l := by
  have hload : ∀ i, h'.load e.buffptr i = h.load e.buffptr i := by
    intro i
    rw [Heap.load, heq, Heap.load]
  refine ⟨⟨?_, ?_, ?_⟩, o.size⟩
  · rw [heq]
    exact o.holds.live
  · rw [heq]
    exact o.holds.len
  · rw [Heap.bytesAt_congr (fun k _ => hload _)]
    exact o.holds.bytes

section Copy
variable (src tmp data k readCount n q : Nat) (h : Heap) (j : Int)

theorem helperCopy_succ :
    helperCopy src tmp data k readCount (n + 1) h =
      ((helperCopy src tmp data k readCount n h).move src (k + n : Nat) tmp n).move
        src (k + n : Nat) data (readCount + n : Nat) := rfl

@[simp] theorem next_helperCopy : (helperCopy src tmp data k readCount n h).next = h.next := by
  induction n with
  | zero => rfl
  | succ n ih => rw [helperCopy_succ, Heap.next_move, Heap.next_move, ih]

theorem log_helperCopy : (helperCopy src tmp data k readCount n h).allocated = h.allocated ∧
    (helperCopy src tmp data k readCount n h).freed = h.freed := by
  induction n with
  | zero => exact ⟨rfl, rfl⟩
  | succ n ih =>
      rw [helperCopy_succ, Heap.allocated_move, Heap.allocated_move, Heap.freed_move,
        Heap.freed_move]
      exact ih

@[simp] theorem live_helperCopy :
    ((helperCopy src tmp data k readCount n h).block q).live = (h.block q).live := by
  induction n with
  | zero => rfl
  | succ n ih => rw [helperCopy_succ, Heap.live_move, Heap.live_move, ih]

@[simp] theorem len_helperCopy :
    ((helperCopy src tmp data k readCount n h).block q).len = (h.block q).len := by
  induction n with
  | zero => rfl
  | succ n ih => rw [helperCopy_succ, Heap.len_move, Heap.len_move, ih]

@[simp] theorem ok_helperCopy :
    (helperCopy src tmp data k readCount n h).ok q j = h.ok q j := by
  simp only [Heap.ok, live_helperCopy, len_helperCopy]

theorem block_helperCopy_of_ne (ht : q ≠ tmp) (hd : q ≠ data) :
    (helperCopy src tmp data k readCount n h).block q = h.block q := by
  induction n with
  | zero => rfl
  | succ n ih =>
      rw [helperCopy_succ, Heap.block_move_of_ne _ _ _ _ _ _ hd,
        Heap.block_move_of_ne _ _ _ _ _ _ ht, ih]

theorem load_helperCopy_of_ne (ht : q ≠ tmp) (hd : q ≠ data) :
    (helperCopy src tmp data k readCount n h).load q j = h.load q j := by
  rw [Heap.load, block_helperCopy_of_ne _ _ _ _ _ _ _ _ ht hd, Heap.load]

theorem load_helperCopy_data (hs : src ≠ data) (hst : src ≠ tmp) (ht : data ≠ tmp) :
    (helperCopy src tmp data k readCount n h).load data j =
      if (readCount : Int) ≤ j ∧ j < (readCount + n : Nat) then h.load src (k + (j - readCount))
      else h.load data j := by
  induction n with
  | zero =>
      rw [if_neg (by omega)]
      rfl
  | succ n ih =>
      have hsrc : (helperCopy src tmp data k readCount n h).load src (k + n : Nat) =
          h.load src (k + n : Nat) := by
        rw [Heap.load, block_helperCopy_of_ne _ _ _ _ _ _ _ _ hst hs, Heap.load]
      have hmid : ((helperCopy src tmp data k readCount n h).move src (k + n : Nat) tmp n).load
          src (k + n : Nat) = h.load src (k + n : Nat) := by
        rw [Heap.load_move, if_neg (by tauto), hsrc]
      rw [helperCopy_succ, Heap.load_move, hmid, Heap.load_move,
        if_neg (by tauto : ¬ (data = tmp ∧ _)),
        ih]
      by_cases hj : j = (readCount + n : Nat)
      · rw [if_pos ⟨rfl, hj⟩, if_pos (by omega)]
        congr 1
        omega
      · rw [if_neg (by tauto)]
        have hiff : ((readCount : Int) ≤ j ∧ j < (readCount + (n + 1) : Nat)) ↔
            ((readCount : Int) ≤ j ∧ j < (readCount + n : Nat)) := by omega
        simp only [hiff]

theorem load_helperCopy_data_of_lt (ht : data ≠ tmp) (hj : j < readCount) :
    (helperCopy src tmp data k readCount n h).load data j = h.load data j := by
  induction n with
  | zero => rfl
  | succ n ih =>
      rw [helperCopy_succ, Heap.load_move, if_neg (by omega), Heap.load_move,
        if_neg (by tauto : ¬ (data = tmp ∧ _)), ih]

theorem fault_helperCopy :
    (helperCopy src tmp data k readCount n h).fault = false ↔
      h.fault = false ∧ ∀ i < n, h.ok src (k + i : Nat) = true ∧ h.ok tmp i = true ∧
        h.ok data (readCount + i : Nat) = true := by
  induction n with
  | zero => simp [helperCopy, rounds]
  | succ n ih =>
      rw [helperCopy_succ, Heap.fault_move, Heap.fault_move, Nat.forall_lt_succ_right]
      simp only [Bool.or_eq_false_iff, Bool.not_eq_false', ih, Heap.ok_move, ok_helperCopy]
      tauto

end Copy

section Loop
variable {b : CircularBuffer} (tmp data : Nat) {count : Nat} (byteOffset : Nat)

theorem helperEnd_whole {size readCount : Nat} (hcount : count < 2 ^ 32) (hsize : size < 2 ^ 63)
    (h : readCount + size < count) : helperEnd size count readCount byteOffset = size := by
  rw [helperEnd, toSize_of_lt (by omega), if_pos h, toUint_of_lt (by omega)]

theorem helperEnd_last {size readCount : Nat} (hsize : size < 2 ^ 63)
    (hoff : count + byteOffset < 2 ^ 32) (hrc : readCount ≤ count)
    (h : ¬ readCount + size < count) :
    helperEnd size count readCount byteOffset = count - readCount + byteOffset := by
  have hsub : ((count : Int) - readCount) = (count - readCount : Nat) := by omega
  have hcount : count - readCount < 2 ^ 64 := by omega
  rw [helperEnd, toSize_of_lt (by omega), if_neg h, hsub, toSize_of_lt hcount,
    toSize_of_lt (by omega), toUint_of_lt (by omega)]

theorem helperLoop_filled (n i : Nat) (s : HelperState)
    (hsize : ∀ e ∈ b.slotRange n i, e.size < 2 ^ 63) (hoff : count + byteOffset < 2 ^ 32)
    (hk : s.k = 0) (hrc : s.readCount = count ∨ s.readCount = count + byteOffset) :
    helperLoop b tmp data count byteOffset n i s = s := by
  induction n generalizing i with
  | zero => rfl
  | succ n ih =>
      simp only [CircularBuffer.slotRange, List.mem_cons, forall_eq_or_imp] at hsize
      rw [helperLoop]
      split
      · rfl
      · rename_i hcont
        have hne : s.readCount ≠ count := by
          intro heq
          simp [heq, toSize] at hcont
        have hrc' : s.readCount = count + byteOffset := by tauto
        have hend : helperEnd (b.slot i).size count s.readCount byteOffset = 0 := by
          have hlt := hsize.1
          rw [helperEnd, toSize_of_lt (by omega), if_neg (by omega), hrc']
          unfold toUint toSize
          omega
        have hstate : (⟨helperCopy (b.slot i).buffptr tmp data s.k s.readCount (0 - s.k) s.heap, 0,
            toSize (s.readCount + (0 - s.k) : Nat)⟩ : HelperState) = s := by
          have hsz : toSize (s.readCount + (0 - s.k) : Nat) = s.readCount := by
            rw [toSize_of_lt (by omega)]
            omega
          rw [hsz, hk]
          obtain ⟨heap, k, readCount⟩ := s
          cases hk
          rfl
        simp only [hend, hstate]
        exact ih (i + 1) hsize.2

/-- One round that copies the rest of an entry and goes on, or stops at an empty entry or
after `count` bytes, or reaches for `count` bytes; the three cases of the loop body. -/
theorem helperLoop_succ (n i : Nat) (s : HelperState)
    (hsize : ∀ e ∈ b.slotRange (n + 1) i, e.size < 2 ^ 63)
    (hoff : count + byteOffset < 2 ^ 32)
    (hk : s.k = 0 ∨ s.k = byteOffset ∧ s.readCount = 0) (hrc : s.readCount ≤ count) :
    helperLoop b tmp data count byteOffset (n + 1) i s =
      if (b.slot i).size = 0 ∨ s.readCount = count then s
      else if s.readCount + (b.slot i).size < count then
        helperLoop b tmp data count byteOffset n (i + 1)
          ⟨helperCopy (b.slot i).buffptr tmp data s.k s.readCount ((b.slot i).size - s.k) s.heap, 0,
            s.readCount + ((b.slot i).size - s.k)⟩
      else
        ⟨helperCopy (b.slot i).buffptr tmp data s.k s.readCount
          (count - s.readCount + byteOffset - s.k) s.heap, 0, count + byteOffset - s.k⟩ := by
  simp only [CircularBuffer.slotRange, List.mem_cons, forall_eq_or_imp] at hsize
  have hlt := hsize.1
  have hstop : toSize ((count : Int) - s.readCount) = 0 ↔ s.readCount = count := by
    unfold toSize
    omega
  rw [helperLoop]
  simp only [hstop]
  split
  · rfl
  · split
    · rename_i hmore
      rw [helperEnd_whole _ (by omega) hlt hmore, toSize_of_lt (by omega)]
    · rename_i hfull
      rw [helperEnd_last _ hlt hoff hrc hfull]
      have hcount : toSize (s.readCount + (count - s.readCount + byteOffset - s.k) : Nat) =
          count + byteOffset - s.k := by
        rw [toSize_of_lt (by omega)]
        omega
      rw [hcount]
      apply helperLoop_filled _ _ _ n (i + 1) _ hsize.2 hoff rfl
      show count + byteOffset - s.k = count ∨ count + byteOffset - s.k = count + byteOffset
      omega

theorem readCount_helperLoop (n i : Nat) (s : HelperState)
    (hsize : ∀ e ∈ b.slotRange n i, e.size < 2 ^ 63) (hoff : count + byteOffset < 2 ^ 32)
    (hk : s.k = 0 ∨ s.k = byteOffset ∧ s.readCount = 0) (hrc : s.readCount ≤ count) :
    (helperLoop b tmp data count byteOffset n i s).readCount =
      gathered count byteOffset ((b.slotRange n i).map BufferEntry.size) s.k s.readCount := by
  induction n generalizing i s with
  | zero => rfl
  | succ n ih =>
      rw [helperLoop_succ _ _ _ n i s hsize hoff hk hrc]
      simp only [CircularBuffer.slotRange, List.mem_cons, forall_eq_or_imp] at hsize
      rw [CircularBuffer.slotRange, List.map_cons, gathered]
      split
      · rfl
      · split
        · rename_i hmore
          exact ih (i + 1) _ hsize.2 (Or.inl rfl) (by dsimp only; omega)
        · rfl

theorem next_helperLoop (n i : Nat) (s : HelperState) :
    (helperLoop b tmp data count byteOffset n i s).heap.next = s.heap.next := by
  induction n generalizing i s with
  | zero => rfl
  | succ n ih =>
      rw [helperLoop]
      split
      · rfl
      · rw [ih]
        exact next_helperCopy _ _ _ _ _ _ _

theorem log_helperLoop (n i : Nat) (s : HelperState) :
    (helperLoop b tmp data count byteOffset n i s).heap.allocated = s.heap.allocated ∧
      (helperLoop b tmp data count byteOffset n i s).heap.freed = s.heap.freed := by
  induction n generalizing i s with
  | zero => exact ⟨rfl, rfl⟩
  | succ n ih =>
      rw [helperLoop]
      split
      · exact ⟨rfl, rfl⟩
      · obtain ⟨hallocated, hfreed⟩ := log_helperCopy (b.slot i).buffptr tmp data s.k s.readCount
          (helperEnd (b.slot i).size count s.readCount byteOffset - s.k) s.heap
        exact ⟨(ih _ _).1.trans hallocated, (ih _ _).2.trans hfreed⟩

theorem faulty_helperLoop (n i : Nat) (s : HelperState) (hfault : s.heap.fault = true) :
    (helperLoop b tmp data count byteOffset n i s).heap.fault = true := by
  induction n generalizing i s with
  | zero => exact hfault
  | succ n ih =>
      rw [helperLoop]
      split
      · exact hfault
      · apply ih
        by_contra hclear
        rw [Bool.not_eq_true, fault_helperCopy, hfault] at hclear
        exact absurd hclear.1 (by simp)

theorem block_helperLoop_of_ne (n i q : Nat) (s : HelperState) (ht : q ≠ tmp) (hd : q ≠ data) :
    (helperLoop b tmp data count byteOffset n i s).heap.block q = s.heap.block q := by
  induction n generalizing i s with
  | zero => rfl
  | succ n ih =>
      rw [helperLoop]
      split
      · rfl
      · rw [ih]
        exact block_helperCopy_of_ne _ _ _ _ _ _ _ _ ht hd

theorem live_helperLoop (n i q : Nat) (s : HelperState) :
    ((helperLoop b tmp data count byteOffset n i s).heap.block q).live =
      (s.heap.block q).live := by
  induction n generalizing i s with
  | zero => rfl
  | succ n ih =>
      rw [helperLoop]
      split
      · rfl
      · rw [ih]
        exact live_helperCopy _ _ _ _ _ _ _ _

theorem len_helperLoop (n i q : Nat) (s : HelperState) :
    ((helperLoop b tmp data count byteOffset n i s).heap.block q).len =
      (s.heap.block q).len := by
  induction n generalizing i s with
  | zero => rfl
  | succ n ih =>
      rw [helperLoop]
      split
      · rfl
      · rw [ih]
        exact len_helperCopy _ _ _ _ _ _ _ _

theorem gathered_ge (count byteOffset : Nat) (sizes : List Nat) (k readCount : Nat)
    (hk : k = 0 ∨ k = byteOffset ∧ readCount = 0) (hrc : readCount ≤ count) :
    readCount ≤ gathered count byteOffset sizes k readCount := by
  induction sizes generalizing k readCount with
  | nil => exact Nat.le_refl _
  | cons size sizes ih =>
      rw [gathered]
      split
      · exact Nat.le_refl _
      · split
        · exact (Nat.le_add_right _ _).trans (ih 0 _ (Or.inl rfl) (by omega))
        · omega

theorem gathered_le {count off : Nat} {sizes : List Nat} (k readCount : Nat)
    (hrc : readCount ≤ count) : gathered count off sizes k readCount ≤ count + off := by
  induction sizes generalizing k readCount with
  | nil =>
      rw [gathered]
      omega
  | cons size sizes ih =>
      rw [gathered]
      split
      · omega
      · split
        · exact ih _ _ (by omega)
        · omega

theorem load_helperLoop_lt (n i : Nat) (s : HelperState) (hne : data ≠ tmp)
    (hsize : ∀ e ∈ b.slotRange n i, e.size < 2 ^ 63) (hoff : count + byteOffset < 2 ^ 32)
    (hk : s.k = 0 ∨ s.k = byteOffset ∧ s.readCount = 0) (hrc : s.readCount ≤ count) (j : Int)
    (hj : j < s.readCount) :
    (helperLoop b tmp data count byteOffset n i s).heap.load data j = s.heap.load data j := by
  induction n generalizing i s with
  | zero => rfl
  | succ n ih =>
      rw [helperLoop_succ _ _ _ n i s hsize hoff hk hrc]
      simp only [CircularBuffer.slotRange, List.mem_cons, forall_eq_or_imp] at hsize
      split
      · rfl
      · split
        · rename_i hmore
          rw [ih (i + 1) _ hsize.2 (Or.inl rfl) (by dsimp only; omega) (by dsimp only; omega),
            load_helperCopy_data_of_lt _ _ _ _ _ _ _ _ hne hj]
        · exact load_helperCopy_data_of_lt _ _ _ _ _ _ _ _ hne hj

theorem load_helperLoop_ge (n i : Nat) (s : HelperState) (hne : data ≠ tmp)
    (hapart : ∀ e ∈ b.slotRange n i, e.buffptr ≠ tmp ∧ e.buffptr ≠ data)
    (hsize : ∀ e ∈ b.slotRange n i, e.size < 2 ^ 63) (hoff : count + byteOffset < 2 ^ 32)
    (hk : s.k = 0 ∨ s.k = byteOffset ∧ s.readCount = 0) (hrc : s.readCount ≤ count) (j : Int)
    (hj : gathered count byteOffset ((b.slotRange n i).map BufferEntry.size) s.k s.readCount ≤ j) :
    (helperLoop b tmp data count byteOffset n i s).heap.load data j = s.heap.load data j := by
  induction n generalizing i s with
  | zero => rfl
  | succ n ih =>
      rw [helperLoop_succ _ _ _ n i s hsize hoff hk hrc]
      simp only [CircularBuffer.slotRange, List.mem_cons, forall_eq_or_imp] at hsize hapart
      rw [CircularBuffer.slotRange, List.map_cons, gathered] at hj
      split at hj
      · rename_i hstop
        rw [if_pos hstop]
      · rename_i hcont
        rw [if_neg hcont]
        split at hj
        · rename_i hmore
          have hge := gathered_ge count byteOffset
            ((b.slotRange n (i + 1)).map BufferEntry.size) 0
            (s.readCount + ((b.slot i).size - s.k)) (Or.inl rfl) (by omega)
          rw [if_pos hmore, ih (i + 1) _ hapart.2 hsize.2 (Or.inl rfl) (by dsimp only; omega) hj,
            load_helperCopy_data _ _ _ _ _ _ _ _ hapart.1.2 hapart.1.1 hne, if_neg (by omega)]
        · rename_i hfull
          rw [if_neg hfull, load_helperCopy_data _ _ _ _ _ _ _ _ hapart.1.2 hapart.1.1 hne,
            if_neg (by omega)]

structure SameSource (tmp data tmp' data' : Nat) (h h' : Heap) (e e' : BufferEntry) : Prop where
  size : e'.size = e.size
  apart : e.buffptr ≠ tmp ∧ e.buffptr ≠ data
  apart' : e'.buffptr ≠ tmp' ∧ e'.buffptr ≠ data'
  alike : Heap.Alike h h' e.buffptr e'.buffptr

variable {tmp data} in
theorem SameSource.helperCopy {tmp' data' : Nat} {h h' : Heap} {e e' : BufferEntry}
    (same : SameSource tmp data tmp' data' h h' e e') (src src' k readCount n : Nat) :
    SameSource tmp data tmp' data' (helperCopy src tmp data k readCount n h)
      (Aesd.helperCopy src' tmp' data' k readCount n h') e e' where
  size := same.size
  apart := same.apart
  apart' := same.apart'
  alike := same.alike.of_load
    (fun i => load_helperCopy_of_ne _ _ _ _ _ _ _ _ i same.apart.1 same.apart.2)
    (fun i => load_helperCopy_of_ne _ _ _ _ _ _ _ _ i same.apart'.1 same.apart'.2)

theorem load_helperLoop_agree {b' : CircularBuffer} (tmp' data' : Nat) (n i : Nat)
    (s s' : HelperState) (hne : data ≠ tmp) (hne' : data' ≠ tmp')
    (hsrc : List.Forall₂ (SameSource tmp data tmp' data' s.heap s'.heap) (b.slotRange n i)
      (b'.slotRange n i))
    (hsize : ∀ e ∈ b.slotRange n i, e.size < 2 ^ 63) (hoff : count + byteOffset < 2 ^ 32)
    (hk : s.k = 0 ∨ s.k = byteOffset ∧ s.readCount = 0) (hrc : s.readCount ≤ count)
    (hks : s'.k = s.k) (hrcs : s'.readCount = s.readCount)
    (hdata : ∀ j : Int, 0 ≤ j → j < s.readCount → s'.heap.load data' j = s.heap.load data j)
    (j : Int) (h0 : 0 ≤ j)
    (hj : j < gathered count byteOffset ((b.slotRange n i).map BufferEntry.size) s.k s.readCount) :
    (helperLoop b' tmp' data' count byteOffset n i s').heap.load data' j =
      (helperLoop b tmp data count byteOffset n i s).heap.load data j := by
  have hsize' : ∀ e' ∈ b'.slotRange n i, e'.size < 2 ^ 63 := by
    intro e' he'
    obtain ⟨m, hm, rfl⟩ := List.getElem_of_mem he'
    have hm' : m < (b.slotRange n i).length := by rw [hsrc.length_eq]; exact hm
    have hsame := (hsrc.get hm' hm).size
    simp only [List.get_eq_getElem] at hsame
    rw [hsame]
    exact hsize _ (List.getElem_mem hm')
  induction n generalizing i s s' with
  | zero => exact hdata j h0 hj
  | succ n ih =>
      rw [helperLoop_succ _ _ _ n i s hsize hoff hk hrc,
        helperLoop_succ _ _ _ n i s' hsize' hoff (by rw [hks, hrcs]; exact hk) (by omega), hks, hrcs]
      simp only [CircularBuffer.slotRange, List.mem_cons, forall_eq_or_imp] at hsize hsize'
      simp only [CircularBuffer.slotRange, List.forall₂_cons] at hsrc
      rw [hsrc.1.size]
      have hcopy : ∀ (m : Nat) (j : Int), 0 ≤ j → j < (s.readCount + m : Nat) →
          (helperCopy (b'.slot i).buffptr tmp' data' s.k s.readCount m s'.heap).load data' j =
            (helperCopy (b.slot i).buffptr tmp data s.k s.readCount m s.heap).load data j := by
        intro m j h0 hjm
        rw [load_helperCopy_data _ _ _ _ _ _ _ _ hsrc.1.apart.2 hsrc.1.apart.1 hne,
          load_helperCopy_data _ _ _ _ _ _ _ _ hsrc.1.apart'.2 hsrc.1.apart'.1 hne']
        split
        · exact hsrc.1.alike _
        · exact hdata j h0 (by omega)
      rw [CircularBuffer.slotRange, List.map_cons, gathered] at hj
      split at hj
      · rename_i hstop
        rw [if_pos hstop, if_pos hstop]
        exact hdata j h0 hj
      · rename_i hcont
        rw [if_neg hcont, if_neg hcont]
        split at hj
        · rename_i hmore
          rw [if_pos hmore, if_pos hmore]
          exact ih (i + 1) _ _ (hsrc.2.imp fun _ _ same => same.helperCopy _ _ _ _ _) hsize.2
            (Or.inl rfl) (by dsimp only; omega) rfl rfl (fun j h0 hj => hcopy _ j h0 hj) hj hsize'.2
        · rename_i hfull
          rw [if_neg hfull, if_neg hfull]
          exact hcopy _ j h0 (by omega)

end Loop

section Owned
variable {b : CircularBuffer} {tmp data count : Nat} (byteOffset : Nat)

structure Scratch (h : Heap) (tmp data count : Nat) : Prop where
  ne : data ≠ tmp
  tmp_live : (h.block tmp).live = true
  tmp_len : (h.block tmp).len = count
  data_live : (h.block data).live = true
  data_len : (h.block data).len = count

theorem Scratch.ok_tmp {h : Heap} (w : Scratch h tmp data count) (i : Int) :
    h.ok tmp i = true ↔ 0 ≤ i ∧ i < count := by
  rw [Heap.ok_iff, w.tmp_len]
  simp [w.tmp_live]

theorem Scratch.ok_data {h : Heap} (w : Scratch h tmp data count) (i : Int) :
    h.ok data i = true ↔ 0 ≤ i ∧ i < count := by
  rw [Heap.ok_iff, w.data_len]
  simp [w.data_live]

theorem Scratch.helperCopy {h : Heap} (w : Scratch h tmp data count) (src k readCount n : Nat) :
    Scratch (helperCopy src tmp data k readCount n h) tmp data count where
  ne := w.ne
  tmp_live := by rw [live_helperCopy]; exact w.tmp_live
  tmp_len := by rw [len_helperCopy]; exact w.tmp_len
  data_live := by rw [live_helperCopy]; exact w.data_live
  data_len := by rw [len_helperCopy]; exact w.data_len

def OwnedApart (h : Heap) (tmp data : Nat) (es : List BufferEntry) (ls : List (List UInt8)) :
    Prop :=
  List.Forall₂ (fun e l => Owns h e l ∧ e.buffptr ≠ tmp ∧ e.buffptr ≠ data) es ls

theorem OwnedApart.helperCopy {h : Heap} {es : List BufferEntry} {ls : List (List UInt8)}
    (o : OwnedApart h tmp data es ls) (src k readCount n : Nat) :
    OwnedApart (helperCopy src tmp data k readCount n h) tmp data es ls := by
  refine List.Forall₂.imp (fun e l hel => ⟨hel.1.of_block_eq ?_, hel.2⟩) o
  exact block_helperCopy_of_ne _ _ _ _ _ _ _ _ hel.2.1 hel.2.2

theorem fault_helperCopy_owned {h : Heap} {e : BufferEntry} {l : List UInt8}
    (w : Scratch h tmp data count) (o : Owns h e l) (k readCount n : Nat) :
    (helperCopy e.buffptr tmp data k readCount n h).fault = false ↔
      h.fault = false ∧ (n = 0 ∨ k + n ≤ e.size ∧ readCount + n ≤ count) := by
  rw [fault_helperCopy]
  simp only [o.holds.ok, w.ok_tmp, w.ok_data, ← o.size]
  refine and_congr_right fun _ => ?_
  constructor
  · intro hall
    by_cases hn : n = 0
    · exact Or.inl hn
    · have last := hall (n - 1) (by omega)
      exact Or.inr (by omega)
  · intro h i hi
    omega

theorem bytes_helperCopy_owned {h : Heap} {e : BufferEntry} {l : List UInt8}
    (w : Scratch h tmp data count) (o : Owns h e l) (ht : e.buffptr ≠ tmp)
    (hd : e.buffptr ≠ data) (k readCount n : Nat) (hn : k + n ≤ e.size) :
    (helperCopy e.buffptr tmp data k readCount n h).bytesAt data 0 (readCount + n) =
      h.bytesAt data 0 readCount ++ (l.drop k).take n := by
  rw [Heap.bytesAt_add, ← o.holds.bytesAt k n (by rw [← o.size]; exact hn)]
  congr 1
  · apply Heap.bytesAt_congr
    intro m hm
    rw [load_helperCopy_data _ _ _ _ _ _ _ _ hd ht w.ne, if_neg (by omega)]
  · apply Heap.bytesAt_congr
    intro m hm
    rw [load_helperCopy_data _ _ _ _ _ _ _ _ hd ht w.ne, if_pos (by omega)]
    congr 1
    omega

theorem fault_helperLoop (n i : Nat) (s : HelperState) (ls : List (List UInt8))
    (w : Scratch s.heap tmp data count) (o : OwnedApart s.heap tmp data (b.slotRange n i) ls)
    (hsize : ∀ e ∈ b.slotRange n i, e.size < 2 ^ 63) (hoff : count + byteOffset < 2 ^ 32)
    (hk : s.k = 0 ∨ s.k = byteOffset ∧ s.readCount = 0) (hrc : s.readCount ≤ count) :
    (helperLoop b tmp data count byteOffset n i s).heap.fault = false ↔
      s.heap.fault = false ∧
        Faultless count byteOffset ((b.slotRange n i).map BufferEntry.size) s.k s.readCount := by
  induction n generalizing i s ls with
  | zero => simp [helperLoop, CircularBuffer.slotRange, Faultless]
  | succ n ih =>
      rw [helperLoop_succ _ _ _ n i s hsize hoff hk hrc]
      simp only [CircularBuffer.slotRange, List.mem_cons, forall_eq_or_imp] at hsize
      rw [CircularBuffer.slotRange, OwnedApart, List.forall₂_cons_left_iff] at o
      obtain ⟨l, ls', hel, htail, rfl⟩ := o
      rw [CircularBuffer.slotRange, List.map_cons, Faultless]
      split
      · simp
      · rename_i hcont
        split
        · rename_i hmore
          rw [ih (i + 1) _ ls' (w.helperCopy _ _ _ _) (OwnedApart.helperCopy htail _ _ _ _)
            hsize.2 (Or.inl rfl) (by dsimp only; omega), fault_helperCopy_owned w hel.1]
          refine and_congr_left fun _ => and_iff_left ?_
          omega
        · rename_i hfull
          rw [fault_helperCopy_owned w hel.1]
          refine and_congr_right fun _ => ?_
          omega

/-- A faultless run has put the lines' bytes, from byte `k` on, behind what was there. -/
theorem bytes_helperLoop (n i : Nat) (s : HelperState) (ls : List (List UInt8))
    (w : Scratch s.heap tmp data count) (o : OwnedApart s.heap tmp data (b.slotRange n i) ls)
    (hsize : ∀ e ∈ b.slotRange n i, e.size < 2 ^ 63) (hoff : count + byteOffset < 2 ^ 32)
    (hk : s.k = 0 ∨ s.k = byteOffset ∧ s.readCount = 0) (hrc : s.readCount ≤ count)
    (hin : ∀ l ∈ ls.head?, s.k ≤ l.length)
    (hfree : Faultless count byteOffset ((b.slotRange n i).map BufferEntry.size) s.k s.readCount) :
    (helperLoop b tmp data count byteOffset n i s).heap.bytesAt data 0
        (gathered count byteOffset ((b.slotRange n i).map BufferEntry.size) s.k s.readCount) =
      s.heap.bytesAt data 0 s.readCount ++ (ls.flatten.drop s.k).take
        (gathered count byteOffset ((b.slotRange n i).map BufferEntry.size) s.k s.readCount -
          s.readCount) := by
  induction n generalizing i s ls with
  | zero => simp [helperLoop, CircularBuffer.slotRange, gathered]
  | succ n ih =>
      rw [helperLoop_succ _ _ _ n i s hsize hoff hk hrc]
      simp only [CircularBuffer.slotRange, List.mem_cons, forall_eq_or_imp] at hsize
      rw [CircularBuffer.slotRange, OwnedApart, List.forall₂_cons_left_iff] at o
      obtain ⟨l, ls', hel, htail, rfl⟩ := o
      have hkl : s.k ≤ l.length := hin l rfl
      have hsl := hel.1.size
      have hdrop : (l :: ls').flatten.drop s.k = l.drop s.k ++ ls'.flatten := by
        rw [List.flatten_cons, List.drop_append_of_le_length hkl]
      rw [CircularBuffer.slotRange, List.map_cons, gathered] at *
      rw [Faultless] at hfree
      rw [hdrop]
      by_cases hstop : (b.slot i).size = 0 ∨ s.readCount = count
      · simp [if_pos hstop]
      · rw [if_neg hstop] at hfree
        simp only [if_neg hstop]
        by_cases hmore : s.readCount + (b.slot i).size < count
        · rw [if_pos hmore] at hfree
          simp only [if_pos hmore]
          have hge := gathered_ge count byteOffset
            ((b.slotRange n (i + 1)).map BufferEntry.size) 0
            (s.readCount + ((b.slot i).size - s.k)) (Or.inl rfl) (by omega)
          rw [ih (i + 1) _ ls' (w.helperCopy _ _ _ _) (OwnedApart.helperCopy htail _ _ _ _)
            hsize.2 (Or.inl rfl) (by dsimp only; omega) (by simp) hfree]
          dsimp only
          have hlen : (l.drop s.k).length = (b.slot i).size - s.k := by rw [List.length_drop, hsl]
          have hcopied : (l.drop s.k).take ((b.slot i).size - s.k) = l.drop s.k :=
            List.take_of_length_le hlen.le
          generalize gathered count byteOffset ((b.slotRange n (i + 1)).map BufferEntry.size) 0
            (s.readCount + ((b.slot i).size - s.k)) = total at hge ⊢
          have hall : (l.drop s.k).take (total - s.readCount) = l.drop s.k :=
            List.take_of_length_le (by omega)
          rw [bytes_helperCopy_owned w hel.1 hel.2.1 hel.2.2 _ _ _ (by omega), hcopied,
            List.append_assoc, List.drop_zero, List.take_append, hlen, ← Nat.sub_add_eq, hall]
        · rw [if_neg hmore] at hfree
          simp only [if_neg hmore]
          have hcount : count + byteOffset - s.k =
              s.readCount + (count - s.readCount + byteOffset - s.k) := by omega
          rw [hcount, bytes_helperCopy_owned w hel.1 hel.2.1 hel.2.2 _ _ _ (by omega),
            Nat.add_sub_cancel_left, List.take_append_of_le_length (by simp; omega)]

theorem head_helperLoop (n i : Nat) (h : Heap) {l : List UInt8} (hne : data ≠ tmp)
    (own : Owns h (b.slot i) l) (ht : (b.slot i).buffptr ≠ tmp) (hd : (b.slot i).buffptr ≠ data)
    (hsize : ∀ e ∈ b.slotRange (n + 1) i, e.size < 2 ^ 63) (hword : count + byteOffset < 2 ^ 32)
    (hoff : byteOffset < (b.slot i).size) (hcount : 0 < count) :
    let m := min count (l.length - byteOffset)
    m ≤ gathered count byteOffset ((b.slotRange (n + 1) i).map BufferEntry.size) byteOffset 0 ∧
      (helperLoop b tmp data count byteOffset (n + 1) i ⟨h, byteOffset, 0⟩).heap.bytesAt data 0 m =
        (l.drop byteOffset).take m := by
  intro m
  have hlen := own.size
  have hcopied : ∀ c, m ≤ c → ∀ j < m,
      (helperCopy (b.slot i).buffptr tmp data byteOffset 0 c h).load data (0 + j : Int) =
        h.load (b.slot i).buffptr (byteOffset + j : Int) := by
    intro c hc j hj
    rw [load_helperCopy_data _ _ _ _ _ _ _ _ hd ht hne, if_pos (by omega)]
    congr 1
    omega
  have hbytes : h.bytesAt (b.slot i).buffptr byteOffset m = (l.drop byteOffset).take m :=
    own.holds.bytesAt byteOffset m (by omega)
  have hround := helperLoop_succ tmp data byteOffset n i ⟨h, byteOffset, 0⟩ hsize hword
    (Or.inr ⟨rfl, rfl⟩) (Nat.zero_le _)
  dsimp only at hround
  rw [← hbytes, hround]
  simp only [CircularBuffer.slotRange, List.mem_cons, forall_eq_or_imp] at hsize
  have hcont : ¬ ((b.slot i).size = 0 ∨ 0 = count) := by omega
  rw [CircularBuffer.slotRange, List.map_cons, gathered, if_neg hcont, if_neg hcont]
  by_cases hmore : 0 + (b.slot i).size < count
  · rw [if_pos hmore, if_pos hmore]
    have hge := gathered_ge count byteOffset ((b.slotRange n (i + 1)).map BufferEntry.size) 0
      (0 + ((b.slot i).size - byteOffset)) (Or.inl rfl) (by omega)
    refine ⟨by omega, Heap.bytesAt_congr fun j hj => ?_⟩
    rw [load_helperLoop_lt _ _ _ _ _ _ hne hsize.2 hword (Or.inl rfl) (by dsimp only; omega) _
      (by dsimp only; omega)]
    exact hcopied _ (by omega) j hj
  · rw [if_neg hmore, if_neg hmore]
    exact ⟨by omega, Heap.bytesAt_congr fun j hj => hcopied _ (by omega) j hj⟩

end Owned

theorem faultless_zero (count byteOffset : Nat) (sizes : List Nat) (hpos : ∀ s ∈ sizes, 0 < s)
    (readCount : Nat) (hrc : readCount ≤ count) :
    Faultless count byteOffset sizes 0 readCount ↔
      readCount = count ∨ byteOffset = 0 ∨ readCount + sizes.sum < count := by
  induction sizes generalizing readCount with
  | nil =>
      simp only [Faultless, List.sum_nil, true_iff]
      omega
  | cons size sizes ih =>
      simp only [List.mem_cons, forall_eq_or_imp] at hpos
      rw [Faultless, List.sum_cons]
      split
      · simp only [true_iff]
        omega
      · split
        · rw [ih hpos.2 _ (by omega)]
          omega
        · omega

theorem gathered_zero (count byteOffset : Nat) (sizes : List Nat) (hpos : ∀ s ∈ sizes, 0 < s)
    (readCount : Nat) (hrc : readCount ≤ count)
    (hfree : Faultless count byteOffset sizes 0 readCount) :
    gathered count byteOffset sizes 0 readCount = min count (readCount + sizes.sum) := by
  induction sizes generalizing readCount with
  | nil =>
      simp only [gathered, List.sum_nil]
      omega
  | cons size sizes ih =>
      simp only [List.mem_cons, forall_eq_or_imp] at hpos
      rw [Faultless] at hfree
      rw [gathered, List.sum_cons]
      by_cases hstop : size = 0 ∨ readCount = count
      · rw [if_pos hstop]
        omega
      · rw [if_neg hstop] at hfree ⊢
        by_cases hmore : readCount + size < count
        · rw [if_pos hmore] at hfree ⊢
          rw [ih hpos.2 _ (by omega) hfree]
          omega
        · rw [if_neg hmore] at hfree ⊢
          omega

/-- A read of `count` bytes from byte `byteOffset` of the first entry stays in bounds: it
starts at the entry's first byte, or the entry covers it, or the entry is shorter than
`count` and the entries run out before `count` bytes. -/
def ReadFits (count byteOffset : Nat) (sizes : List Nat) : Prop :=
  byteOffset = 0 ∨ byteOffset + count ≤ sizes.headD 0 ∨
    sizes.headD 0 < count ∧ sizes.sum < byteOffset + count

instance (count byteOffset : Nat) (sizes : List Nat) :
    Decidable (ReadFits count byteOffset sizes) := inferInstanceAs (Decidable (_ ∨ _ ∨ _))

theorem faultless_iff {count byteOffset size : Nat} {sizes : List Nat} (hcount : 0 < count)
    (hoff : byteOffset < size) (hpos : ∀ s ∈ sizes, 0 < s) :
    Faultless count byteOffset (size :: sizes) byteOffset 0 ↔
      ReadFits count byteOffset (size :: sizes) := by
  rw [Faultless, ReadFits, List.headD_cons, List.sum_cons, if_neg (by omega)]
  split
  · rw [faultless_zero _ _ _ hpos _ (by omega)]
    omega
  · omega

theorem gathered_eq {count byteOffset size : Nat} {sizes : List Nat} (hcount : 0 < count)
    (hoff : byteOffset < size) (hpos : ∀ s ∈ sizes, 0 < s)
    (hfits : ReadFits count byteOffset (size :: sizes)) :
    gathered count byteOffset (size :: sizes) byteOffset 0 =
      min count ((size :: sizes).sum - byteOffset) := by
  have hfree := (faultless_iff hcount hoff hpos).mpr hfits
  rw [ReadFits, List.headD_cons, List.sum_cons] at hfits
  rw [Faultless, if_neg (by omega)] at hfree
  rw [gathered, if_neg (by omega), List.sum_cons]
  by_cases hmore : 0 + size < count
  · rw [if_pos hmore] at hfree ⊢
    rw [gathered_zero _ _ _ hpos _ (by omega) hfree]
    omega
  · rw [if_neg hmore]
    omega

def availableBytes (sizes : List Nat) : Nat := (sizes.takeWhile (· != 0)).sum

@[simp] theorem availableBytes_cons (size : Nat) (sizes : List Nat) :
    availableBytes (size :: sizes) = if size = 0 then 0 else size + availableBytes sizes := by
  by_cases h : size = 0 <;> simp [availableBytes, h]

theorem le_gathered_zero_iff (count byteOffset copied : Nat) (sizes : List Nat) (readCount : Nat)
    (hcopied : copied ≤ count) (hrc : readCount ≤ count) :
    copied ≤ gathered count byteOffset sizes 0 readCount ↔
      copied ≤ readCount + availableBytes sizes := by
  induction sizes generalizing readCount with
  | nil => simp [gathered, availableBytes]
  | cons size sizes ih =>
      rw [gathered, availableBytes_cons]
      by_cases h0 : size = 0
      · simp [h0]
      · by_cases hstop : readCount = count
        · rw [if_pos (Or.inr hstop)]
          omega
        · rw [if_neg (by tauto), if_neg h0]
          split
          · rw [ih _ (by omega)]
            omega
          · omega

theorem le_gathered_iff {count byteOffset copied : Nat} {sizes : List Nat} (hpos : 0 < copied)
    (hcopied : copied ≤ count) (hoff : byteOffset ≤ sizes.headD byteOffset) :
    copied ≤ gathered count byteOffset sizes byteOffset 0 ↔
      count ≤ sizes.headD 0 ∨ copied + byteOffset ≤ availableBytes sizes := by
  cases sizes with
  | nil =>
      simp only [gathered, availableBytes, List.headD_nil, List.takeWhile_nil, List.sum_nil]
      omega
  | cons size sizes =>
      rw [List.headD_cons] at hoff ⊢
      rw [gathered, availableBytes_cons]
      by_cases h0 : size = 0
      · simp only [h0, true_or, if_true]
        omega
      · rw [if_neg (by omega), if_neg h0]
        split
        · rw [le_gathered_zero_iff _ _ _ _ _ hcopied (by omega)]
          omega
        · omega

section Helper
variable {h : Heap} {b : CircularBuffer} {index1 index2 data count byteOffset size : Nat}
  {ls : List (List UInt8)} {sizes : List Nat}

theorem readHelper_extends (h : Heap) (b : CircularBuffer)
    (index1 index2 data count byteOffset : Nat) (init : Int → UInt8) (q : Nat) (hq : q < h.next)
    (hd : q ≠ data) :
    (readHelper h b index1 index2 data count byteOffset (some init)).1.block q = h.block q := by
  have hne : q ≠ h.next := by omega
  simp only [readHelper, kmalloc_some, Heap.alloc_fst]
  rw [block_helperLoop_of_ne _ _ _ _ _ _ _ hne hd]
  exact Heap.block_alloc_of_ne _ _ _ _ hne

@[simp] theorem next_readHelper (init : Int → UInt8) :
    (readHelper h b index1 index2 data count byteOffset (some init)).1.next = h.next + 1 := by
  simp only [readHelper, kmalloc_some, next_helperLoop, Heap.next_alloc]

theorem live_readHelper_data (init : Int → UInt8) (hd : data < h.next) :
    ((readHelper h b index1 index2 data count byteOffset (some init)).1.block data).live =
      (h.block data).live := by
  simp only [readHelper, kmalloc_some, live_helperLoop]
  rw [Heap.block_alloc_of_ne _ _ _ _ (by omega)]

theorem len_readHelper_data (init : Int → UInt8) (hd : data < h.next) :
    ((readHelper h b index1 index2 data count byteOffset (some init)).1.block data).len =
      (h.block data).len := by
  simp only [readHelper, kmalloc_some, len_helperLoop]
  rw [Heap.block_alloc_of_ne _ _ _ _ (by omega)]

theorem readHelper_owned (init : Int → UInt8)
    (own : List.Forall₂ (Owns h) (b.slotRange (index2 - index1) index1) ls)
    (hlive : (h.block data).live = true) (hlen : (h.block data).len = count)
    (hapart : ∀ e ∈ b.slotRange (index2 - index1) index1, e.buffptr ≠ data)
    (hfault : h.fault = false) (hcount : 0 < count)
    (hsize : ∀ e ∈ b.slotRange (index2 - index1) index1, e.size < 2 ^ 63)
    (hword : count + byteOffset < 2 ^ 32)
    (hsizes : (b.slotRange (index2 - index1) index1).map BufferEntry.size = size :: sizes)
    (hoff : byteOffset < size) (hpos : ∀ s ∈ sizes, 0 < s) :
    let r := readHelper h b index1 index2 data count byteOffset (some init)
    (r.1.fault = false ↔ ReadFits count byteOffset (size :: sizes)) ∧
      (ReadFits count byteOffset (size :: sizes) →
        r.2 = min count ((size :: sizes).sum - byteOffset) ∧
          r.1.bytesAt data 0 r.2 = (ls.flatten.drop byteOffset).take r.2) := by
  have hdata : data < h.next := h.lt_next_of_live data hlive
  have hk : toUint byteOffset = byteOffset := toUint_of_lt (by omega)
  have w : Scratch (h.alloc count init).2 h.next data count := by
    refine ⟨by omega, by simp, by simp, ?_, ?_⟩
    · rw [Heap.block_alloc_of_ne _ _ _ _ (by omega), hlive]
    · rw [Heap.block_alloc_of_ne _ _ _ _ (by omega), hlen]
  have o : OwnedApart (h.alloc count init).2 h.next data
      (b.slotRange (index2 - index1) index1) ls := by
    have hboth := (List.forall₂_and_left _ _).mpr ⟨hapart, own⟩
    refine List.Forall₂.imp (fun e l hel => ?_) hboth
    have hlt : e.buffptr < h.next := hel.2.holds.lt_next
    exact ⟨hel.2.of_block_eq (Heap.block_alloc_of_ne _ _ _ _ (by omega)), by omega, hel.1⟩
  have hin : ∀ l ∈ ls.head?, byteOffset ≤ l.length := by
    obtain ⟨e, es, hes, he, -⟩ := List.map_eq_cons_iff.mp hsizes
    rw [hes, List.forall₂_cons_left_iff] at own
    obtain ⟨l, ls, hel, -, rfl⟩ := own
    intro l' hl'
    cases hl'
    rw [← hel.size, he]
    exact hoff.le
  have hfault' := fault_helperLoop byteOffset (index2 - index1) index1
    ⟨(h.alloc count init).2, byteOffset, 0⟩ ls w o hsize (by omega) (Or.inr ⟨rfl, rfl⟩)
    (Nat.zero_le _)
  have hread := readCount_helperLoop h.next data byteOffset
    (index2 - index1) index1 ⟨(h.alloc count init).2, byteOffset, 0⟩ hsize (by omega)
    (Or.inr ⟨rfl, rfl⟩) (Nat.zero_le _)
  simp only [hsizes, faultless_iff hcount hoff hpos, Heap.fault_alloc, hfault, true_and] at hfault'
  simp only [hsizes] at hread
  simp only [readHelper, kmalloc_some, Heap.alloc_fst, hk]
  refine ⟨hfault', fun hfits => ?_⟩
  have hbytes := bytes_helperLoop byteOffset (index2 - index1) index1
    ⟨(h.alloc count init).2, byteOffset, 0⟩ ls w o hsize (by omega) (Or.inr ⟨rfl, rfl⟩)
    (Nat.zero_le _) hin (by rw [hsizes]; exact (faultless_iff hcount hoff hpos).mpr hfits)
  simp only [hsizes] at hbytes
  refine ⟨hread.trans (gathered_eq hcount hoff hpos hfits), ?_⟩
  rw [hread, hbytes]
  rfl

theorem readHelper_head (init : Int → UInt8) {l : List UInt8} (hindex : index1 < index2)
    (own : Owns h (b.slot index1) l) (hdata : data < h.next) (hapart : (b.slot index1).buffptr ≠ data)
    (hsize : ∀ e ∈ b.slotRange (index2 - index1) index1, e.size < 2 ^ 63)
    (hword : count + byteOffset < 2 ^ 32) (hoff : byteOffset < (b.slot index1).size)
    (hcount : 0 < count) :
    let r := readHelper h b index1 index2 data count byteOffset (some init)
    let m := min count (l.length - byteOffset)
    m ≤ r.2 ∧ r.2 ≤ count + byteOffset ∧
      r.1.bytesAt data 0 m = (l.drop byteOffset).take m := by
  have hk : toUint byteOffset = byteOffset := toUint_of_lt (by omega)
  have hlt : (b.slot index1).buffptr < h.next := own.holds.lt_next
  have own' := own.of_block_eq (Heap.block_alloc_of_ne h (b.slot index1).buffptr count init (by omega))
  have hread := readCount_helperLoop h.next data byteOffset (index2 - index1) index1
    ⟨(h.alloc count init).2, byteOffset, 0⟩ hsize hword (Or.inr ⟨rfl, rfl⟩) (Nat.zero_le _)
  dsimp only at hread
  simp only [readHelper, kmalloc_some, Heap.alloc_fst, hk]
  rw [hread]
  obtain ⟨n, hn⟩ : ∃ n, index2 - index1 = n + 1 := ⟨index2 - index1 - 1, by omega⟩
  rw [hn] at hsize ⊢
  have hne : data ≠ h.next := by omega
  have hsrc : (b.slot index1).buffptr ≠ h.next := by omega
  obtain ⟨hle, hbytes⟩ := head_helperLoop byteOffset n index1 (h.alloc count init).2 hne own'
    hsrc hapart hsize hword hoff hcount
  exact ⟨hle, gathered_le _ _ (Nat.zero_le _), hbytes⟩

/-- The copy helper stays in its buffers: with every entry of the range owning as many bytes as
it claims, no byte is read outside an entry or written outside the `count` bytes of the
scratch block and of `data`, and at most `count` bytes are reported, exactly when the
read fits. -/
theorem readHelper_inBounds_iff (init : Int → UInt8) (ls : List (List UInt8))
    (hindex : index1 < index2)
    (own : List.Forall₂ (Owns h) (b.slotRange (index2 - index1) index1) ls)
    (hnonempty : ∀ e ∈ b.slotRange (index2 - index1) index1, 0 < e.size)
    (hsize : ∀ e ∈ b.slotRange (index2 - index1) index1, e.size < 2 ^ 63)
    (hlive : (h.block data).live = true) (hlen : (h.block data).len = count)
    (hapart : ∀ e ∈ b.slotRange (index2 - index1) index1, e.buffptr ≠ data)
    (hfault : h.fault = false) (hcount : 0 < count) (hoff : byteOffset < (b.slot index1).size)
    (hword : count + byteOffset < 2 ^ 32) :
    let r := readHelper h b index1 index2 data count byteOffset (some init)
    r.1.fault = false ∧ r.2 ≤ count ↔ ReadFits count byteOffset
      ((b.slotRange (index2 - index1) index1).map BufferEntry.size) := by
  intro r
  have hcons : b.slotRange (index2 - index1) index1 =
      b.slot index1 :: b.slotRange (index2 - index1 - 1) (index1 + 1) := by
    rw [show index2 - index1 = index2 - index1 - 1 + 1 by omega, CircularBuffer.slotRange]
    rfl
  have hsizes := congrArg (List.map BufferEntry.size) hcons
  rw [List.map_cons] at hsizes
  have hpos : ∀ n ∈ (b.slotRange (index2 - index1 - 1) (index1 + 1)).map BufferEntry.size,
      0 < n := by
    intro n hn
    obtain ⟨e, he, rfl⟩ := List.mem_map.mp hn
    exact hnonempty e (by rw [hcons]; exact List.mem_cons_of_mem _ he)
  obtain ⟨hiff, hfits⟩ :=
    readHelper_owned init own hlive hlen hapart hfault hcount hsize hword hsizes hoff hpos
  rw [hsizes]
  refine ⟨fun hin => hiff.mp hin.1, fun hread => ⟨hiff.mpr hread, ?_⟩⟩
  rw [(hfits hread).1]
  exact Nat.min_le_left _ _

end Helper

def twoEntries : CircularBuffer :=
  { CircularBuffer.init with entry := #v[⟨1, 3⟩, ⟨2, 10⟩, ⟨0, 0⟩, ⟨0, 0⟩, ⟨0, 0⟩, ⟨0, 0⟩, ⟨0, 0⟩,
      ⟨0, 0⟩, ⟨0, 0⟩, ⟨0, 0⟩] }

def twoEntriesHeap (count : Nat) : Heap :=
  let h := (Heap.empty.alloc 3 fun i => 97 + i.toNat.toUInt8).2
  ((h.alloc 10 fun i => 48 + i.toNat.toUInt8).2.alloc count fun _ => 0).2

theorem twoEntries_owned (count : Nat) :
    List.Forall₂ (Owns (twoEntriesHeap count)) (twoEntries.slotRange 2 0)
      [[97, 98, 99], [48, 49, 50, 51, 52, 53, 54, 55, 56, 57]] :=
  .cons ⟨⟨rfl, rfl, rfl⟩, rfl⟩ (.cons ⟨⟨rfl, rfl, rfl⟩, rfl⟩ .nil)

theorem readHelper_inBounds_two :
    let r := readHelper (twoEntriesHeap 2) twoEntries 0 2 3 2 1 (some fun _ => 0)
    r.1.fault = false ∧ r.2 ≤ 2 :=
  (readHelper_inBounds_iff (fun _ => 0) _ (by decide) (twoEntries_owned 2) (by decide) (by decide)
    rfl rfl (by decide) rfl (by decide) (by decide) (by decide)).mpr (by decide)

/-- Five bytes from byte 1 of the first entry: four of the second one are written behind two. -/
theorem readHelper_overruns_five :
    let r := readHelper (twoEntriesHeap 5) twoEntries 0 2 3 5 1 (some fun _ => 0)
    ¬ (r.1.fault = false ∧ r.2 ≤ 5) := by
  decide +kernel

end Aesd

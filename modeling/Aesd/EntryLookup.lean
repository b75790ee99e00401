import Aesd.BufferRefinement
import Aesd.CharDevice
import Aesd.Lib.Concat
import Mathlib.Algebra.Order.BigOperators.Group.List
import Mathlib.Data.List.Rotate

/-! The position lookup on a ring: it finds the live entry and the byte that the
position has in the concatenation of the live entries, oldest first; and the range
of slots a read from there copies is a contiguous run of live entries. -/
namespace Aesd
open FixedWidth Concat

namespace CircularBuffer

def slotSizes (b : CircularBuffer) : List Nat := b.entry.toList.map BufferEntry.size

@[simp] theorem length_slotSizes (b : CircularBuffer) : b.slotSizes.length = 10 := by
  simp [slotSizes]

theorem rotate_slotSizes (b : CircularBuffer) {i : Nat} (hi : i < 10) :
    b.slotSizes.rotate i = (b.slot i).size :: (b.slotSizes.rotate (advance i)).take 9 := by
  have hadv : b.slotSizes.rotate (advance i) = b.slotSizes.rotate (i + 1) := by
    unfold advance maxWriteOperationsSupported
    split
    · rename_i hlast
      rw [hlast, ← b.length_slotSizes, List.rotate_length, List.rotate_zero]
    · rfl
  have hlen : (b.slotSizes.rotate i).length = 10 := by simp
  obtain ⟨x, l, hl⟩ :=
    List.exists_cons_of_length_pos (show 0 < (b.slotSizes.rotate i).length by omega)
  have hx : (b.slotSizes.rotate i)[0] = x := by simp [hl]
  rw [List.getElem_rotate] at hx
  rw [hadv, ← List.rotate_rotate, hl, List.rotate_cons_succ, List.rotate_zero]
  have hl9 : l.length = 9 := by
    rw [hl, List.length_cons] at hlen
    omega
  rw [List.take_left' hl9, ← hx]
  congr 1
  simp [slotSizes, slot_of_lt b hi, Nat.mod_eq_of_lt hi]

theorem sum_le_of_findLoop (b : CircularBuffer) (fuel i q : Nat) (hi : i < 10) (hfuel : fuel ≤ 10)
    (h : b.findLoop fuel i q = none) : ((b.slotSizes.rotate i).take fuel).sum ≤ q := by
  induction fuel generalizing i q with
  | zero => simp
  | succ fuel ih =>
      rw [findLoop] at h
      split at h
      · have hrest := ih (advance i) _ (advance_lt hi) (by omega) h
        rw [b.rotate_slotSizes hi, List.take_succ_cons, List.take_take, List.sum_cons,
          Nat.min_eq_left (by omega)]
        omega
      · cases h

theorem findLoop_inside (b : CircularBuffer) (fuel i q index rest : Nat) (hi : i < 10)
    (h : b.findLoop fuel i q = some (index, rest)) :
    index < 10 ∧ rest < (b.slot index).size := by
  induction fuel generalizing i q with
  | zero => cases h
  | succ fuel ih =>
      rw [findLoop] at h
      split at h
      · exact ih (advance i) _ (advance_lt hi) h
      · cases h
        exact ⟨hi, by omega⟩

theorem findLoop_isSome (b : CircularBuffer) {i q : Nat} (hi : i < 10) (hq : q < b.totalChars) :
    ∃ index rest, b.findLoop 10 i q = some (index, rest) := by
  cases h : b.findLoop 10 i q with
  | some found => exact ⟨found.1, found.2, rfl⟩
  | none =>
      have hsum := b.sum_le_of_findLoop 10 i q hi (Nat.le_refl _) h
      rw [List.take_of_length_le (by simp), (List.rotate_perm _ _).sum_eq] at hsum
      have htotal := b.totalChars_eq
      have hle : b.totalChars ≤ b.slotSizes.sum := by
        rw [htotal, slotSizes]
        unfold toSize
        omega
      omega

theorem findLoop_sum (b : CircularBuffer) (fuel i q index rest : Nat) (hi : i < 10)
    (hfuel : fuel ≤ 10) (h : b.findLoop fuel i q = some (index, rest)) :
    ∃ j < fuel, index = (i + j) % 10 ∧ ((b.slotSizes.rotate i).take j).sum + rest = q := by
  induction fuel generalizing i q with
  | zero => cases h
  | succ fuel ih =>
      rw [findLoop] at h
      split at h
      · rename_i hge
        obtain ⟨j, hj, hindex, hsum⟩ := ih (advance i) _ (advance_lt hi) (by omega) h
        refine ⟨j + 1, by omega, ?_, ?_⟩
        · rw [hindex]
          unfold advance maxWriteOperationsSupported
          split <;> omega
        · rw [b.rotate_slotSizes hi, List.take_succ_cons, List.take_take, List.sum_cons,
            Nat.min_eq_left (by omega)]
          omega
      · cases h
        exact ⟨0, Nat.succ_pos _, by omega, by simp⟩

theorem getElem_rotate_slotSizes (b : CircularBuffer) (i j : Nat)
    (hj : j < (b.slotSizes.rotate i).length) :
    (b.slotSizes.rotate i)[j] = (b.slot ((i + j) % 10)).size := by
  rw [List.getElem_rotate, b.slot_of_lt (Nat.mod_lt _ (by decide))]
  simp [slotSizes, Nat.add_comm]

/-- The test and the body of the `while` loop, from `index` and `offset_remaining`. -/
def searchPass (b : CircularBuffer) (s : Nat × Nat) : Option (Nat × Nat) :=
  if s.2 ≥ (b.slot s.1).size then some (advance s.1, toSize ((s.2 : Int) - (b.slot s.1).size))
  else none

def searched (b : CircularBuffer) (s : Nat × Nat) : Nat → Option (Nat × Nat)
  | 0 => some s
  | n + 1 => (b.searched s n).bind b.searchPass

/-- The loop is reached and ends within nine advances, where `findLoop` finds it; no index is outside
the array and `offset_remaining` is never less than what is taken from it. -/
structure SearchEnds (b : CircularBuffer) (charOffset : Nat) : Prop where
  ends : charOffset ≠ 0 → charOffset < b.totalChars → ∃ n ≤ 9, ∃ s,
    b.searched (b.outOffs, charOffset) n = some s ∧ b.searchPass s = none ∧
      b.findLoop maxWriteOperationsSupported b.outOffs charOffset = some s
  inside : ∀ n s, b.searched (b.outOffs, charOffset) n = some s → s.1 < 10
  exact : ∀ n s s', b.searched (b.outOffs, charOffset) n = some s → b.searchPass s = some s' →
    s'.2 + (b.slot s.1).size = s.2
  returns : b.findEntryOffsetForFpos charOffset ≠ .running

theorem searchPass_eq_some {b : CircularBuffer} {s s' : Nat × Nat} (hs : s.2 < 2 ^ 64)
    (h : b.searchPass s = some s') :
    s'.1 = advance s.1 ∧ s'.2 + (b.slot s.1).size = s.2 := by
  unfold searchPass at h
  split at h
  · rename_i hge
    rw [Option.some.injEq] at h
    have hword : toSize ((s.2 : Int) - (b.slot s.1).size) = s.2 - (b.slot s.1).size := by
      unfold toSize
      omega
    rw [← h, hword]
    exact ⟨rfl, by omega⟩
  · cases h

theorem searched_invariant {b : CircularBuffer} {s : Nat × Nat} (hi : s.1 < 10)
    (hs : s.2 < 2 ^ 64) (n : Nat) {t : Nat × Nat} (h : b.searched s n = some t) :
    t.1 < 10 ∧ t.2 < 2 ^ 64 := by
  induction n generalizing t with
  | zero =>
      cases h
      exact ⟨hi, hs⟩
  | succ n ih =>
      obtain ⟨u, hu, hpass⟩ := Option.bind_eq_some_iff.mp h
      obtain ⟨hindex, hword⟩ := ih hu
      obtain ⟨hnext, hrest⟩ := searchPass_eq_some hword hpass
      exact ⟨by rw [hnext]; exact advance_lt hindex, by omega⟩

theorem searched_succ (b : CircularBuffer) (s : Nat × Nat) (n : Nat) :
    b.searched s (n + 1) = (b.searchPass s).bind fun s' => b.searched s' n := by
  induction n with
  | zero => cases hpass : b.searchPass s <;> simp [searched, hpass]
  | succ n ih =>
      rw [searched, ih]
      cases b.searchPass s <;> rfl

/-- The loop with a bound on its tests runs like the one on words. -/
theorem findLoop_searched {b : CircularBuffer} (fuel i q : Nat) (hq : q < 2 ^ 64)
    {found : Nat × Nat} (h : b.findLoop fuel i q = some found) :
    ∃ n < fuel, b.searched (i, q) n = some found ∧ b.searchPass found = none := by
  induction fuel generalizing i q with
  | zero => cases h
  | succ fuel ih =>
      rw [findLoop] at h
      split at h
      · rename_i hge
        obtain ⟨n, hn, hrun, hlast⟩ := ih (advance i) _ (by omega) h
        refine ⟨n + 1, by omega, ?_, hlast⟩
        have hword : toSize ((q : Int) - (b.slot i).size) = q - (b.slot i).size := by
          unfold toSize
          omega
        rw [searched_succ, searchPass, if_pos hge, Option.bind_some, hword]
        exact hrun
      · rename_i hlt
        rw [Option.some.injEq] at h
        subst h
        exact ⟨0, Nat.succ_pos _, rfl, if_neg hlt⟩

/-- The lookup ends on any contents of the ten slots: the guard compares the position with a sum
that may have wrapped, which is never more than what the loop passes over in nine advances
and one more test, whatever slot it starts at. -/
theorem search_ends (b : CircularBuffer) (hout : b.outOffs < 10) (charOffset : Nat)
    (hoffset : charOffset < 2 ^ 64) : b.SearchEnds charOffset where
  ends _ hlt := by
    obtain ⟨index, rest, hfound⟩ := b.findLoop_isSome hout hlt
    obtain ⟨n, hn, hrun, hlast⟩ := findLoop_searched 10 b.outOffs charOffset hoffset hfound
    exact ⟨n, by omega, (index, rest), hrun, hlast, hfound⟩
  inside n s hrun := (searched_invariant (s := (b.outOffs, charOffset)) hout hoffset n hrun).1
  exact n s s' hrun hpass :=
    have hword := searched_invariant (s := (b.outOffs, charOffset)) hout hoffset n hrun
    (searchPass_eq_some hword.2 hpass).2
  returns := by
    unfold findEntryOffsetForFpos
    split
    · exact Lookup.noConfusion
    · split
      · exact Lookup.noConfusion
      · rename_i hlt
        obtain ⟨index, rest, hfound⟩ := b.findLoop_isSome hout (Nat.lt_of_not_le hlt)
        have hten : b.findLoop maxWriteOperationsSupported b.outOffs charOffset =
            some (index, rest) := hfound
        rw [hten]
        exact Lookup.noConfusion

theorem search_ends_wrapped :
    (⟨Vector.replicate 10 ⟨0, 2 ^ 63 + 7⟩ |>.set 0 ⟨0, 2 ^ 63 - 56⟩, 3, 3, true, 0⟩ :
      CircularBuffer).SearchEnds 5 :=
  search_ends _ (by decide) 5 (by decide)

end CircularBuffer

theorem readStart_inside (stale : Nat) (b : CircularBuffer) (hout : b.outOffs < 10) {pos : Int}
    (hl : -2 ^ 63 ≤ pos) (hu : pos < 2 ^ 63) :
    ∃ index off, readStart stale b pos = some (index, off) ∧ index < 10 ∧
      off ≤ (b.slot index).size := by
  unfold readStart
  split
  · rename_i hne
    have hword : toSize pos ≠ 0 := by
      unfold toSize
      omega
    unfold CircularBuffer.findEntryOffsetForFpos
    rw [if_neg hword]
    by_cases hnull : b.totalChars ≤ toSize pos
    · rw [if_pos hnull]
      exact ⟨0, 0, rfl, by omega, Nat.zero_le _⟩
    · obtain ⟨index, rest, hfound⟩ := b.findLoop_isSome hout (q := toSize pos) (by omega)
      obtain ⟨hindex, hrest⟩ := b.findLoop_inside _ _ _ _ _ hout hfound
      refine ⟨index, rest, ?_, hindex, hrest.le⟩
      have hten : b.findLoop maxWriteOperationsSupported b.outOffs (toSize pos) =
          some (index, rest) := hfound
      rw [if_neg hnull, hten]
      simp [Nat.ne_of_lt hrest]
  · exact ⟨b.outOffs, 0, rfl, hout, Nat.zero_le _⟩

namespace CircularBuffer

theorem totalChars_eq_mod (b : CircularBuffer) : b.totalChars = b.slotSizes.sum % 2 ^ 64 := by
  rw [b.totalChars_eq, slotSizes]
  unfold toSize
  omega

/-- A read at position `p` starts at byte `off` of slot `i`. At position 0 that is the first byte of
slot `out_offs`; where the sizes of all ten slots, added up in 64 bits, do not reach beyond `p`, the
first byte of slot 0; and elsewhere it is where `p` lies in the slots laid end to end from slot
`out_offs` on. A position is taken for a `size_t`. -/
def Starts (b : CircularBuffer) (p : Int) (i off : Nat) : Prop :=
  if p = 0 then i = b.outOffs ∧ off = 0
  else if b.slotSizes.sum % 2 ^ 64 ≤ (p % 2 ^ 64).toNat then i = 0 ∧ off = 0
  else ∃ j < 10, i = (b.outOffs + j) % 10 ∧ off < (b.slot i).size ∧
    ((b.slotSizes.rotate b.outOffs).take j).sum + off = (p % 2 ^ 64).toNat

instance (b : CircularBuffer) (p : Int) (i off : Nat) : Decidable (b.Starts p i off) :=
  inferInstanceAs (Decidable (ite _ _ _))

/-- Slot `m` is not before slot `i`, and both are in one stretch of slots that are read in the order
of the array: those below `in_offs`, or in a full buffer those up to the end of the array or,
in front of `out_offs`, up to that. -/
def Follows (b : CircularBuffer) (i m : Nat) : Prop :=
  i ≤ m ∧ if b.full then b.outOffs ≤ i ∨ m < b.outOffs else m < b.inOffs

instance (b : CircularBuffer) (i m : Nat) : Decidable (b.Follows i m) :=
  inferInstanceAs (Decidable (_ ∧ _))

def stretch (b : CircularBuffer) (i : Nat) : List Nat :=
  ((List.range maxWriteOperationsSupported).filter (b.Follows i)).map fun m => (b.slot m).size

theorem Starts.unique {b : CircularBuffer} {p : Int} {i i' off off' : Nat} (h : b.Starts p i off)
    (h' : b.Starts p i' off') : i' = i ∧ off' = off := by
  unfold Starts at h h'
  split at h
  · rename_i hzero
    rw [if_pos hzero] at h'
    exact ⟨h'.1.trans h.1.symm, h'.2.trans h.2.symm⟩
  · rename_i hzero
    rw [if_neg hzero] at h'
    split at h
    · rename_i hguard
      rw [if_pos hguard] at h'
      exact ⟨h'.1.trans h.1.symm, h'.2.trans h.2.symm⟩
    · rename_i hguard
      rw [if_neg hguard] at h'
      obtain ⟨j, hj, rfl, hoff, hsum⟩ := h
      obtain ⟨j', hj', rfl, hoff', hsum'⟩ := h'
      have hlocate : ∀ j < 10, ∀ off < (b.slot ((b.outOffs + j) % 10)).size,
          ((b.slotSizes.rotate b.outOffs).take j).sum + off = (p % 2 ^ 64).toNat →
          locate (b.slotSizes.rotate b.outOffs) (p % 2 ^ 64).toNat = some (j, off) := by
        intro j hj off hoff hsum
        have hlen : j < (b.slotSizes.rotate b.outOffs).length := by simpa using hj
        exact (locate_eq_some_iff _ _ _ _).mpr
          ⟨hlen, by rw [b.getElem_rotate_slotSizes]; exact hoff, hsum⟩
      have heq := (hlocate j hj off hoff hsum).symm.trans (hlocate j' hj' off' hoff' hsum')
      rw [Option.some.injEq, Prod.mk.injEq] at heq
      obtain ⟨rfl, rfl⟩ := heq
      exact ⟨rfl, rfl⟩

end CircularBuffer

theorem starts_of_readStart {stale : Nat} {b : CircularBuffer} (hout : b.outOffs < 10) {p : Int}
    (hl : -2 ^ 63 ≤ p) (hu : p < 2 ^ 63) {i off : Nat} (h : readStart stale b p = some (i, off)) :
    b.Starts p i off := by
  unfold readStart at h
  unfold CircularBuffer.Starts
  by_cases hzero : p = 0
  · rw [if_neg (not_not_intro hzero)] at h
    cases h
    rw [if_pos hzero]
    exact ⟨rfl, rfl⟩
  · rw [if_pos hzero] at h
    rw [if_neg hzero]
    have hword : toSize p = (p % 2 ^ 64).toNat := rfl
    have htotal := b.totalChars_eq_mod
    have hne : toSize p ≠ 0 := by
      unfold toSize
      omega
    rw [CircularBuffer.findEntryOffsetForFpos, if_neg hne, htotal, hword] at h
    by_cases hguard : b.slotSizes.sum % 2 ^ 64 ≤ (p % 2 ^ 64).toNat
    · rw [if_pos hguard] at h
      cases h
      rw [if_pos hguard]
      exact ⟨rfl, rfl⟩
    · rw [if_neg hguard] at h
      rw [if_neg hguard]
      obtain ⟨index, rest, hfound⟩ :=
        b.findLoop_isSome (q := (p % 2 ^ 64).toNat) hout (by rw [htotal]; omega)
      obtain ⟨-, hrest⟩ := b.findLoop_inside _ _ _ _ _ hout hfound
      obtain ⟨j, hj, hindex, hsum⟩ := b.findLoop_sum _ _ _ _ _ hout (Nat.le_refl _) hfound
      have hten : b.findLoop maxWriteOperationsSupported b.outOffs (p % 2 ^ 64).toNat =
          some (index, rest) := hfound
      rw [hten] at h
      simp only [Nat.ne_of_lt hrest, if_false, Option.getD_some, Option.some.injEq,
        Prod.mk.injEq] at h
      obtain ⟨rfl, rfl⟩ := h
      exact ⟨j, hj, hindex, hrest, hsum⟩

/-- Where a read starts is where its position lies. -/
theorem readStart_eq_some_iff {stale : Nat} {b : CircularBuffer} (hout : b.outOffs < 10) {p : Int}
    (hl : -2 ^ 63 ≤ p) (hu : p < 2 ^ 63) {i off : Nat} :
    readStart stale b p = some (i, off) ↔ b.Starts p i off := by
  refine ⟨starts_of_readStart hout hl hu, fun h => ?_⟩
  obtain ⟨i', off', hstart, -⟩ := readStart_inside stale b hout hl hu
  obtain ⟨rfl, rfl⟩ := (starts_of_readStart hout hl hu hstart).unique h
  exact hstart

theorem follows_iff (b : CircularBuffer) (i m : Nat) (hm : m < 10) :
    b.Follows i m ↔ i ≤ m ∧ m < readStop b i := by
  unfold CircularBuffer.Follows readStop maxWriteOperationsSupported
  cases b.full
  · simp
  · by_cases hi : b.outOffs ≤ i
    · simp [hi, hm]
    · simp [hi]

theorem slotRange_eq_map (b : CircularBuffer) (n i : Nat) :
    b.slotRange n i = (List.range' i n).map b.slot := by
  induction n generalizing i with
  | zero => rfl
  | succ n ih => rw [CircularBuffer.slotRange, ih, List.range'_succ, List.map_cons]

theorem filter_range_eq_range' (i stop n : Nat) (hstop : stop ≤ n) :
    ((List.range n).filter fun m => decide (i ≤ m ∧ m < stop)) = List.range' i (stop - i) := by
  induction n generalizing stop with
  | zero => simp [Nat.le_zero.mp hstop]
  | succ n ih =>
      rw [List.range_succ, List.filter_append]
      obtain hle | rfl := Nat.le_or_eq_of_le_succ hstop
      · rw [ih stop hle, List.filter_cons_of_neg (by simp; omega), List.filter_nil, List.append_nil]
      · have hsame : ((List.range n).filter fun m => decide (i ≤ m ∧ m < n + 1)) =
            (List.range n).filter fun m => decide (i ≤ m ∧ m < n) := by
          refine List.filter_congr fun m hm => ?_
          have hlt := List.mem_range.mp hm
          simp [hlt, Nat.lt_succ_of_lt hlt]
        rw [hsame, ih n (Nat.le_refl n)]
        by_cases hi : i ≤ n
        · rw [List.filter_cons_of_pos (by simpa using hi), Nat.succ_sub hi, List.range'_concat]
          simp [Nat.add_sub_cancel' hi]
        · rw [List.filter_cons_of_neg (by simpa using hi), Nat.sub_eq_zero_of_le (by omega),
            Nat.sub_eq_zero_of_le (by omega)]
          rfl

theorem stretch_eq (b : CircularBuffer) (hin : b.inOffs < 10) (hout : b.outOffs < 10) (i : Nat) :
    b.stretch i = (b.slotRange (readStop b i - i) i).map BufferEntry.size := by
  have hstop : readStop b i ≤ 10 := by
    unfold readStop maxWriteOperationsSupported
    split
    · omega
    · split <;> omega
  have hfilter : (List.range 10).filter (b.Follows i) =
      (List.range 10).filter fun m => decide (i ≤ m ∧ m < readStop b i) :=
    List.filter_congr fun m hm => decide_eq_decide.mpr (follows_iff b i m (List.mem_range.mp hm))
  rw [CircularBuffer.stretch, hfilter, filter_range_eq_range' _ _ _ hstop, slotRange_eq_map,
    List.map_map]
  rfl

def sizes (r : RingBuffer BufferEntry 10) : List Nat := r.live.map BufferEntry.size

@[simp] theorem length_sizes (r : RingBuffer BufferEntry 10) : (sizes r).length = r.count := by
  simp [sizes]

def startOf (ss : List Nat) (p : Nat) : Option (Nat × Nat) :=
  if p = 0 then some (0, 0) else locate ss p

def backCount (r : RingBuffer BufferEntry 10) : Nat := if r.full then 10 - r.outOffs else r.count

def segmentEnd (r : RingBuffer BufferEntry 10) (j : Nat) : Nat :=
  if j < backCount r then backCount r else r.count

theorem count_of_full {r : RingBuffer BufferEntry 10} (hf : r.full = true) : r.count = 10 := by
  simp [RingBuffer.count, hf]

theorem count_of_not_full {r : RingBuffer BufferEntry 10} (hf : r.full = false) :
    r.count = r.inOffs := by
  simp [RingBuffer.count, hf]

theorem backCount_le (r : RingBuffer BufferEntry 10) : backCount r ≤ r.count := by
  unfold backCount
  split
  · rename_i hf
    rw [count_of_full hf]
    omega
  · exact Nat.le_refl _

theorem segmentEnd_le (r : RingBuffer BufferEntry 10) (j : Nat) : segmentEnd r j ≤ r.count := by
  have := backCount_le r
  unfold segmentEnd
  split <;> omega

theorem lt_segmentEnd {r : RingBuffer BufferEntry 10} {j : Nat} (hj : j < r.count) :
    j < segmentEnd r j := by
  unfold segmentEnd
  split <;> omega

theorem place_val (r : RingBuffer BufferEntry 10) (j : Nat) :
    (r.place j).val = (r.outOffs + j) % 10 := rfl

theorem advance_place (r : RingBuffer BufferEntry 10) (j : Nat) :
    CircularBuffer.advance (r.place j).val = (r.place (j + 1)).val := by
  unfold CircularBuffer.advance maxWriteOperationsSupported
  rw [place_val, place_val]
  split <;> omega

theorem place_add {r : RingBuffer BufferEntry 10} {j m : Nat} (hj : j < r.count)
    (hm : j + m < segmentEnd r j) : (r.place (j + m)).val = (r.place j).val + m := by
  have hin := r.inOffs_lt
  have hout := r.outOffs_lt
  rw [place_val, place_val]
  unfold segmentEnd backCount at hm
  cases hf : r.full
  · have h0 := r.outOffs_zero hf
    have hc := count_of_not_full hf
    simp only [hf, Bool.false_eq_true, if_false, ite_self] at hm
    omega
  · have hc := count_of_full hf
    simp only [hf, if_true] at hm
    split at hm <;> omega

theorem sum_slots_le (r : RingBuffer BufferEntry 10) {n : Nat} (h : ∀ i, (r.slot i).size ≤ n) :
    (r.slots.toList.map BufferEntry.size).sum ≤ 10 * n := by
  have hall : ∀ x ∈ r.slots.toList.map BufferEntry.size, x ≤ n := by
    intro x hx
    obtain ⟨e, he, rfl⟩ := List.mem_map.mp hx
    obtain ⟨i, hi, rfl⟩ := List.getElem_of_mem he
    have hle := h ⟨i, by simpa using hi⟩
    simp only [RingBuffer.slot, Fin.getElem_fin, Vector.getElem_toList] at hle ⊢
    exact hle
  have hsum := List.sum_le_card_nsmul _ _ hall
  simpa using hsum

namespace Mirrors
variable {b : CircularBuffer} {r : RingBuffer BufferEntry 10}

theorem used_place (h : Mirrors b r) {j : Nat} (hj : j < r.count) :
    b.full = true ∨ (r.place j).val < b.inOffs := by
  rw [h.full, h.inOffs]
  cases hf : r.full
  · rw [count_of_not_full hf] at hj
    have hin := r.inOffs_lt
    rw [place_val, r.outOffs_zero hf]
    exact Or.inr (by omega)
  · exact Or.inl rfl

theorem drop_sizes (h : Mirrors b r) {j : Nat} (hj : j < r.count) :
    (sizes r).drop j = (b.slot (r.place j)).size :: (sizes r).drop (j + 1) := by
  have hlen : j < (sizes r).length := by simpa using hj
  rw [List.drop_eq_getElem_cons hlen, h.slot]
  congr 1
  simp [sizes, RingBuffer.getElem_live]

theorem findLoop_locate (h : Mirrors b r) (fuel j remaining m byte : Nat)
    (hloc : locate ((sizes r).drop j) remaining = some (m, byte)) (hfuel : m < fuel) :
    b.findLoop fuel (r.place j) remaining = some ((r.place (j + m)).val, byte) := by
  induction fuel generalizing j remaining m with
  | zero => omega
  | succ fuel ih =>
      have hj : j < r.count := by
        by_contra hge
        rw [List.drop_eq_nil_of_le (by rw [length_sizes]; omega)] at hloc
        cases hloc
      rw [h.drop_sizes hj, locate] at hloc
      rw [CircularBuffer.findLoop]
      split at hloc
      · rename_i hlt
        cases hloc
        rw [if_neg (by omega), Nat.add_zero]
      · rename_i hge
        obtain ⟨⟨m', byte'⟩, hrest, heq⟩ := Option.map_eq_some_iff.mp hloc
        cases heq
        rw [if_pos (by omega), advance_place, ih (j + 1) _ m' hrest (by omega)]
        simp only [Nat.add_assoc, Nat.add_comm 1]

theorem totalChars_eq_sum (h : Mirrors b r)
    (hslots : (r.slots.toList.map BufferEntry.size).sum < 2 ^ 64) :
    b.totalChars = (r.slots.toList.map BufferEntry.size).sum := by
  rw [b.totalChars_eq, h.entry, toSize_of_lt hslots]

theorem find_of_lt_totalChars (h : Mirrors b r) {p j byte : Nat} (hp : p ≠ 0)
    (hlt : p < b.totalChars) (hloc : locate (sizes r) p = some (j, byte)) :
    b.findEntryOffsetForFpos p = .entry (r.place j) (some byte) := by
  obtain ⟨hj, hbyte, -⟩ := (locate_eq_some_iff _ _ _ _).mp hloc
  have hstart : b.outOffs = (r.place 0).val := by
    rw [h.outOffs, place_val, Nat.add_zero, Nat.mod_eq_of_lt r.outOffs_lt]
  have hcount := r.count_le
  rw [length_sizes] at hj
  have hsize : byte < (b.slot (r.place j)).size := by
    have hd := h.drop_sizes hj
    rw [List.drop_eq_getElem_cons (by rw [length_sizes]; exact hj)] at hd
    rw [← (List.cons.inj hd).1]
    exact hbyte
  rw [CircularBuffer.findEntryOffsetForFpos, if_neg hp, if_neg (by omega), hstart,
    h.findLoop_locate 10 0 p j byte (by simpa using hloc) (by omega)]
  simp only [Nat.zero_add]
  rw [if_neg (by omega)]

theorem readStart_of_startOf (h : Mirrors b r) (stale : Nat) {p j byte : Nat}
    (hguard : p = 0 ∨ p < b.totalChars) (hp : p < 2 ^ 64)
    (hstart : startOf (sizes r) p = some (j, byte)) :
    readStart stale b p = some ((r.place j).val, byte) := by
  unfold startOf at hstart
  unfold readStart
  split at hstart
  · rename_i h0
    cases hstart
    rw [if_neg (by simp [h0]), h.outOffs, place_val, Nat.add_zero,
      Nat.mod_eq_of_lt r.outOffs_lt]
  · rename_i h0
    rw [if_pos (by omega), toSize_of_lt hp,
      h.find_of_lt_totalChars h0 (hguard.resolve_left h0) hstart]
    rfl

theorem slotRange_segment (h : Mirrors b r) {j : Nat} (hj : j < r.count) :
    b.slotRange (readStop b (r.place j) - r.place j) (r.place j) =
      (r.live.take (segmentEnd r j)).drop j := by
  have hin := r.inOffs_lt
  have hout := r.outOffs_lt
  have hle := segmentEnd_le r j
  have hlen : readStop b (r.place j) - (r.place j).val = segmentEnd r j - j := by
    unfold readStop segmentEnd backCount maxWriteOperationsSupported
    rw [h.full, h.inOffs, h.outOffs, place_val]
    cases hf : r.full
    · have h0 := r.outOffs_zero hf
      have hc := count_of_not_full hf
      simp only [Bool.not_false, if_true, Bool.false_eq_true, if_false, ite_self]
      omega
    · have hc := count_of_full hf
      simp only [Bool.not_true, Bool.false_eq_true, if_false, if_true]
      split <;> split <;> omega
  apply List.ext_getElem
  · simp only [CircularBuffer.length_slotRange, hlen, List.length_drop, List.length_take,
      RingBuffer.length_live]
    omega
  · intro m h₁ h₂
    have hm : j + m < segmentEnd r j := by
      rw [CircularBuffer.length_slotRange, hlen] at h₁
      omega
    simp only [CircularBuffer.getElem_slotRange, List.getElem_drop, List.getElem_take,
      RingBuffer.getElem_live]
    rw [← place_add hj hm, h.slot]

end Mirrors
end Aesd

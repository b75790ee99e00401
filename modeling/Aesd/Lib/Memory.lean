import Aesd.Lib.FixedWidth
import Mathlib.Logic.Function.Basic
import Mathlib.Data.List.Basic
import Mathlib.Tactic.Common

/-! A heap of separately allocated blocks. A pointer is a block's number and 0 is
the null pointer; a block is never handed out twice. An access outside a block's
requested length, or to a block that is not live, is carried out on whatever bytes
lie there and recorded in `fault`, so one model serves both questions: which bytes
end up where, and whether every access was within a live block. `allocated` and `freed` log
the calls of `alloc` and `free` in their order. -/
namespace Memory
open FixedWidth

structure Block where
  len : Nat
  live : Bool
  bytes : Int → UInt8

structure Heap where
  next : Nat
  block : Nat → Block
  fault : Bool
  allocated : List Nat
  freed : List Nat
  next_pos : 0 < next
  dead : ∀ p, p = 0 ∨ next ≤ p → (block p).live = false

namespace Heap

def empty : Heap where
  next := 1
  block := fun _ => ⟨0, false, fun _ => 0⟩
  fault := false
  allocated := []
  freed := []
  next_pos := by decide
  dead := fun _ _ => rfl

def ok (h : Heap) (p : Nat) (i : Int) : Bool :=
  (h.block p).live && (decide (0 ≤ i) && decide (i < (h.block p).len))

def load (h : Heap) (p : Nat) (i : Int) : UInt8 := (h.block p).bytes i

def check (h : Heap) (p : Nat) (i : Int) : Heap := { h with fault := h.fault || !h.ok p i }

def store (h : Heap) (p : Nat) (i : Int) (b : UInt8) : Heap where
  next := h.next
  block := Function.update h.block p
    { h.block p with bytes := Function.update (h.block p).bytes i b }
  fault := h.fault || !h.ok p i
  allocated := h.allocated
  freed := h.freed
  next_pos := h.next_pos
  dead q hq := by
    by_cases hqp : q = p
    · subst hqp
      simpa using h.dead q hq
    · simpa [hqp] using h.dead q hq

def move (h : Heap) (src : Nat) (i : Int) (dst : Nat) (j : Int) : Heap :=
  (h.check src i).store dst j (h.load src i)

def moves (src : Nat) (s : Int) (dst : Nat) (d : Int) (n : Nat) (h : Heap) : Heap :=
  rounds (fun i h => h.move src (s + i) dst (d + i)) n h

def storeList (p : Nat) : Int → List UInt8 → Heap → Heap
  | _, [], h => h
  | i, b :: l, h => storeList p (i + 1) l (h.store p i b)

/-- A block of no bytes is not logged. -/
def alloc (h : Heap) (n : Nat) (init : Int → UInt8) : Nat × Heap :=
  (h.next,
    { next := h.next + 1
      block := Function.update h.block h.next ⟨n, true, init⟩
      fault := h.fault
      allocated := if 0 < n then h.allocated ++ [h.next] else h.allocated
      freed := h.freed
      next_pos := Nat.succ_pos _
      dead := fun q hq => by
        have hne : q ≠ h.next := by
          have := h.next_pos
          omega
        rw [Function.update_of_ne hne]
        exact h.dead q (by omega) })

/-- Freeing the null pointer does nothing; freeing a block that is not live is a fault. -/
def free (h : Heap) (p : Nat) : Heap :=
  if p = 0 then h else
    { next := h.next
      block := Function.update h.block p { h.block p with live := false }
      fault := h.fault || !(h.block p).live
      allocated := h.allocated
      freed := h.freed ++ [p]
      next_pos := h.next_pos
      dead := fun q hq => by
        by_cases hqp : q = p
        · subst hqp
          simp
        · simpa [hqp] using h.dead q hq }

def okRange (h : Heap) (p : Nat) (i : Int) (n : Nat) : Bool :=
  decide (n = 0) || ((h.block p).live && (decide (0 ≤ i) && decide (i + n ≤ (h.block p).len)))

def checkRange (h : Heap) (p : Nat) (i : Int) (n : Nat) : Heap :=
  { h with fault := h.fault || !h.okRange p i n }

def bytesAt (h : Heap) (p : Nat) (i : Int) (n : Nat) : List UInt8 :=
  (List.range n).map fun j : Nat => h.load p (i + j)

variable (h : Heap) (p q : Nat) (i j : Int) (b : UInt8)

@[simp] theorem next_check : (h.check p i).next = h.next := rfl
@[simp] theorem block_check : (h.check p i).block = h.block := rfl
@[simp] theorem load_check : (h.check p i).load q j = h.load q j := rfl
@[simp] theorem ok_check : (h.check p i).ok q j = h.ok q j := rfl
@[simp] theorem fault_check : (h.check p i).fault = (h.fault || !h.ok p i) := rfl
@[simp] theorem allocated_check : (h.check p i).allocated = h.allocated := rfl
@[simp] theorem freed_check : (h.check p i).freed = h.freed := rfl

@[simp] theorem next_store : (h.store p i b).next = h.next := rfl
@[simp] theorem fault_store : (h.store p i b).fault = (h.fault || !h.ok p i) := rfl
@[simp] theorem allocated_store : (h.store p i b).allocated = h.allocated := rfl
@[simp] theorem freed_store : (h.store p i b).freed = h.freed := rfl

@[simp] theorem live_store : ((h.store p i b).block q).live = (h.block q).live := by
  by_cases hqp : q = p
  · subst hqp
    simp [store]
  · simp [store, hqp]

@[simp] theorem len_store : ((h.store p i b).block q).len = (h.block q).len := by
  by_cases hqp : q = p
  · subst hqp
    simp [store]
  · simp [store, hqp]

@[simp] theorem ok_store : (h.store p i b).ok q j = h.ok q j := by
  simp only [ok, live_store, len_store]

theorem load_store :
    (h.store p i b).load q j = if q = p ∧ j = i then b else h.load q j := by
  by_cases hqp : q = p
  · subst hqp
    by_cases hji : j = i
    · simp [load, store, hji]
    · simp [load, store, hji]
  · simp [load, store, hqp]

theorem block_store_of_ne (hne : q ≠ p) : (h.store p i b).block q = h.block q := by
  simp [store, hne]

@[simp] theorem next_move : (h.move p i q j).next = h.next := rfl
@[simp] theorem allocated_move : (h.move p i q j).allocated = h.allocated := rfl
@[simp] theorem freed_move : (h.move p i q j).freed = h.freed := rfl

@[simp] theorem live_move (r : Nat) : ((h.move p i q j).block r).live = (h.block r).live := by
  simp [move]

@[simp] theorem len_move (r : Nat) : ((h.move p i q j).block r).len = (h.block r).len := by
  simp [move]

@[simp] theorem ok_move (r : Nat) (k : Int) : (h.move p i q j).ok r k = h.ok r k := by
  simp [move]

@[simp] theorem fault_move :
    (h.move p i q j).fault = (h.fault || !h.ok p i || !h.ok q j) := by
  simp [move]

theorem load_move (r : Nat) (k : Int) :
    (h.move p i q j).load r k = if r = q ∧ k = j then h.load p i else h.load r k := by
  simp [move, load_store]

theorem block_move_of_ne (r : Nat) (hne : r ≠ q) : (h.move p i q j).block r = h.block r := by
  simp [move, block_store_of_ne _ _ _ _ _ hne]

@[simp] theorem alloc_fst (n : Nat) (init : Int → UInt8) : (h.alloc n init).1 = h.next := rfl
@[simp] theorem next_alloc (n : Nat) (init : Int → UInt8) :
    (h.alloc n init).2.next = h.next + 1 := rfl
@[simp] theorem fault_alloc (n : Nat) (init : Int → UInt8) :
    (h.alloc n init).2.fault = h.fault := rfl

theorem allocated_alloc (n : Nat) (init : Int → UInt8) :
    (h.alloc n init).2.allocated = h.allocated ++ if 0 < n then [h.next] else [] := by
  unfold alloc
  dsimp only
  split
  · rfl
  · exact (List.append_nil _).symm

@[simp] theorem block_alloc_self (n : Nat) (init : Int → UInt8) :
    (h.alloc n init).2.block h.next = ⟨n, true, init⟩ := by
  simp [alloc]

theorem block_alloc_of_ne (n : Nat) (init : Int → UInt8) (hne : q ≠ h.next) :
    (h.alloc n init).2.block q = h.block q := by
  simp [alloc, hne]

theorem load_alloc_of_ne (n : Nat) (init : Int → UInt8) (hne : q ≠ h.next) :
    (h.alloc n init).2.load q j = h.load q j := by
  rw [load, block_alloc_of_ne _ _ _ _ hne, load]

@[simp] theorem next_free : (h.free p).next = h.next := by
  unfold free
  split <;> rfl

@[simp] theorem allocated_free : (h.free p).allocated = h.allocated := by
  unfold free
  split <;> rfl

theorem freed_free : (h.free p).freed = h.freed ++ if p = 0 then [] else [p] := by
  unfold free
  split
  · exact (List.append_nil _).symm
  · rfl

theorem fault_free : (h.free p).fault = (h.fault || (decide (p ≠ 0) && !(h.block p).live)) := by
  unfold free
  split <;> simp [*]

theorem block_free_of_ne (hne : q ≠ p) : (h.free p).block q = h.block q := by
  unfold free
  split
  · rfl
  · simp [hne]

theorem live_free : ((h.free p).block q).live = ((h.block q).live && decide (q ≠ p)) := by
  unfold free
  split
  · rename_i hp
    subst hp
    by_cases hq : q = 0
    · subst hq
      simp [h.dead 0 (Or.inl rfl)]
    · simp [hq]
  · by_cases hqp : q = p
    · subst hqp
      simp
    · simp [hqp]

@[simp] theorem len_free : ((h.free p).block q).len = (h.block q).len := by
  unfold free
  split
  · rfl
  · by_cases hqp : q = p
    · subst hqp
      simp
    · simp [hqp]

@[simp] theorem load_free : (h.free p).load q j = h.load q j := by
  unfold free load
  split
  · rfl
  · by_cases hqp : q = p
    · subst hqp
      simp
    · simp [hqp]

theorem ok_iff : h.ok p i = true ↔ (h.block p).live = true ∧ 0 ≤ i ∧ i < (h.block p).len := by
  simp [ok]

@[simp] theorem next_checkRange (n : Nat) : (h.checkRange p i n).next = h.next := rfl
@[simp] theorem block_checkRange (n : Nat) : (h.checkRange p i n).block = h.block := rfl
@[simp] theorem allocated_checkRange (n : Nat) :
    (h.checkRange p i n).allocated = h.allocated := rfl
@[simp] theorem freed_checkRange (n : Nat) : (h.checkRange p i n).freed = h.freed := rfl
@[simp] theorem fault_checkRange (n : Nat) :
    (h.checkRange p i n).fault = (h.fault || !h.okRange p i n) := rfl

theorem lt_next_of_live (hl : (h.block p).live = true) : p < h.next := by
  by_contra hge
  rw [h.dead p (by omega)] at hl
  cases hl

theorem ne_zero_of_live (hl : (h.block p).live = true) : p ≠ 0 := by
  rintro rfl
  rw [h.dead 0 (Or.inl rfl)] at hl
  cases hl

section Copies
variable (src dst : Nat) (s d : Int) (n : Nat)

theorem moves_succ :
    moves src s dst d (n + 1) h = (moves src s dst d n h).move src (s + n) dst (d + n) := rfl

@[simp] theorem next_moves : (moves src s dst d n h).next = h.next := by
  induction n with
  | zero => rfl
  | succ n ih => rw [moves_succ, next_move, ih]

@[simp] theorem allocated_moves : (moves src s dst d n h).allocated = h.allocated := by
  induction n with
  | zero => rfl
  | succ n ih => rw [moves_succ, allocated_move, ih]

@[simp] theorem freed_moves : (moves src s dst d n h).freed = h.freed := by
  induction n with
  | zero => rfl
  | succ n ih => rw [moves_succ, freed_move, ih]

@[simp] theorem live_moves : ((moves src s dst d n h).block q).live = (h.block q).live := by
  induction n with
  | zero => rfl
  | succ n ih => rw [moves_succ, live_move, ih]

@[simp] theorem len_moves : ((moves src s dst d n h).block q).len = (h.block q).len := by
  induction n with
  | zero => rfl
  | succ n ih => rw [moves_succ, len_move, ih]

@[simp] theorem ok_moves : (moves src s dst d n h).ok q j = h.ok q j := by
  simp only [ok, live_moves, len_moves]

theorem block_moves_of_ne (hne : q ≠ dst) : (moves src s dst d n h).block q = h.block q := by
  induction n with
  | zero => rfl
  | succ n ih => rw [moves_succ, block_move_of_ne _ _ _ _ _ _ hne, ih]

theorem load_moves_of_ne (hne : q ≠ dst) : (moves src s dst d n h).load q j = h.load q j := by
  rw [load, block_moves_of_ne _ _ _ _ _ _ _ hne, load]

theorem load_moves (hne : src ≠ dst) :
    (moves src s dst d n h).load q j =
      if q = dst ∧ d ≤ j ∧ j < d + n then h.load src (s + (j - d)) else h.load q j := by
  induction n with
  | zero =>
      have hno : ¬ (q = dst ∧ d ≤ j ∧ j < d + (0 : Nat)) := by omega
      rw [if_neg hno]
      rfl
  | succ n ih =>
      have hsrc : (moves src s dst d n h).load src (s + n) = h.load src (s + n) := by
        rw [load, block_moves_of_ne _ _ _ _ _ _ _ hne, load]
      rw [moves_succ, load_move, ih, hsrc]
      by_cases hq : q = dst
      · by_cases hj : j = d + n
        · have hin : d ≤ j ∧ j < d + (n + 1 : Nat) := by omega
          rw [if_pos ⟨hq, hj⟩, if_pos ⟨hq, hin⟩, hj, add_sub_cancel_left]
        · have hiff : (d ≤ j ∧ j < d + (n + 1 : Nat)) ↔ (d ≤ j ∧ j < d + n) := by omega
          simp only [hq, hj, hiff, true_and, if_false]
      · simp only [hq, false_and, if_false]

theorem fault_moves :
    (moves src s dst d n h).fault = false ↔
      h.fault = false ∧ ∀ i < n, h.ok src (s + i) = true ∧ h.ok dst (d + i) = true := by
  induction n with
  | zero => simp [moves, rounds]
  | succ n ih =>
      rw [moves_succ, fault_move, Nat.forall_lt_succ_right]
      simp only [Bool.or_eq_false_iff, Bool.not_eq_false', ih, ok_moves]
      tauto

end Copies

section Lists

theorem next_storeList (l : List UInt8) : (storeList p i l h).next = h.next := by
  induction l generalizing i h with
  | nil => rfl
  | cons b l ih => rw [storeList, ih, next_store]

theorem allocated_storeList (l : List UInt8) : (storeList p i l h).allocated = h.allocated := by
  induction l generalizing i h with
  | nil => rfl
  | cons b l ih => rw [storeList, ih, allocated_store]

theorem freed_storeList (l : List UInt8) : (storeList p i l h).freed = h.freed := by
  induction l generalizing i h with
  | nil => rfl
  | cons b l ih => rw [storeList, ih, freed_store]

theorem live_storeList (l : List UInt8) :
    ((storeList p i l h).block q).live = (h.block q).live := by
  induction l generalizing i h with
  | nil => rfl
  | cons b l ih => rw [storeList, ih, live_store]

theorem len_storeList (l : List UInt8) :
    ((storeList p i l h).block q).len = (h.block q).len := by
  induction l generalizing i h with
  | nil => rfl
  | cons b l ih => rw [storeList, ih, len_store]

theorem block_storeList_of_ne (l : List UInt8) (hne : q ≠ p) :
    (storeList p i l h).block q = h.block q := by
  induction l generalizing i h with
  | nil => rfl
  | cons b l ih => rw [storeList, ih, block_store_of_ne _ _ _ _ _ hne]

theorem load_storeList_of_lt (l : List UInt8) (hj : j < i) :
    (storeList p i l h).load q j = h.load q j := by
  induction l generalizing i h with
  | nil => rfl
  | cons b l ih => rw [storeList, ih _ _ (by omega), load_store, if_neg (by omega)]

theorem fault_storeList (l : List UInt8) (hok : ∀ k < l.length, h.ok p (i + k) = true) :
    (storeList p i l h).fault = h.fault := by
  induction l generalizing i h with
  | nil => rfl
  | cons b l ih =>
      have hfirst := hok 0 (by simp)
      rw [storeList, ih, fault_store]
      · simp only [Nat.cast_zero, add_zero] at hfirst
        simp [hfirst]
      · intro k hk
        rw [ok_store, add_assoc, add_comm 1 (k : Int)]
        exact_mod_cast hok (k + 1) (by simpa using hk)

@[simp] theorem length_bytesAt (n : Nat) : (h.bytesAt p i n).length = n := by
  simp [bytesAt]

theorem bytesAt_succ (n : Nat) :
    h.bytesAt p i (n + 1) = h.load p i :: h.bytesAt p (i + 1) n := by
  simp only [bytesAt, List.range_succ_eq_map, List.map_cons, List.map_map]
  congr 1
  · simp
  · apply List.map_congr_left
    intro k _
    simp only [Function.comp_apply, Nat.cast_succ]
    congr 1
    omega

theorem bytesAt_add (m n : Nat) :
    h.bytesAt p i (m + n) = h.bytesAt p i m ++ h.bytesAt p (i + m) n := by
  simp only [bytesAt, List.range_add, List.map_append, List.map_map]
  congr 1
  apply List.map_congr_left
  intro k _
  simp only [Function.comp_apply, Nat.cast_add, add_assoc]

theorem getElem?_bytesAt (n k : Nat) (hk : k < n) :
    (h.bytesAt p i n)[k]? = some (h.load p (i + k)) := by
  simp [bytesAt, hk]

theorem bytesAt_congr {h h' : Heap} {p p' : Nat} {i i' : Int} {n : Nat}
    (heq : ∀ k < n, h'.load p' (i' + k) = h.load p (i + k)) :
    h'.bytesAt p' i' n = h.bytesAt p i n := by
  apply List.map_congr_left
  intro k hk
  exact heq k (List.mem_range.mp hk)

theorem bytesAt_take (m n : Nat) : (h.bytesAt p i n).take m = h.bytesAt p i (min m n) := by
  simp only [bytesAt, ← List.map_take, List.take_range]

theorem bytesAt_drop (m n : Nat) : (h.bytesAt p i n).drop m = h.bytesAt p (i + m) (n - m) := by
  obtain hmn | hmn := Nat.le_total n m
  · rw [List.drop_eq_nil_of_le (by simpa using hmn), Nat.sub_eq_zero_of_le hmn]
    rfl
  · obtain ⟨k, rfl⟩ := Nat.exists_eq_add_of_le hmn
    rw [bytesAt_add, List.drop_left' (length_bytesAt _ _ _ _), Nat.add_sub_cancel_left]

theorem bytesAt_storeList (l : List UInt8) :
    (storeList p i l h).bytesAt p i l.length = l := by
  induction l generalizing i h with
  | nil => rfl
  | cons b l ih =>
      rw [storeList, List.length_cons, bytesAt_succ, ih,
        load_storeList_of_lt _ _ _ _ _ _ (by omega), load_store, if_pos ⟨rfl, rfl⟩]

theorem bytesAt_moves (src dst : Nat) (s d : Int) (n : Nat) (hne : src ≠ dst) :
    (moves src s dst d n h).bytesAt dst d n = h.bytesAt src s n := by
  apply bytesAt_congr
  intro k hk
  rw [load_moves _ _ _ _ _ _ _ _ hne, if_pos ⟨rfl, by omega, by omega⟩]
  congr 1
  omega

end Lists

structure Holds (h : Heap) (p : Nat) (l : List UInt8) : Prop where
  live : (h.block p).live = true
  len : (h.block p).len = l.length
  bytes : h.bytesAt p 0 l.length = l

namespace Holds
variable {h : Heap} {p : Nat} {l : List UInt8}

theorem lt_next (o : h.Holds p l) : p < h.next := h.lt_next_of_live p o.live

theorem ne_zero (o : h.Holds p l) : p ≠ 0 := h.ne_zero_of_live p o.live

theorem ok (o : h.Holds p l) (i : Int) : h.ok p i = true ↔ 0 ≤ i ∧ i < l.length := by
  rw [ok_iff, o.len]
  simp [o.live]

theorem bytesAt (o : h.Holds p l) (i n : Nat) (hn : i + n ≤ l.length) :
    h.bytesAt p i n = (l.drop i).take n := by
  conv_rhs => rw [← o.bytes]
  rw [bytesAt_drop, bytesAt_take, zero_add, Nat.min_eq_left (by omega)]

theorem alloc (h : Heap) (init : Int → UInt8) (n : Nat) :
    (h.alloc n init).2.Holds h.next ((h.alloc n init).2.bytesAt h.next 0 n) where
  live := by simp
  len := by simp
  bytes := by simp

end Holds

def Alike (h h' : Heap) (p p' : Nat) : Prop := ∀ i, h'.load p' i = h.load p i

namespace Alike
variable {h h' : Heap} {p p' : Nat}

theorem of_load {g g' : Heap} (a : Alike h h' p p') (hload : ∀ i, g.load p i = h.load p i)
    (hload' : ∀ i, g'.load p' i = h'.load p' i) : Alike g g' p p' := by
  intro i
  rw [hload, hload', a i]

theorem bytesAt (a : Alike h h' p p') (i : Int) (n : Nat) :
    h'.bytesAt p' i n = h.bytesAt p i n := bytesAt_congr fun _ _ => a _

theorem alloc (h h' : Heap) (n n' : Nat) (init : Int → UInt8) :
    Alike (h.alloc n init).2 (h'.alloc n' init).2 h.next h'.next := by
  intro i
  simp only [load, block_alloc_self]

theorem store (a : Alike h h' p p') (i : Int) (b : UInt8) :
    Alike (h.store p i b) (h'.store p' i b) p p' := by
  intro j
  simp only [load_store, true_and, a j]

theorem storeList (a : Alike h h' p p') (i : Int) (l : List UInt8) :
    Alike (h.storeList p i l) (h'.storeList p' i l) p p' := by
  induction l generalizing i h h' with
  | nil => exact a
  | cons b l ih => exact ih (a.store i b) (i + 1)

theorem moves {q q' : Nat} (src : Alike h h' p p') (dst : Alike h h' q q') (hne : p ≠ q)
    (hne' : p' ≠ q') (s d : Int) (n : Nat) :
    Alike (Heap.moves p s q d n h) (Heap.moves p' s q' d n h') q q' := by
  intro j
  rw [load_moves _ _ _ _ _ _ _ _ hne, load_moves _ _ _ _ _ _ _ _ hne', src, dst]
  simp only [true_and]

end Alike

/-- `h'` has the blocks of `h` as they were, and perhaps further ones. -/
structure Extends (h h' : Heap) : Prop where
  next_le : h.next ≤ h'.next
  same : ∀ p < h.next, h'.block p = h.block p

namespace Extends
variable {h h' h'' : Heap}

theorem refl (h : Heap) : Extends h h := ⟨Nat.le_refl _, fun _ _ => rfl⟩

theorem trans (a : Extends h h') (b : Extends h' h'') : Extends h h'' :=
  ⟨a.next_le.trans b.next_le,
    fun p hp => (b.same p (hp.trans_le a.next_le)).trans (a.same p hp)⟩

theorem alloc (e : Extends h h') (n : Nat) (init : Int → UInt8) :
    Extends h (h'.alloc n init).2 where
  next_le := e.next_le.trans (Nat.le_succ _)
  same p hp := by
    have hlt : p < h'.next := hp.trans_le e.next_le
    rw [block_alloc_of_ne _ _ _ _ (by omega), e.same p hp]

theorem check (e : Extends h h') (p : Nat) (i : Int) : Extends h (h'.check p i) :=
  ⟨e.next_le, e.same⟩

theorem store (e : Extends h h') (p : Nat) (hp : h.next ≤ p) (i : Int) (b : UInt8) :
    Extends h (h'.store p i b) where
  next_le := e.next_le
  same q hq := by rw [block_store_of_ne _ _ _ _ _ (by omega), e.same q hq]

theorem moves (e : Extends h h') (src dst : Nat) (hd : h.next ≤ dst) (s d : Int) (n : Nat) :
    Extends h (Heap.moves src s dst d n h') where
  next_le := by rw [next_moves]; exact e.next_le
  same q hq := by rw [block_moves_of_ne _ _ _ _ _ _ _ (by omega), e.same q hq]

theorem storeList (e : Extends h h') (p : Nat) (hp : h.next ≤ p) (i : Int) (l : List UInt8) :
    Extends h (Heap.storeList p i l h') where
  next_le := by rw [next_storeList]; exact e.next_le
  same q hq := by rw [block_storeList_of_ne _ _ _ _ _ (by omega), e.same q hq]

theorem free (e : Extends h h') (p : Nat) (hp : h.next ≤ p) : Extends h (h'.free p) where
  next_le := by rw [next_free]; exact e.next_le
  same q hq := by rw [block_free_of_ne _ _ _ (by omega), e.same q hq]

theorem load (e : Extends h h') {p : Nat} (hp : p < h.next) (i : Int) :
    h'.load p i = h.load p i := by
  rw [Heap.load, e.same p hp, Heap.load]

theorem ok (e : Extends h h') {p : Nat} (hp : p < h.next) (i : Int) :
    h'.ok p i = h.ok p i := by
  rw [Heap.ok, e.same p hp, Heap.ok]

theorem checkRange (e : Extends h h') (p : Nat) (i : Int) (n : Nat) :
    Extends h (h'.checkRange p i n) :=
  ⟨e.next_le, e.same⟩

theorem holds (e : Extends h h') {p : Nat} {l : List UInt8} (o : h.Holds p l) :
    h'.Holds p l where
  live := by rw [e.same p o.lt_next]; exact o.live
  len := by rw [e.same p o.lt_next]; exact o.len
  bytes := by
    rw [← show h.bytesAt p 0 l.length = h'.bytesAt p 0 l.length from ?_]
    · exact o.bytes
    · apply bytesAt_congr
      intro k _
      exact (e.load o.lt_next _).symm

theorem bytesAt (e : Extends h h') {p : Nat} (hp : p < h.next) (i : Int) (n : Nat) :
    h'.bytesAt p i n = h.bytesAt p i n := by
  apply bytesAt_congr
  intro k _
  exact e.load hp _

end Extends

/-- The blocks of `h` have the same bytes in `h'`; some of them may have been freed. -/
structure Retains (h h' : Heap) : Prop where
  next_le : h.next ≤ h'.next
  load : ∀ p < h.next, ∀ i, h'.load p i = h.load p i

namespace Retains
variable {h h' h'' : Heap}

theorem refl (h : Heap) : Retains h h := ⟨Nat.le_refl _, fun _ _ _ => rfl⟩

theorem trans (a : Retains h h') (b : Retains h' h'') : Retains h h'' :=
  ⟨a.next_le.trans b.next_le,
    fun p hp i => (b.load p (hp.trans_le a.next_le) i).trans (a.load p hp i)⟩

theorem of_extends (e : Extends h h') : Retains h h' := ⟨e.next_le, fun _ hp i => e.load hp i⟩

theorem check (r : Retains h h') (p : Nat) (i : Int) : Retains h (h'.check p i) :=
  ⟨r.next_le, r.load⟩

theorem free (r : Retains h h') (p : Nat) : Retains h (h'.free p) := by
  refine ⟨by rw [next_free]; exact r.next_le, fun q hq i => ?_⟩
  rw [load_free, r.load q hq i]

end Retains
end Heap
end Memory

import Mathlib.Data.List.DropRight
import Mathlib.Data.List.Forall2
import Mathlib.Data.List.OfFn
import Mathlib.Data.List.Rotate
import Mathlib.Algebra.BigOperators.Group.List.Basic
import Mathlib.Tactic.NormNum

/-! A ring of `N` slots that overwrites its oldest element once it is full. The
ring starts to be read at `outOffs` and written at `inOffs`; until it has filled
up for the first time it is read from slot 0. `push` keeps the last `N` elements. -/

structure RingBuffer (α : Type) (N : Nat) where
  slots : Vector α N
  inOffs : Nat
  outOffs : Nat
  full : Bool
  inOffs_lt : inOffs < N
  outOffs_lt : outOffs < N
  offs_eq : full = true → inOffs = outOffs
  outOffs_zero : full = false → outOffs = 0

namespace RingBuffer
variable {α : Type} {N : Nat}

def next (N i : Nat) : Nat := if i + 1 = N then 0 else i + 1

theorem next_lt {i : Nat} (h : i < N) : next N i < N := by
  unfold next
  split <;> omega

theorem wrap_eq {a i : Nat} (ha : a < N) (hi : i ≤ N) :
    (a + i) % N = if a + i < N then a + i else a + i - N := by
  split
  · rename_i h
    exact Nat.mod_eq_of_lt h
  · rw [Nat.mod_eq_sub_mod (by omega), Nat.mod_eq_of_lt (by omega)]

theorem rtake_append_rtake (n : Nat) (l : List α) (x : α) :
    (l.rtake n ++ [x]).rtake n = (l ++ [x]).rtake n := by
  by_cases h : n ≤ l.length
  · simp only [List.rtake, List.length_append, List.length_drop, List.length_singleton]
    have h1 : l.length - (l.length - n) + 1 - n = 1 - 0 := by omega
    have h2 : l.length + 1 - n = (l.length - n) + 1 := by omega
    rw [h1, h2]
    cases n with
    | zero => simp
    | succ n =>
        rw [List.drop_append_of_le_length (by simp; omega),
          List.drop_append_of_le_length (by omega), List.drop_drop]
  · have hall : l.rtake n = l := by
      rw [List.rtake, Nat.sub_eq_zero_of_le (by omega), List.drop_zero]
    rw [hall]

def count (r : RingBuffer α N) : Nat := if r.full then N else r.inOffs

theorem pos (r : RingBuffer α N) : 0 < N := Nat.zero_lt_of_lt r.inOffs_lt

/-- The slot that holds the `i`-th oldest element. -/
def place (r : RingBuffer α N) (i : Nat) : Fin N :=
  ⟨(r.outOffs + i) % N, Nat.mod_lt _ r.pos⟩

def slot (r : RingBuffer α N) (i : Fin N) : α := r.slots[i]

def live (r : RingBuffer α N) : List α := List.ofFn fun i : Fin r.count => r.slot (r.place i)

def empty (slots : Vector α N) (hpos : 0 < N) : RingBuffer α N where
  slots := slots
  inOffs := 0
  outOffs := 0
  full := false
  inOffs_lt := hpos
  outOffs_lt := hpos
  offs_eq := fun _ => rfl
  outOffs_zero := fun _ => rfl

def reset (r : RingBuffer α N) : RingBuffer α N := empty r.slots r.pos

def push (r : RingBuffer α N) (x : α) : RingBuffer α N where
  slots := r.slots.set r.inOffs x r.inOffs_lt
  inOffs := next N r.inOffs
  outOffs := if r.full then next N r.outOffs else r.outOffs
  full := r.full || decide (r.inOffs + 1 = N)
  inOffs_lt := next_lt r.inOffs_lt
  outOffs_lt := by
    split
    · exact next_lt r.outOffs_lt
    · exact r.outOffs_lt
  offs_eq h := by
    cases hf : r.full
    · have hN : r.inOffs + 1 = N := by simpa [hf] using h
      simp [next, hN, r.outOffs_zero hf]
    · simp [r.offs_eq hf]
  outOffs_zero h := by
    have hf : r.full = false := (Bool.or_eq_false_iff.mp h).1
    simp [hf, r.outOffs_zero hf]

theorem count_le (r : RingBuffer α N) : r.count ≤ N := by
  have := r.inOffs_lt
  unfold count
  split <;> omega

@[simp] theorem length_live (r : RingBuffer α N) : r.live.length = r.count := by simp [live]

theorem full_iff (r : RingBuffer α N) : r.full = true ↔ r.live.length = N := by
  have := r.inOffs_lt
  rw [length_live, count]
  cases r.full
  · simp
    omega
  · simp

theorem getElem_live (r : RingBuffer α N) (i : Nat) (h : i < r.live.length) :
    r.live[i] = r.slot (r.place i) := by
  simp [live]

@[simp] theorem live_empty (slots : Vector α N) (hpos : 0 < N) : (empty slots hpos).live = [] := by
  simp [live, count, empty]

@[simp] theorem live_reset (r : RingBuffer α N) : r.reset.live = [] := live_empty _ _

theorem count_push (r : RingBuffer α N) (x : α) :
    (r.push x).count = min (r.count + 1) N := by
  have := r.inOffs_lt
  cases hf : r.full
  · by_cases hN : r.inOffs + 1 = N
    · simp [count, push, hf, hN]
    · simp only [count, push, next, hf, hN, decide_false, Bool.or_false, if_false,
        Bool.false_eq_true]
      omega
  · simp [count, push, hf]

theorem slot_push (r : RingBuffer α N) (x : α) (i : Fin N) :
    (r.push x).slot i = if i = ⟨r.inOffs, r.inOffs_lt⟩ then x else r.slot i := by
  have hs : (r.slots.set r.inOffs x r.inOffs_lt)[i.val] =
      if r.inOffs = i.val then x else r.slots[i.val] := Vector.getElem_set _ _
  simp only [slot, push, Fin.getElem_fin, hs, Fin.ext_iff, eq_comm]

theorem place_push_full (r : RingBuffer α N) (x : α) (hf : r.full = true) (i : Nat) (hi : i < N) :
    (r.push x).place i = r.place (i + 1) := by
  have ho := r.outOffs_lt
  have hn := next_lt ho
  apply Fin.ext
  simp only [place, push, hf, if_true, wrap_eq hn hi.le, wrap_eq ho (show i + 1 ≤ N by omega)]
  simp only [next]
  split <;> split <;> split <;> omega

/-- Pushing keeps the last `N` of the elements in order. -/
theorem live_push (r : RingBuffer α N) (x : α) : (r.push x).live = (r.live ++ [x]).rtake N := by
  have hin := r.inOffs_lt
  have hout := r.outOffs_lt
  apply List.ext_getElem
  · simp only [length_live, count_push, List.rtake, List.length_drop, List.length_append,
      List.length_singleton]
    omega
  · intro i h₁ h₂
    have hc : r.count = if r.full then N else r.inOffs := rfl
    have hi : i < min (r.count + 1) N := by simpa [count_push] using h₁
    simp only [getElem_live, slot_push, List.rtake, List.getElem_drop,
      List.length_append, length_live, List.length_singleton]
    cases hf : r.full
    · have h0 := r.outOffs_zero hf
      rw [hf] at hc
      simp only [Bool.false_eq_true, if_false] at hc
      have hplace : (r.push x).place i = ⟨i, by omega⟩ := by
        apply Fin.ext
        simp [place, push, hf, h0, Nat.mod_eq_of_lt (show i < N by omega)]
      have hold : i < r.inOffs → r.place i = ⟨i, by omega⟩ := by
        intro hlt
        apply Fin.ext
        simp [place, h0, Nat.mod_eq_of_lt (show i < N by omega)]
      have hshift : r.count + 1 - N + i = i := by omega
      simp only [hplace, Fin.mk.injEq, hshift]
      by_cases hlast : i = r.inOffs
      · rw [if_pos hlast, List.getElem_append_right (by simp [hc, hlast])]
        simp
      · rw [if_neg hlast, List.getElem_append_left (by rw [length_live]; omega), getElem_live,
          hold (by omega)]
    · have heq := r.offs_eq hf
      rw [hf] at hc
      simp only [if_true] at hc
      have hshift : r.count + 1 - N + i = i + 1 := by omega
      have hplace : r.place (i + 1) = ⟨r.inOffs, hin⟩ ↔ i + 1 = N := by
        simp only [place, Fin.mk.injEq, wrap_eq hout (show i + 1 ≤ N by omega)]
        split <;> omega
      simp only [place_push_full r x hf i (by omega), hplace, hshift]
      by_cases hlast : i + 1 = N
      · rw [if_pos hlast, List.getElem_append_right (by rw [length_live]; omega)]
        simp
      · rw [if_neg hlast, List.getElem_append_left (by rw [length_live]; omega), getElem_live]

theorem forall₂_live_push {β : Type} {R : α → β → Prop} {r : RingBuffer α N} {ls : List β} {x : α}
    {l : β} (h : List.Forall₂ R r.live ls) (hx : R x l) :
    List.Forall₂ R (r.push x).live ((ls ++ [l]).rtake N) := by
  have happ := List.rel_append h (List.Forall₂.cons hx List.Forall₂.nil)
  have hlen := happ.length_eq
  rw [r.live_push, List.rtake, List.rtake, hlen]
  exact List.forall₂_drop _ happ

theorem live_cons_of_full (r : RingBuffer α N) (hf : r.full = true) :
    r.live = r.slot ⟨r.inOffs, r.inOffs_lt⟩ :: r.live.tail := by
  have hlen : r.live.length = N := r.full_iff.mp hf
  have hpos := r.pos
  have hplace : r.place 0 = ⟨r.inOffs, r.inOffs_lt⟩ := by
    apply Fin.ext
    simp [place, r.offs_eq hf, Nat.mod_eq_of_lt r.outOffs_lt]
  obtain ⟨x, l, hl⟩ := List.exists_cons_of_length_pos (show 0 < r.live.length by omega)
  have hx : r.live[0] = x := by simp [hl]
  rw [getElem_live, hplace] at hx
  rw [hl, List.tail_cons, hx]

theorem live_push_of_full (r : RingBuffer α N) (x : α) (hf : r.full = true) :
    (r.push x).live = r.live.tail ++ [x] := by
  have hlen : r.live.length = N := r.full_iff.mp hf
  have hpos := r.pos
  rw [live_push, List.rtake, List.length_append, List.length_singleton, hlen,
    Nat.add_sub_cancel_left, List.drop_append_of_le_length (show 1 ≤ r.live.length by omega),
    List.drop_one]

theorem live_push_of_not_full (r : RingBuffer α N) (x : α) (hf : r.full = false) :
    (r.push x).live = r.live ++ [x] := by
  have hlt : r.live.length < N := by
    have := r.inOffs_lt
    simpa [count, hf] using this
  rw [live_push, List.rtake, List.length_append, List.length_singleton,
    Nat.sub_eq_zero_of_le (by omega), List.drop_zero]

/-- What lies in the slots that hold no live element. -/
def stale (r : RingBuffer α N) : List α := if r.full then [] else r.slots.toList.drop r.inOffs

theorem stale_push (r : RingBuffer α N) (x : α) : (r.push x).stale = r.stale.tail := by
  have hin := r.inOffs_lt
  cases hf : r.full
  · have hstale : r.stale = r.slots.toList.drop r.inOffs := by simp [stale, hf]
    rw [hstale, List.tail_drop]
    by_cases hlast : r.inOffs + 1 = N
    · rw [hlast, List.drop_of_length_le (by simp)]
      simp [stale, push, hf, hlast]
    · simp [stale, push, hf, hlast, next, Vector.toList_set, List.drop_set_of_lt]
  · simp [stale, push, hf]

theorem live_eq_rotate (r : RingBuffer α N) (hf : r.full = true) :
    r.live = r.slots.toList.rotate r.outOffs := by
  have hlen : r.live.length = N := r.full_iff.mp hf
  apply List.ext_getElem
  · simp [hlen]
  · intro i h₁ h₂
    rw [getElem_live, List.getElem_rotate]
    simp [slot, place, Nat.add_comm i]

theorem live_eq_take (r : RingBuffer α N) (hf : r.full = false) :
    r.live = r.slots.toList.take r.inOffs := by
  have hin := r.inOffs_lt
  have hcount : r.count = r.inOffs := by simp [count, hf]
  apply List.ext_getElem
  · rw [length_live, hcount, List.length_take, Vector.length_toList]
    omega
  · intro i h₁ h₂
    rw [length_live, hcount] at h₁
    rw [getElem_live, List.getElem_take]
    simp [slot, place, r.outOffs_zero hf, Nat.mod_eq_of_lt (h₁.trans hin)]

theorem live_eq_append (r : RingBuffer α N) :
    r.live = (if r.full then r.slots.toList.drop r.inOffs else []) ++ r.slots.toList.take r.inOffs := by
  have hout := r.outOffs_lt
  cases hf : r.full
  · rw [if_neg Bool.false_ne_true, List.nil_append, r.live_eq_take hf]
  · rw [if_pos rfl, r.live_eq_rotate hf, r.offs_eq hf,
      List.rotate_eq_drop_append_take (by rw [Vector.length_toList]; omega)]

theorem sum_live_add_stale (r : RingBuffer α N) (f : α → Nat) :
    (r.live.map f).sum + (r.stale.map f).sum = (r.slots.toList.map f).sum := by
  rw [stale]
  cases hf : r.full
  · rw [r.live_eq_take hf, if_neg Bool.false_ne_true, ← List.sum_append, ← List.map_append,
      List.take_append_drop]
  · rw [r.live_eq_rotate hf, if_pos rfl, List.map_nil, List.sum_nil, Nat.add_zero,
      ((List.rotate_perm _ _).map f).sum_eq]

theorem sum_live_le (r : RingBuffer α N) (f : α → Nat) :
    (r.live.map f).sum ≤ (r.slots.toList.map f).sum := by
  rw [← r.sum_live_add_stale]
  exact Nat.le_add_right _ _

end RingBuffer

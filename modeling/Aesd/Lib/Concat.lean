import Mathlib.Data.List.Basic
import Mathlib.Algebra.BigOperators.Group.List.Basic
import Mathlib.Tactic.NormNum

/-! Positions in a concatenation of pieces: `locate` finds the piece that holds a
position and the place within it, from the sizes of the pieces alone. -/
namespace Concat
variable {α : Type}

def locate : List Nat → Nat → Option (Nat × Nat)
  | [], _ => none
  | s :: ss, p => if p < s then some (0, p) else (locate ss (p - s)).map fun jb => (jb.1 + 1, jb.2)

theorem locate_eq_none_iff (ss : List Nat) (p : Nat) : locate ss p = none ↔ ss.sum ≤ p := by
  induction ss generalizing p with
  | nil => simp [locate]
  | cons s ss ih =>
      rw [locate, List.sum_cons]
      split
      · rename_i h
        simp
        omega
      · rw [Option.map_eq_none_iff, ih]
        omega

theorem locate_eq_some_iff (ss : List Nat) (p j b : Nat) :
    locate ss p = some (j, b) ↔ ∃ h : j < ss.length, b < ss[j] ∧ (ss.take j).sum + b = p := by
  induction ss generalizing p j with
  | nil => simp [locate]
  | cons s ss ih =>
      rw [locate]
      split
      · rename_i hps
        cases j with
        | zero =>
            simp only [Option.some.injEq, Prod.mk.injEq, true_and, List.length_cons,
              Nat.zero_lt_succ, List.getElem_cons_zero, List.take_zero, List.sum_nil, zero_add,
              exists_true_left]
            omega
        | succ j =>
            simp only [Option.some.injEq, Prod.mk.injEq, List.take_succ_cons, List.sum_cons]
            constructor
            · omega
            · rintro ⟨_, _, h⟩
              omega
      · rename_i hps
        cases j with
        | zero => simp; omega
        | succ j =>
            rw [Option.map_eq_some_iff]
            constructor
            · rintro ⟨⟨j', b'⟩, hloc, heq⟩
              obtain ⟨rfl, rfl⟩ : j' = j ∧ b' = b := by simpa using heq
              obtain ⟨hj, hb, hsum⟩ := (ih _ _).mp hloc
              refine ⟨by simpa using hj, by simpa using hb, ?_⟩
              rw [List.take_succ_cons, List.sum_cons]
              omega
            · rintro ⟨hj, hb, hsum⟩
              rw [List.take_succ_cons, List.sum_cons] at hsum
              refine ⟨(j, b), (ih _ _).mpr ⟨by simpa using hj, by simpa using hb, by omega⟩, rfl⟩

theorem exists_locate {ss : List Nat} {p : Nat} (h : p < ss.sum) :
    ∃ j b, locate ss p = some (j, b) := by
  cases hl : locate ss p with
  | none =>
      have := (locate_eq_none_iff ss p).mp hl
      omega
  | some jb => exact ⟨jb.1, jb.2, rfl⟩

theorem length_flatten_take (L : List (List α)) (j : Nat) :
    (L.take j).flatten.length = ((L.map List.length).take j).sum := by
  rw [List.length_flatten, List.map_take]

theorem drop_flatten (L : List (List α)) (j b : Nat) :
    L.flatten.drop (((L.map List.length).take j).sum + b) = (L.drop j).flatten.drop b := by
  conv_lhs => rw [← List.take_append_drop j L, List.flatten_append]
  rw [← length_flatten_take, List.take_append_drop, ← List.drop_drop, List.drop_left]

theorem take_drop_flatten_take (L : List (List α)) (j e b n : Nat)
    (hn : b + n ≤ ((L.take e).drop j).flatten.length) :
    ((L.drop j).flatten.drop b).take n = (((L.take e).drop j).flatten.drop b).take n := by
  conv_lhs => rw [← List.take_append_drop e L, List.drop_append, List.flatten_append]
  rw [List.drop_append_of_le_length (by omega),
    List.take_append_of_le_length (by rw [List.length_drop]; omega)]

end Concat

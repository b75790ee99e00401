import Mathlib.Tactic.NormNum

/-! Machine words of 32 and 64 bits over `Nat` and `Int`, and counted loops whose
counter is a 32-bit word. A loop is first given as it runs, one test at a time
with a wrapping counter; its closed form is then derived, together with the
bounds for which it never ends. -/
namespace FixedWidth

def toUint (n : Nat) : Nat := n % 2 ^ 32

def toSize (n : Int) : Nat := (n % 2 ^ 64).toNat

/-- Two's complement reading of a 64-bit word. -/
def toSsize (n : Int) : Int := (n + 2 ^ 63) % 2 ^ 64 - 2 ^ 63

theorem toUint_of_lt {n : Nat} (h : n < 2 ^ 32) : toUint n = n := Nat.mod_eq_of_lt h

theorem toUint_lt (n : Nat) : toUint n < 2 ^ 32 := Nat.mod_lt _ (by norm_num)

theorem toSize_of_lt {n : Nat} (h : n < 2 ^ 64) : toSize n = n := by
  unfold toSize
  omega

theorem toSize_toSsize (n : Int) : toSize (toSsize n) = toSize n := by
  unfold toSize toSsize
  omega

theorem toSsize_of_lt {n : Nat} (h : n < 2 ^ 63) : toSsize n = n := by
  unfold toSsize
  omega

theorem toSsize_toSsize_add (m n : Int) : toSsize (toSsize m + n) = toSsize (m + n) := by
  unfold toSsize
  omega

theorem toSsize_toSsize_sub (m n : Int) : toSsize (toSsize m - n) = toSsize (m - n) := by
  unfold toSsize
  omega

def rounds {σ : Type} (body : Nat → σ → σ) : Nat → σ → σ
  | 0, s => s
  | n + 1, s => body n (rounds body n s)

/-- The loop as it runs: at most `fuel` tests of `i < n`, the counter `i` wrapping. -/
def uintLoop {σ : Type} (n : Int) (body : Nat → σ → σ) : Nat → Nat → σ → Option σ
  | 0, _, _ => none
  | fuel + 1, i, s =>
      if (i : Int) < n then uintLoop n body fuel (toUint (i + 1)) (body i s) else some s

/-- Closed form of `for (uint i = 0; i < n; i++)`; `none` when the loop never ends. -/
def forUint {σ : Type} (n : Int) (body : Nat → σ → σ) (s : σ) : Option σ :=
  if n < 2 ^ 32 then some (rounds body n.toNat s) else none

theorem uintLoop_rounds {σ : Type} (n : Nat) (h : n < 2 ^ 32) (body : Nat → σ → σ) (s : σ)
    (todo i : Nat) (hi : i + todo = n) :
    uintLoop n body (todo + 1) i (rounds body i s) = some (rounds body n s) := by
  induction todo generalizing i with
  | zero =>
      have hin : i = n := by omega
      subst hin
      simp [uintLoop]
  | succ todo ih =>
      have hlt : (i : Int) < n := by omega
      rw [uintLoop, if_pos hlt, toUint_of_lt (by omega)]
      exact ih (i + 1) (by omega)

theorem uintLoop_endless {σ : Type} (n : Int) (h : 2 ^ 32 ≤ n) (body : Nat → σ → σ)
    (fuel i : Nat) (hi : i < 2 ^ 32) (s : σ) : uintLoop n body fuel i s = none := by
  induction fuel generalizing i s with
  | zero => rfl
  | succ fuel ih =>
      have hlt : (i : Int) < n := by omega
      rw [uintLoop, if_pos hlt]
      exact ih _ (toUint_lt _) _

/-- The closed form is what the loop computes, and `none` exactly where no number of
tests ends it. -/
theorem forUint_spec {σ : Type} (n : Int) (body : Nat → σ → σ) (s : σ) :
    (∀ t, forUint n body s = some t → ∃ fuel, uintLoop n body fuel 0 s = some t) ∧
    (forUint n body s = none → ∀ fuel, uintLoop n body fuel 0 s = none) := by
  constructor
  · intro t ht
    unfold forUint at ht
    split at ht
    · rename_i hn
      obtain ⟨m, rfl | rfl⟩ := n.eq_nat_or_neg
      · refine ⟨m + 1, ?_⟩
        rw [← ht]
        exact uintLoop_rounds m (by omega) body s m 0 (by omega)
      · refine ⟨1, ?_⟩
        have hz : (-(m : Int)).toNat = 0 := by omega
        rw [hz] at ht
        have hneg : ¬ (((0 : Nat) : Int) < -(m : Int)) := by omega
        rw [uintLoop, if_neg hneg, ← ht]
        rfl
    · cases ht
  · intro hnone fuel
    unfold forUint at hnone
    split at hnone
    · cases hnone
    · exact uintLoop_endless n (by omega) body fuel 0 (by norm_num) s

theorem forUint_of_lt {σ : Type} {n : Nat} (h : n < 2 ^ 32) (body : Nat → σ → σ) (s : σ) :
    forUint n body s = some (rounds body n s) := by
  have hn : (n : Int) < 2 ^ 32 := by exact_mod_cast h
  rw [forUint, if_pos hn, Int.toNat_natCast]

theorem forUint_eq_none {σ : Type} {n : Int} (h : 2 ^ 32 ≤ n) (body : Nat → σ → σ) (s : σ) :
    forUint n body s = none := by
  rw [forUint, if_neg (by omega)]

end FixedWidth

import Mathlib.Data.List.TakeWhile
import Mathlib.Tactic.NormNum

/-! The C string functions on lists of bytes. A string is the list of the bytes in front of its
NUL; a pointer into it is the list from there on. -/
namespace CString

def ofBytes (bytes : List UInt8) : List UInt8 := bytes.takeWhile (· ≠ 0)

/-- `strtok(s, delim)` for one delimiter: the token and where the next call with `NULL` goes on,
or `none` for `NULL`. -/
def strtok (delim : UInt8) (s : List UInt8) : Option (List UInt8 × List UInt8) :=
  let s := s.dropWhile (· = delim)
  if s = [] then none
  else some (s.takeWhile (· ≠ delim), (s.dropWhile (· ≠ delim)).tail)

def strchr (s : List UInt8) (c : UInt8) : Bool := s.contains c

def isspace (c : UInt8) : Bool := c = 32 ∨ 9 ≤ c ∧ c ≤ 13

def isdigit (c : UInt8) : Bool := 48 ≤ c ∧ c ≤ 57

def decimal (digits : List UInt8) : Nat := digits.foldl (fun n d => 10 * n + (d.toNat - 48)) 0

/-- `strtol(s, NULL, 10)`, which saturates. -/
def strtol (s : List UInt8) : Int :=
  let s := s.dropWhile isspace
  let negative := s.head? = some 45
  let s := if s.head? = some 45 ∨ s.head? = some 43 then s.tail else s
  let n : Int := decimal (s.takeWhile isdigit)
  if negative then max (-2 ^ 63) (-n) else min (2 ^ 63 - 1) n

/-- `atoi(s)` as the conversion of `strtol` to an `int`. -/
def atoi (s : List UInt8) : Int := (strtol s + 2 ^ 31) % 2 ^ 32 - 2 ^ 31

theorem ofBytes_of_notMem {s : List UInt8} (h : 0 ∉ s) : ofBytes s = s := by
  rw [ofBytes, List.takeWhile_eq_self_iff]
  intro b hb
  exact decide_eq_true fun heq => h (heq ▸ hb)

section Strtok
variable {delim : UInt8} {s token rest : List UInt8}

theorem strtok_eq_none_iff : strtok delim s = none ↔ ∀ b ∈ s, b = delim := by
  have hskip : s.dropWhile (· = delim) = [] ↔ ∀ b ∈ s, b = delim := by simp
  rw [strtok]
  by_cases h : s.dropWhile (· = delim) = []
  · exact iff_of_true (if_pos h) (hskip.mp h)
  · rw [if_neg h]
    exact iff_of_false (Option.some_ne_none _) (fun hall => h (hskip.mpr hall))

theorem strtok_replicate_append (n : Nat) :
    strtok delim (List.replicate n delim ++ s) = strtok delim s := by
  have hall : ∀ b ∈ List.replicate n delim, decide (b = delim) = true := by simp
  rw [strtok, List.dropWhile_append_of_pos hall, strtok]

theorem strtok_cons_of_ne {b : UInt8} (hb : b ≠ delim) :
    strtok delim (b :: s) =
      some (b :: s.takeWhile (· ≠ delim), (s.dropWhile (· ≠ delim)).tail) := by
  simp [strtok, hb]

theorem strtok_append (hne : token ≠ []) (h : delim ∉ token) :
    strtok delim (token ++ delim :: rest) = some (token, rest) := by
  obtain ⟨b, token, rfl⟩ := List.exists_cons_of_ne_nil hne
  rw [List.mem_cons, not_or] at h
  have hall : ∀ c ∈ token, decide (c ≠ delim) = true := fun c hc =>
    decide_eq_true fun heq => h.2 (heq ▸ hc)
  rw [List.cons_append, strtok_cons_of_ne (Ne.symm h.1), List.takeWhile_append_of_pos hall,
    List.dropWhile_append_of_pos hall]
  simp

theorem strtok_of_notMem (h : delim ∉ s) (hne : s ≠ []) : strtok delim s = some (s, []) := by
  obtain ⟨b, s, rfl⟩ := List.exists_cons_of_ne_nil hne
  rw [List.mem_cons, not_or] at h
  have hall : ∀ c ∈ s, decide (c ≠ delim) = true := fun c hc =>
    decide_eq_true fun heq => h.2 (heq ▸ hc)
  rw [strtok_cons_of_ne (Ne.symm h.1), List.takeWhile_eq_self_iff.mpr hall,
    List.dropWhile_eq_nil_iff.mpr hall, List.tail_nil]

theorem exists_of_strtok (h : strtok delim s = some (token, rest)) :
    token ≠ [] ∧ delim ∉ token ∧ ∃ n, s = List.replicate n delim ++ token ∧ rest = [] ∨
      s = List.replicate n delim ++ (token ++ delim :: rest) := by
  induction s with
  | nil => cases h
  | cons b s ih =>
      by_cases hb : b = delim
      · subst hb
        have hskip : strtok b (List.replicate 1 b ++ s) = strtok b s := strtok_replicate_append 1
        rw [List.replicate_one, List.singleton_append] at hskip
        rw [hskip] at h
        obtain ⟨hne, hmem, n, hs⟩ := ih h
        refine ⟨hne, hmem, n + 1, ?_⟩
        rw [List.replicate_succ, List.cons_append, List.cons_append, List.cons.injEq,
          List.cons.injEq]
        exact hs.imp (fun hend => ⟨⟨rfl, hend.1⟩, hend.2⟩) fun hmore => ⟨rfl, hmore⟩
      · rw [strtok_cons_of_ne hb, Option.some.injEq, Prod.mk.injEq] at h
        obtain ⟨rfl, rfl⟩ := h
        refine ⟨List.cons_ne_nil _ _, fun hmem => ?_, 0, ?_⟩
        · rcases List.mem_cons.mp hmem with heq | hmem
          · exact hb heq.symm
          · simpa using List.mem_takeWhile_imp hmem
        · have hsplit := List.takeWhile_append_dropWhile (p := fun c => decide (c ≠ delim)) (l := s)
          rw [List.replicate_zero, List.nil_append, List.nil_append, List.cons_append,
            List.cons.injEq, List.cons.injEq]
          cases hdrop : s.dropWhile fun c => decide (c ≠ delim) with
          | nil =>
              rw [hdrop, List.append_nil] at hsplit
              exact Or.inl ⟨⟨rfl, hsplit.symm⟩, rfl⟩
          | cons c tail =>
              have hstop := List.head_dropWhile_not (fun c => decide (c ≠ delim))
                (show s.dropWhile (fun c => decide (c ≠ delim)) ≠ [] by rw [hdrop]; simp)
              simp only [hdrop, List.head_cons] at hstop
              rw [hdrop, show c = delim by simpa using hstop] at hsplit
              exact Or.inr ⟨rfl, hsplit.symm⟩

end Strtok

example : strtok 58 [58, 97, 58, 98] = some ([97], [98]) := by decide

example : atoi [32, 45, 52, 50, 120] = -42 := by decide

end CString

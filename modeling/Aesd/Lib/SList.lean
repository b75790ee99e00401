import Mathlib.Data.List.Basic
import Mathlib.Data.List.Nodup
import Mathlib.Logic.Function.Basic
import Mathlib.Tactic.Common

/-! A singly linked list in memory: a head that points to the first element, and in each element a
pointer to the next one. `NULL` is `none`. -/

structure SList (α : Type) where
  first : Option α
  next : α → Option α

namespace SList
variable {α : Type}

/-- Following the pointers from `p` gives the elements of `l`. -/
def Chain (next : α → Option α) : Option α → List α → Prop
  | p, [] => p = none
  | p, a :: l => p = some a ∧ Chain next (next a) l

/-- The elements that are reached from `p` in at most `fuel` steps. -/
def walk (s : SList α) : (fuel : Nat) → Option α → List α
  | 0, _ => []
  | _ + 1, none => []
  | fuel + 1, some a => a :: s.walk fuel (s.next a)

def findBefore [DecidableEq α] (s : SList α) (elm : α) : (fuel : Nat) → (cur : α) → Option α
  | 0, _ => none
  | fuel + 1, cur =>
      if s.next cur = some elm then some cur else (s.next cur).bind (s.findBefore elm fuel)

def insertHead [DecidableEq α] (s : SList α) (elm : α) : SList α :=
  ⟨some elm, Function.update s.next elm s.first⟩

def removeHead (s : SList α) : Option (SList α) :=
  s.first.map fun elm => { s with first := s.next elm }

def remove [DecidableEq α] (s : SList α) (fuel : Nat) (elm : α) : Option (SList α) :=
  if s.first = some elm then s.removeHead
  else do
    let cur ← s.first.bind (s.findBefore elm fuel)
    let after ← s.next cur
    some { s with next := Function.update s.next cur (s.next after) }

section Chain
variable {next next' : α → Option α} {p : Option α} {l l' : List α}

theorem Chain.congr (h : Chain next p l) (heq : ∀ a ∈ l, next' a = next a) : Chain next' p l := by
  induction l generalizing p with
  | nil => exact h
  | cons a l ih =>
      rw [List.forall_mem_cons] at heq
      refine ⟨h.1, ?_⟩
      rw [heq.1]
      exact ih h.2 heq.2

theorem Chain.tail {front : List α} {a : α} (h : Chain next p (front ++ a :: l)) :
    Chain next (next a) l := by
  induction front generalizing p with
  | nil => exact h.2
  | cons b front ih => exact ih h.2

theorem Chain.relink [DecidableEq α] {front : List α} {a : α} (h : Chain next p (front ++ a :: l))
    (ha : a ∉ front) {q : Option α} (hq : Chain (Function.update next a q) q l') :
    Chain (Function.update next a q) p (front ++ a :: l') := by
  induction front generalizing p with
  | nil => exact ⟨h.1, by rwa [Function.update_self]⟩
  | cons b front ih =>
      rw [List.mem_cons, not_or] at ha
      refine ⟨h.1, ?_⟩
      rw [Function.update_of_ne (Ne.symm ha.1)]
      exact ih h.2 ha.2

theorem Chain.eq (h : Chain next p l) (h' : Chain next p l') : l = l' := by
  induction l generalizing p l' with
  | nil =>
      cases l' with
      | nil => rfl
      | cons b l' => exact absurd (h.symm.trans h'.1) (Option.some_ne_none b).symm
  | cons a l ih =>
      cases l' with
      | nil => exact absurd (h.1.symm.trans h') (Option.some_ne_none a)
      | cons b l' =>
          obtain rfl := Option.some.inj (h.1.symm.trans h'.1)
          rw [ih h.2 h'.2]

variable {s : SList α} {fuel : Nat}

theorem Chain.walk (h : Chain s.next p l) (hfuel : l.length ≤ fuel) : s.walk fuel p = l := by
  induction l generalizing p fuel with
  | nil =>
      rw [show p = none from h]
      cases fuel <;> rfl
  | cons a l ih =>
      obtain ⟨fuel, rfl⟩ := Nat.exists_eq_add_one_of_ne_zero (Nat.ne_of_gt
        (Nat.lt_of_lt_of_le (Nat.succ_pos l.length) hfuel))
      rw [h.1, SList.walk, ih h.2 (Nat.le_of_succ_le_succ hfuel)]

end Chain

section Operations
variable [DecidableEq α] {s : SList α} {elm : α} {l front back : List α} {fuel : Nat}

theorem chain_insertHead (h : Chain s.next s.first l) (helm : elm ∉ l) :
    Chain (s.insertHead elm).next (s.insertHead elm).first (elm :: l) := by
  refine ⟨rfl, ?_⟩
  dsimp only [insertHead]
  rw [Function.update_self]
  exact h.congr fun a ha => Function.update_of_ne (ne_of_mem_of_not_mem ha helm) _ _

theorem findBefore_eq {cur : α} {p : Option α} (h : Chain s.next p (cur :: (front ++ elm :: back)))
    (helm : elm ∉ front) (hfuel : front.length < fuel) :
    ∃ last, s.findBefore elm fuel cur = some last ∧
      ∃ init, cur :: front = init ++ [last] := by
  induction front generalizing cur p fuel with
  | nil =>
      obtain ⟨fuel, rfl⟩ := Nat.exists_eq_add_one_of_ne_zero (Nat.ne_of_gt hfuel)
      exact ⟨cur, by rw [findBefore, if_pos h.2.1], [], rfl⟩
  | cons b front ih =>
      obtain ⟨fuel, rfl⟩ := Nat.exists_eq_add_one_of_ne_zero (Nat.ne_of_gt
        (Nat.lt_of_le_of_lt (Nat.zero_le _) hfuel))
      rw [List.mem_cons, not_or] at helm
      have hnext : s.next cur = some b := h.2.1
      obtain ⟨last, hfind, init, hinit⟩ := ih h.2 helm.2 (Nat.lt_of_succ_lt_succ hfuel)
      refine ⟨last, ?_, cur :: init, by rw [hinit, List.cons_append]⟩
      rw [findBefore, hnext, if_neg (fun heq => helm.1 (Option.some.inj heq).symm),
        Option.bind_some, hfind]

/-- An element of the list is found and unlinked, and what comes behind it stays as it is. -/
theorem remove_eq (h : Chain s.next s.first (front ++ elm :: back))
    (hnodup : (front ++ elm :: back).Nodup) (hfuel : front.length ≤ fuel) :
    ∃ s', s.remove fuel elm = some s' ∧ Chain s'.next s'.first (front ++ back) ∧
      ∀ a ∈ elm :: back, s'.next a = s.next a := by
  cases front with
  | nil =>
      refine ⟨{ s with first := s.next elm }, ?_, h.2, fun a _ => rfl⟩
      rw [remove, if_pos h.1, removeHead, h.1, Option.map_some]
  | cons cur front =>
      have helm : elm ∉ cur :: front := fun hmem =>
        (List.nodup_append.mp hnodup).2.2 elm hmem elm (List.mem_cons_self) rfl
      rw [List.mem_cons, not_or] at helm
      obtain ⟨last, hfind, init, hinit⟩ := findBefore_eq h helm.2 hfuel
      have hchain := h
      rw [hinit, List.append_assoc] at h
      have hlast : s.next last = some elm := h.tail.1
      have hafter : Chain s.next (s.next elm) back := h.tail.2
      have hnodup' := hnodup
      rw [hinit, List.append_assoc, List.singleton_append] at hnodup'
      have hout : ∀ a ∈ elm :: back, a ≠ last := fun a ha heq =>
        (List.nodup_cons.mp (List.nodup_append.mp hnodup').2.1).1 (heq ▸ ha)
      have hinit' : last ∉ init := fun hmem =>
        (List.nodup_append.mp hnodup').2.2 last hmem last List.mem_cons_self rfl
      refine ⟨{ s with next := Function.update s.next last (s.next elm) }, ?_, ?_, ?_⟩
      · have hfirst : s.first = some cur := hchain.1
        rw [remove, hfirst, if_neg (fun heq => helm.1 (Option.some.inj heq).symm)]
        simp only [Option.bind_eq_bind, Option.bind_some, hfind, hlast]
      · rw [hinit, List.append_assoc]
        refine h.relink hinit' (hafter.congr fun a ha => ?_)
        exact Function.update_of_ne (hout a (List.mem_cons_of_mem _ ha)) _ _
      · intro a ha
        exact Function.update_of_ne (hout a ha) _ _

end Operations
end SList

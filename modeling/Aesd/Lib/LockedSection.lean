import Aesd.Lib.Interleaving
import Aesd.Lib.Replay
import Mathlib.Logic.Relation

/-! Sections under one lock. Each party takes the lock, goes step by step through code of its own on
data that all parties share, gives the lock back and keeps a result. However the steps
interleave, the data is what the sections make of it that have come to their end, gone through
whole and one after the other in the order of the lock, and then what the party inside has done
so far. -/
namespace LockedSection
open Interleaving Replay

inductive Phase (L R : Type)
  | before
  | inside (l : L)
  | leaving (r : R)
  | after (r : R)

namespace Phase
variable {L R : Type}

def Holds : Phase L R → Prop
  | inside _ => True
  | leaving _ => True
  | _ => False

def Entered : Phase L R → Prop
  | before => False
  | _ => True

def Ended (r : R) : Phase L R → Prop
  | leaving r' => r' = r
  | after r' => r' = r
  | _ => False

end Phase

structure Shared (ι δ : Type) where
  data : δ
  locked : Bool
  order : List ι

section Code
variable {ι δ L R : Type} (code : ι → L → δ → Option (δ × (L ⊕ R)))

def complete (i : ι) : (fuel : Nat) → L → δ → Option (δ × R)
  | 0, _, _ => none
  | fuel + 1, l, d => do
      match ← code i l d with
      | (d, .inl l) => complete i fuel l d
      | (d, .inr r) => some (d, r)

def whole (enter : ι → L) (fuel : Nat) (d : δ) (i : ι) : Option (δ × R) :=
  complete code i fuel (enter i) d

def Goes (i : ι) (x y : L × δ) : Prop := code i x.1 x.2 = some (y.2, .inl y.1)

/-- The next step of a party. One that comes to a lock which is not free waits. -/
def act (enter : ι → L) (i : ι) (g : Shared ι δ) : Phase L R → Option (Shared ι δ × Phase L R)
  | .before =>
      if g.locked then none
      else some ({ g with locked := true, order := g.order ++ [i] }, .inside (enter i))
  | .inside l => (code i l g.data).map fun r =>
      ({ g with data := r.1 }, match r.2 with
        | .inl l => .inside l
        | .inr r => .leaving r)
  | .leaving r => some ({ g with locked := false }, .after r)
  | .after _ => none

inductive Move (enter : ι → L) (i : ι) :
    Shared ι δ → Phase L R → Shared ι δ → Phase L R → Prop
  | lock {g : Shared ι δ} (free : g.locked = false) :
      Move enter i g .before { g with locked := true, order := g.order ++ [i] } (.inside (enter i))
  | step {g : Shared ι δ} {l l' : L} {d : δ} (goes : code i l g.data = some (d, .inl l')) :
      Move enter i g (.inside l) { g with data := d } (.inside l')
  | finish {g : Shared ι δ} {l : L} {d : δ} {r : R} (ends : code i l g.data = some (d, .inr r)) :
      Move enter i g (.inside l) { g with data := d } (.leaving r)
  | unlock {g : Shared ι δ} {r : R} : Move enter i g (.leaving r) { g with locked := false } (.after r)

variable {code} {i : ι} {fuel : Nat} {l l' : L} {d d' : δ} {r : R}

theorem Move.of_act {enter : ι → L} {g g' : Shared ι δ} {p p' : Phase L R}
    (h : act code enter i g p = some (g', p')) : Move code enter i g p g' p' := by
  cases p with
  | before =>
      rw [act] at h
      split at h
      · cases h
      · rename_i hfree
        cases h
        exact .lock (Bool.not_eq_true _ ▸ hfree)
  | inside l =>
      obtain ⟨⟨d, next⟩, hcode, heq⟩ := Option.map_eq_some_iff.mp h
      cases heq
      cases next with
      | inl l' => exact .step hcode
      | inr r => exact .finish hcode
  | leaving r =>
      cases h
      exact .unlock
  | after r => cases h

theorem complete_add (fuel extra : Nat) (l : L) (d : δ) {x : δ × R}
    (h : complete code i fuel l d = some x) : complete code i (fuel + extra) l d = some x := by
  induction fuel generalizing l d with
  | zero => cases h
  | succ fuel ih =>
      rw [Nat.add_right_comm, complete]
      rw [complete] at h
      obtain ⟨⟨d', next⟩, hcode, h⟩ := Option.bind_eq_some_iff.mp h
      rw [hcode]
      cases next with
      | inl l' => exact ih l' d' h
      | inr r => exact h

theorem complete_of_ends (ends : code i l d = some (d', .inr r)) (fuel : Nat) :
    complete code i (fuel + 1) l d = some (d', r) := by
  rw [complete, ends]
  rfl

theorem complete_of_goes (goes : code i l d = some (d', .inl l')) (fuel : Nat) :
    complete code i (fuel + 1) l d = complete code i fuel l' d' := by
  rw [complete, goes]
  rfl

theorem complete_cases {x : δ × R} (h : complete code i fuel l d = some x) :
    ∃ n d', fuel = n + 1 ∧
      ((∃ l', code i l d = some (d', .inl l') ∧ complete code i n l' d' = some x) ∨
        ∃ r, code i l d = some (d', .inr r) ∧ x = (d', r)) := by
  cases fuel with
  | zero => cases h
  | succ fuel =>
      rw [complete] at h
      obtain ⟨⟨d', next⟩, hcode, h⟩ := Option.bind_eq_some_iff.mp h
      refine ⟨fuel, d', rfl, ?_⟩
      cases next with
      | inl l' => exact Or.inl ⟨l', hcode, h⟩
      | inr r => exact Or.inr ⟨r, hcode, (Option.some.inj h).symm⟩

theorem exists_complete {x y : L × δ} (goes : Relation.ReflTransGen (Goes code i) x y)
    (ends : code i y.1 y.2 = some (d', .inr r)) :
    ∃ fuel, complete code i fuel x.1 x.2 = some (d', r) := by
  induction goes using Relation.ReflTransGen.head_induction_on with
  | refl => exact ⟨1, complete_of_ends ends 0⟩
  | head hgoes _ ih =>
      obtain ⟨fuel, hrest⟩ := ih
      exact ⟨fuel + 1, (complete_of_goes hgoes fuel).trans hrest⟩

theorem complete_of_path {x y : L × δ} (goes : Relation.ReflTransGen (Goes code i) x y) {z : δ × R}
    (h : ∃ fuel, complete code i fuel x.1 x.2 = some z) :
    ∃ fuel, complete code i fuel y.1 y.2 = some z := by
  induction goes with
  | refl => exact h
  | tail _ hgoes ih =>
      obtain ⟨fuel, hfuel⟩ := ih
      obtain ⟨n, d, rfl, ⟨l, hcode, hrest⟩ | ⟨r, hcode, -⟩⟩ := complete_cases hfuel
      · cases hgoes.symm.trans hcode
        exact ⟨n, hrest⟩
      · cases hgoes.symm.trans hcode

theorem whole_mono {enter : ι → L} (fuel extra : Nat) (d : δ) (i : ι) {x : δ × R}
    (h : whole code enter fuel d i = some x) : whole code enter (fuel + extra) d i = some x :=
  complete_add fuel extra (enter i) d h

end Code

section Runs
variable {ι δ L R : Type} (code : ι → L → δ → Option (δ × (L ⊕ R))) (enter : ι → L)

inductive Current (finished : List ι) (d : δ) (g : Shared ι δ) (phase : ι → Phase L R) : Prop
  | between (none : ∀ i l, phase i ≠ .inside l) (order : g.order = finished) (data : g.data = d)
  | inside (i : ι) (l : L) (here : phase i = .inside l) (order : g.order = finished ++ [i])
      (goes : Relation.ReflTransGen (Goes code i) (enter i, d) (l, g.data))

structure InTurn (d₀ : δ) (g : Shared ι δ) (phase : ι → Phase L R) : Prop where
  lock : LockOrder (fun i => (phase i).Holds) (fun i => (phase i).Entered) g.locked g.order
  served : ∃ fuel finished d results,
    replay (whole code enter fuel) d₀ finished = some (d, results) ∧
      List.Forall₂ (fun i r => (phase i).Ended r) finished results ∧
      Current code enter finished d g phase

variable {code enter} {d₀ : δ} {g g' : Shared ι δ} {phase : ι → Phase L R} {i : ι}
  {p' : Phase L R}

theorem InTurn.start (d₀ : δ) : InTurn code enter d₀ ⟨d₀, false, []⟩ fun _ => .before where
  lock := .start (fun _ => id) fun _ => id
  served := ⟨0, [], d₀, [], rfl, .nil, .between (fun _ _ h => by cases h) rfl rfl⟩

theorem Move.ended (m : Move code enter i g (phase i) g' p') {j : ι} {r : R}
    (h : (phase j).Ended r) [DecidableEq ι] : (Function.update phase i p' j).Ended r := by
  by_cases hji : j = i
  · subst hji
    rw [Function.update_self]
    generalize phase j = p at m h
    cases m <;> first | exact h | exact h.elim
  · rwa [Function.update_of_ne hji]

theorem ended_updates [DecidableEq ι] {finished : List ι} {results : List R}
    (m : Move code enter i g (phase i) g' p')
    (h : List.Forall₂ (fun i r => (phase i).Ended r) finished results) :
    List.Forall₂ (fun j r => (Function.update phase i p' j).Ended r) finished results :=
  h.imp fun _ _ hended => m.ended hended

theorem InTurn.lock_move [DecidableEq ι] (inv : InTurn code enter d₀ g phase)
    (m : Move code enter i g (phase i) g' p') :
    LockOrder (fun j => (Function.update phase i p' j).Holds)
      (fun j => (Function.update phase i p' j).Entered) g'.locked g'.order := by
  have hother : ∀ (P : Phase L R → Prop) (j : ι), j ≠ i →
      (P (Function.update phase i p' j) ↔ P (phase j)) := by
    intro P j hji
    rw [Function.update_of_ne hji]
  have hkeep : ∀ (P : Phase L R → Prop), (P p' ↔ P (phase i)) → ∀ j,
      (P (Function.update phase i p' j) ↔ P (phase j)) := by
    intro P hP j
    by_cases hji : j = i
    · rw [hji, Function.update_self, hP]
    · exact hother P j hji
  have lock := inv.lock
  generalize hp : phase i = p at m hkeep
  cases m with
  | lock free =>
      rw [free] at lock
      refine lock.acquire ?_ ?_ ?_ (hother _) (hother _)
      · rw [Function.update_self]
        trivial
      · rw [hp]
        exact id
      · rw [Function.update_self]
        trivial
  | step goes => exact lock.congr (hkeep _ Iff.rfl) (hkeep _ Iff.rfl)
  | finish ends => exact lock.congr (hkeep _ Iff.rfl) (hkeep _ Iff.rfl)
  | unlock =>
      refine lock.release ?_ ?_ (hother _) (hkeep _ Iff.rfl)
      · rw [hp]
        trivial
      · rw [Function.update_self]
        exact id

theorem InTurn.inside (inv : InTurn code enter d₀ g phase) {finished : List ι} {d : δ}
    (current : Current code enter finished d g phase) {l : L} (hp : phase i = .inside l) :
    g.order = finished ++ [i] ∧ Relation.ReflTransGen (Goes code i) (enter i, d) (l, g.data) := by
  cases current with
  | between none order data => exact absurd hp (none i l)
  | inside j l' here order goes =>
      obtain rfl : j = i :=
        inv.lock.exclusive.unique j i (by rw [here]; trivial) (by rw [hp]; trivial)
      obtain rfl := Phase.inside.inj (here.symm.trans hp)
      exact ⟨order, goes⟩

theorem InTurn.between (inv : InTurn code enter d₀ g phase) {finished : List ι} {d : δ}
    (current : Current code enter finished d g phase)
    (hfree : g.locked = false ∨ ∃ r, phase i = .leaving r) :
    (∀ j l, phase j ≠ .inside l) ∧ g.order = finished ∧ g.data = d := by
  cases current with
  | between none order data => exact ⟨none, order, data⟩
  | inside j l here order goes =>
      have hholds : (phase j).Holds := by
        rw [here]
        trivial
      rcases hfree with hfree | ⟨r, hr⟩
      · exact absurd (inv.lock.exclusive.locked_of_holds hholds)
          (by rw [hfree]; exact Bool.false_ne_true)
      · obtain rfl : j = i := inv.lock.exclusive.unique j i hholds (by rw [hr]; trivial)
        rw [hr] at here
        cases here

theorem InTurn.move [DecidableEq ι] (inv : InTurn code enter d₀ g phase)
    (m : Move code enter i g (phase i) g' p') :
    InTurn code enter d₀ g' (Function.update phase i p') := by
  refine ⟨inv.lock_move m, ?_⟩
  obtain ⟨fuel, finished, d, results, hrun, hresults, current⟩ := inv.served
  have hresults' := ended_updates m hresults
  have hinside := fun l => inv.inside current (i := i) (l := l)
  have hbetween := inv.between current (i := i)
  generalize hp : phase i = p at m hinside hbetween
  cases m with
  | lock free =>
      obtain ⟨-, horder, hdata⟩ := hbetween (Or.inl free)
      refine ⟨fuel, finished, d, results, hrun, hresults', .inside i (enter i)
        (Function.update_self ..) ?_ ?_⟩
      · rw [horder]
      · rw [← hdata]
  | step goes =>
      obtain ⟨horder, hgoes⟩ := hinside _ rfl
      exact ⟨fuel, finished, d, results, hrun, hresults', .inside i _ (Function.update_self ..)
        horder (hgoes.tail goes)⟩
  | @finish l d' r ends =>
      obtain ⟨horder, hgoes⟩ := hinside _ rfl
      obtain ⟨more, hwhole⟩ := exists_complete hgoes ends
      have hlast : whole code enter (fuel + more) d i = some (d', r) := by
        rw [Nat.add_comm]
        exact complete_add more fuel _ _ hwhole
      have hrun' := replay_append_singleton
        (replay_mono (fun _ _ _ => whole_mono fuel more _ _) hrun) hlast
      refine ⟨fuel + more, finished ++ [i], d', results ++ [r], hrun',
        List.rel_append hresults' (.cons ?_ .nil), .between (fun j l' hj => ?_) horder rfl⟩
      · rw [Function.update_self]
        rfl
      · by_cases hji : j = i
        · rw [hji, Function.update_self] at hj
          cases hj
        · rw [Function.update_of_ne hji] at hj
          exact hji (inv.lock.exclusive.unique j i (by rw [hj]; trivial) (by rw [hp]; trivial))
  | unlock =>
      obtain ⟨hnone, horder, hdata⟩ := hbetween (Or.inr ⟨_, rfl⟩)
      refine ⟨fuel, finished, d, results, hrun, hresults', .between (fun j l hj => ?_) horder hdata⟩
      by_cases hji : j = i
      · rw [hji, Function.update_self] at hj
        cases hj
      · rw [Function.update_of_ne hji] at hj
        exact hnone j l hj

end Runs
end LockedSection

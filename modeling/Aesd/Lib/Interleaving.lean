import Mathlib.Data.List.Basic
import Mathlib.Data.List.Induction
import Mathlib.Logic.Function.Basic
import Mathlib.Tactic.Common

/-! Interleavings. Parties take steps one at a time, each on a local state of its own and on
one state that all share; a schedule lists who takes a step when. A step that is not
enabled, because it waits or never ends, is `none`. -/
namespace Interleaving

structure State (ι S L : Type) where
  shared : S
  party : ι → L

section Run
variable {ι S L : Type} [DecidableEq ι] (step : ι → S → L → Option (S × L))

def act (s : State ι S L) (i : ι) : Option (State ι S L) :=
  (step i s.shared (s.party i)).map fun r => ⟨r.1, Function.update s.party i r.2⟩

def run (s : State ι S L) (schedule : List ι) : Option (State ι S L) :=
  schedule.foldlM (act step) s

/-- Every step of the run is taken in a state that meets the guard. -/
def Meets (guard : State ι S L → ι → Prop) (s : State ι S L) (schedule : List ι) : Prop :=
  ∀ pre i, pre ++ [i] <+: schedule → ∀ s', run step s pre = some s' → guard s' i

/-- `n` steps of one party with no other one coming between. -/
def alone (i : ι) : Nat → S × L → Option (S × L)
  | 0, r => some r
  | n + 1, r => (step i r.1 r.2).bind (alone i n)

theorem run_append (s : State ι S L) (first second : List ι) :
    run step s (first ++ second) = (run step s first).bind fun s' => run step s' second := by
  simp [run]

theorem run_append_singleton (s : State ι S L) (schedule : List ι) (i : ι) :
    run step s (schedule ++ [i]) = (run step s schedule).bind fun s' => act step s' i := by
  simp [run]

theorem run_replicate (i : ι) (n : Nat) (shared : S) (party : ι → L) (l : L) :
    run step ⟨shared, Function.update party i l⟩ (List.replicate n i) =
      (alone step i n (shared, l)).map fun r => ⟨r.1, Function.update party i r.2⟩ := by
  induction n generalizing shared l with
  | zero => rfl
  | succ n ih =>
      have hcons : run step ⟨shared, Function.update party i l⟩ (List.replicate (n + 1) i) =
          (act step ⟨shared, Function.update party i l⟩ i).bind fun s' =>
            run step s' (List.replicate n i) := rfl
      rw [hcons, act, alone]
      dsimp only
      rw [Function.update_self]
      cases step i shared l with
      | none => rfl
      | some r =>
          simp only [Option.map_some, Option.bind_some, Function.update_idem]
          exact ih r.1 r.2

variable {step} {s s' : State ι S L} {i : ι}

theorem act_eq_some (h : act step s i = some s') :
    ∃ shared l, step i s.shared (s.party i) = some (shared, l) ∧
      s' = ⟨shared, Function.update s.party i l⟩ := by
  obtain ⟨⟨shared, l⟩, hstep, heq⟩ := Option.map_eq_some_iff.mp h
  exact ⟨shared, l, hstep, heq.symm⟩

theorem meets_append_singleton (guard : State ι S L → ι → Prop) {schedule : List ι}
    (hrun : run step s schedule = some s') :
    Meets step guard s (schedule ++ [i]) ↔ Meets step guard s schedule ∧ guard s' i := by
  constructor
  · intro h
    refine ⟨fun pre j hpre => ?_, h schedule i (List.prefix_refl _) s' hrun⟩
    exact h pre j (hpre.trans (List.prefix_append _ _))
  · rintro ⟨h, hlast⟩ pre j hpre t ht
    rcases List.prefix_concat_iff.mp hpre with heq | hstart
    · obtain ⟨rfl, rfl⟩ := List.append_singleton_inj.mp heq
      rw [hrun, Option.some.injEq] at ht
      rwa [← ht]
    · exact h pre j hstart t ht

theorem meets_cons (guard : State ι S L → ι → Prop) {schedule : List ι} :
    Meets step guard s (i :: schedule) ↔
      guard s i ∧ ∀ s', act step s i = some s' → Meets step guard s' schedule := by
  have hcons : ∀ pre, run step s (i :: pre) =
      (act step s i).bind fun s' => run step s' pre := fun _ => rfl
  constructor
  · intro h
    refine ⟨h [] i ⟨schedule, rfl⟩ s rfl, fun s' hact pre j hpre t ht => ?_⟩
    refine h (i :: pre) j ((List.cons_prefix_cons).mpr ⟨rfl, hpre⟩) t ?_
    rw [hcons, hact, Option.bind_some, ht]
  · rintro ⟨hhead, hrest⟩ pre j hpre t ht
    cases pre with
    | nil =>
        obtain ⟨rfl, -⟩ := List.cons_prefix_cons.mp hpre
        cases ht
        exact hhead
    | cons j' pre =>
        obtain ⟨rfl, htail⟩ := List.cons_prefix_cons.mp hpre
        rw [hcons] at ht
        obtain ⟨s', hact, ht⟩ := Option.bind_eq_some_iff.mp ht
        exact hrest s' hact pre j htail t ht

theorem run_invariant {inv : State ι S L → Prop}
    (hstep : ∀ s i s', inv s → act step s i = some s' → inv s') (hinit : inv s)
    (schedule : List ι) (hrun : run step s schedule = some s') : inv s' := by
  induction schedule using List.reverseRecOn generalizing s' with
  | nil =>
      cases hrun
      exact hinit
  | append_singleton schedule i ih =>
      rw [run_append_singleton] at hrun
      obtain ⟨t, hprev, hlast⟩ := Option.bind_eq_some_iff.mp hrun
      exact hstep t i s' (ih hprev) hlast

/-- What every step that meets the guard keeps holds at the end of a run whose steps all do. -/
theorem run_invariant_of_meets {inv : State ι S L → Prop} {guard : State ι S L → ι → Prop}
    (hstep : ∀ s i s', inv s → guard s i → act step s i = some s' → inv s') (hinit : inv s)
    (schedule : List ι) (hmeets : Meets step guard s schedule)
    (hrun : run step s schedule = some s') : inv s' := by
  induction schedule using List.reverseRecOn generalizing s' with
  | nil =>
      cases hrun
      exact hinit
  | append_singleton schedule i ih =>
      rw [run_append_singleton] at hrun
      obtain ⟨t, hprev, hlast⟩ := Option.bind_eq_some_iff.mp hrun
      obtain ⟨hbefore, hguard⟩ := (meets_append_singleton guard hprev).mp hmeets
      exact hstep t i s' (ih hbefore hprev) hguard hlast

/-- A property that a step keeps exactly when it meets the guard, and never restores, holds at
the end of a run exactly when all its steps meet the guard. -/
theorem run_iff_meets {inv good : State ι S L → Prop} {guard : State ι S L → ι → Prop}
    (hstep : ∀ s i s', inv s → act step s i = some s' → inv s')
    (hgood : ∀ s i s', inv s → act step s i = some s' → (good s' ↔ good s ∧ guard s i))
    (hinit : inv s) (hstart : good s) (schedule : List ι)
    (hrun : run step s schedule = some s') : good s' ↔ Meets step guard s schedule := by
  induction schedule using List.reverseRecOn generalizing s' with
  | nil =>
      cases hrun
      exact ⟨fun _ pre i hpre => by simp at hpre, fun _ => hstart⟩
  | append_singleton schedule i ih =>
      rw [run_append_singleton] at hrun
      obtain ⟨t, hprev, hlast⟩ := Option.bind_eq_some_iff.mp hrun
      rw [meets_append_singleton guard hprev, ← ih hprev]
      exact hgood t i s' (run_invariant hstep hinit schedule hprev) hlast

end Run

structure Exclusive {ι : Type} (holds : ι → Prop) (locked : Bool) : Prop where
  locked_iff : locked = true ↔ ∃ i, holds i
  unique : ∀ i j, holds i → holds j → i = j

namespace Exclusive
variable {ι : Type} {holds holds' : ι → Prop} {locked : Bool} {i : ι}

theorem free (hnone : ∀ i, ¬ holds i) : Exclusive holds false :=
  ⟨iff_of_false Bool.false_ne_true (not_exists.mpr hnone), fun i _ hi _ => absurd hi (hnone i)⟩

theorem not_holds (e : Exclusive holds false) (i : ι) : ¬ holds i :=
  fun hi => Bool.false_ne_true (e.locked_iff.mpr ⟨i, hi⟩)

theorem locked_of_holds (e : Exclusive holds locked) (hi : holds i) : locked = true :=
  e.locked_iff.mpr ⟨i, hi⟩

theorem congr (e : Exclusive holds locked) (h : ∀ j, holds' j ↔ holds j) :
    Exclusive holds' locked := by
  rw [show holds' = holds from funext fun j => propext (h j)]
  exact e

theorem acquire (e : Exclusive holds false) (hi : holds' i)
    (hother : ∀ j, j ≠ i → (holds' j ↔ holds j)) : Exclusive holds' true := by
  have honly : ∀ j, holds' j → j = i := by
    intro j hj
    by_contra hne
    exact e.not_holds j ((hother j hne).mp hj)
  exact ⟨⟨fun _ => ⟨i, hi⟩, fun _ => rfl⟩,
    fun j j' hj hj' => (honly j hj).trans (honly j' hj').symm⟩

theorem release (e : Exclusive holds locked) (hi : holds i) (hleft : ¬ holds' i)
    (hother : ∀ j, j ≠ i → (holds' j ↔ holds j)) : Exclusive holds' false := by
  refine free fun j hj => ?_
  by_cases hne : j = i
  · subst hne
    exact hleft hj
  · exact hne (e.unique j i ((hother j hne).mp hj) hi)

end Exclusive

structure LockOrder {ι : Type} (holds entered : ι → Prop) (locked : Bool) (log : List ι) : Prop where
  exclusive : Exclusive holds locked
  mem_iff : ∀ i, i ∈ log ↔ entered i
  nodup : log.Nodup
  holder_last : ∀ i, holds i → ∃ earlier, log = earlier ++ [i]

namespace LockOrder
variable {ι : Type} {holds holds' entered entered' : ι → Prop} {locked : Bool} {log earlier : List ι}
  {i : ι}

theorem start (hholds : ∀ i, ¬ holds i) (hentered : ∀ i, ¬ entered i) :
    LockOrder holds entered false [] where
  exclusive := .free hholds
  mem_iff i := iff_of_false List.not_mem_nil (hentered i)
  nodup := List.nodup_nil
  holder_last i hi := absurd hi (hholds i)

theorem notMem_earlier (o : LockOrder holds entered locked (earlier ++ [i])) : i ∉ earlier :=
  fun hi => (List.nodup_append.mp o.nodup).2.2 i hi i (List.mem_singleton_self i) rfl

theorem not_holds_of_before {later : List ι} {j : ι}
    (o : LockOrder holds entered locked (earlier ++ i :: later)) (hj : j ∈ earlier) :
    ¬ holds j := by
  intro hholds
  obtain ⟨front, hlog⟩ := o.holder_last j hholds
  have hlast : j ∈ i :: later := by
    refine List.mem_of_getLast? ?_
    rw [← List.getLast?_append_of_ne_nil earlier (List.cons_ne_nil i later), hlog,
      List.getLast?_concat]
  exact (List.nodup_append.mp o.nodup).2.2 j hj j hlast rfl

theorem congr (o : LockOrder holds entered locked log) (h : ∀ j, holds' j ↔ holds j)
    (h' : ∀ j, entered' j ↔ entered j) : LockOrder holds' entered' locked log where
  exclusive := o.exclusive.congr h
  mem_iff j := (o.mem_iff j).trans (h' j).symm
  nodup := o.nodup
  holder_last j hj := o.holder_last j ((h j).mp hj)

theorem acquire (o : LockOrder holds entered false log) (hi : holds' i) (hentered : ¬ entered i)
    (hentered' : entered' i) (hother : ∀ j, j ≠ i → (holds' j ↔ holds j))
    (hother' : ∀ j, j ≠ i → (entered' j ↔ entered j)) :
    LockOrder holds' entered' true (log ++ [i]) where
  exclusive := o.exclusive.acquire hi hother
  mem_iff j := by
    rw [List.mem_append, List.mem_singleton, o.mem_iff]
    by_cases hj : j = i
    · subst hj
      exact iff_of_true (Or.inr rfl) hentered'
    · rw [hother' j hj, or_iff_left hj]
  nodup := by
    refine List.nodup_append.mpr ⟨o.nodup, List.pairwise_singleton _ i, fun j hj j' hj' heq => ?_⟩
    rw [heq, List.mem_singleton.mp hj'] at hj
    exact hentered ((o.mem_iff i).mp hj)
  holder_last j hj := by
    by_cases hji : j = i
    · exact ⟨log, by rw [hji]⟩
    · exact absurd ((hother j hji).mp hj) (o.exclusive.not_holds j)

theorem release (o : LockOrder holds entered locked log) (hi : holds i) (hleft : ¬ holds' i)
    (hother : ∀ j, j ≠ i → (holds' j ↔ holds j)) (h' : ∀ j, entered' j ↔ entered j) :
    LockOrder holds' entered' false log where
  exclusive := o.exclusive.release hi hleft hother
  mem_iff j := (o.mem_iff j).trans (h' j).symm
  nodup := o.nodup
  holder_last j hj := by
    by_cases hji : j = i
    · exact absurd (hji ▸ hj) hleft
    · exact o.holder_last j ((hother j hji).mp hj)

end LockOrder
end Interleaving

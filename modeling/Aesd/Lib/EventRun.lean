import Mathlib.Data.List.Basic
import Mathlib.Data.List.Count
import Mathlib.Tactic.Common

/-! Runs of a machine that is driven by events. An event that cannot happen in a state is `none`
there. -/
namespace EventRun
variable {σ ε : Type} (step : σ → ε → Option σ)

def run (s : σ) (events : List ε) : Option σ := events.foldlM step s

variable {step} {s s' : σ} {e : ε} {events more : List ε}

theorem run_cons : run step s (e :: events) = (step s e).bind fun s' => run step s' events := rfl

theorem run_append :
    run step s (events ++ more) = (run step s events).bind fun s' => run step s' more := by
  simp [run]

theorem invariant (inv : σ → Prop) (hstep : ∀ s e s', inv s → step s e = some s' → inv s')
    (hinit : inv s) (hrun : run step s events = some s') : inv s' := by
  induction events generalizing s with
  | nil =>
      cases hrun
      exact hinit
  | cons e events ih =>
      rw [run_cons] at hrun
      obtain ⟨t, hfirst, hrest⟩ := Option.bind_eq_some_iff.mp hrun
      exact ih (hstep s e t hinit hfirst) hrest

/-- An account that is kept of the events alone follows the run, as long as each event is one that the
account allows where it has come to. -/
theorem follows {α : Type} (R : σ → α → Prop) (after : α → ε → α) (allows : α → ε → Prop)
    (hstep : ∀ s a e s', R s a → allows a e → step s e = some s' → R s' (after a e)) {a : α}
    (hinit : R s a)
    (hallows : ∀ front e later, events = front ++ e :: later → allows (front.foldl after a) e)
    (hrun : run step s events = some s') : R s' (events.foldl after a) := by
  induction events generalizing s a with
  | nil =>
      cases hrun
      exact hinit
  | cons e events ih =>
      rw [run_cons] at hrun
      obtain ⟨t, hfirst, hrest⟩ := Option.bind_eq_some_iff.mp hrun
      have hhead : allows a e := hallows [] e events rfl
      refine ih (hstep s a e t hinit hhead hfirst) (fun front e' later h => ?_) hrest
      exact hallows (e :: front) e' later (by rw [h, List.cons_append])

theorem allows_cons {α : Type} {after : α → ε → α} {allows : α → ε → Prop} {a : α} (hhead : allows a e)
    (hrest : ∀ front e' later, events = front ++ e' :: later →
      allows (front.foldl after (after a e)) e') :
    ∀ front e' later, e :: events = front ++ e' :: later → allows (front.foldl after a) e' := by
  intro front e' later hsplit
  cases front with
  | nil =>
      obtain ⟨rfl, -⟩ := List.cons.inj hsplit
      exact hhead
  | cons first front =>
      obtain ⟨rfl, htail⟩ := List.cons.inj hsplit
      exact hrest front e' later htail

/-- If the events that count use up what is left, and no other event adds to it, there are no more of
them than there was left. -/
theorem countP_add_le (inv : σ → Prop) (left : σ → Nat) (counts : ε → Bool)
    (hstep : ∀ s e s', inv s → step s e = some s' → inv s')
    (huse : ∀ s e s', inv s → step s e = some s' →
      left s' + (if counts e then 1 else 0) ≤ left s)
    (hinit : inv s) (hrun : run step s events = some s') :
    left s' + events.countP counts ≤ left s := by
  induction events generalizing s with
  | nil =>
      cases hrun
      exact Nat.le_refl _
  | cons e events ih =>
      rw [run_cons] at hrun
      obtain ⟨t, hfirst, hrest⟩ := Option.bind_eq_some_iff.mp hrun
      have hlater := ih (hstep s e t hinit hfirst) hrest
      have hfirst := huse s e t hinit hfirst
      rw [List.countP_cons]
      omega

end EventRun

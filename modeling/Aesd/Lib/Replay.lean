import Mathlib.Data.List.Forall2
import Mathlib.Tactic.Common

/-! Runs of operations on a state, one after the other. An operation that does not return is
`none`, and nothing comes behind it; `ο` is what an operation shows. -/
namespace Replay
variable {σ ε ο : Type} (step : σ → ε → Option (σ × ο))

/-- The state behind the operations and what they have shown. -/
def replay (s : σ) : List ε → Option (σ × List ο)
  | [] => some (s, [])
  | op :: ops => do
      let r ← step s op
      let t ← replay r.1 ops
      some (t.1, r.2 :: t.2)

def Always (P : σ → ε → σ → Prop) (s : σ) : List ε → Prop
  | [] => True
  | op :: ops => ∀ r, step s op = some r → P s op r.1 ∧ Always P r.1 ops

/-- Every operation of the run is begun in a state that meets `P`. -/
def Throughout (P : σ → ε → Prop) (s : σ) : List ε → Prop
  | [] => True
  | op :: ops => P s op ∧ ∀ r, step s op = some r → Throughout P r.1 ops

variable {step} {P Q : σ → ε → σ → Prop} {s : σ} {ops : List ε}

theorem replay_append_singleton {op : ε} {t : σ × List ο} {r : σ × ο}
    (hrun : replay step s ops = some t) (hstep : step t.1 op = some r) :
    replay step s (ops ++ [op]) = some (r.1, t.2 ++ [r.2]) := by
  induction ops generalizing s t with
  | nil =>
      cases hrun
      rw [List.nil_append, replay, hstep]
      rfl
  | cons first ops ih =>
      rw [replay] at hrun
      obtain ⟨r₁, hfirst, hrun⟩ := Option.bind_eq_some_iff.mp hrun
      obtain ⟨u, hrest, heq⟩ := Option.bind_eq_some_iff.mp hrun
      cases heq
      rw [List.cons_append, replay, hfirst]
      simp only [Option.bind_eq_bind, Option.bind_some, ih hrest hstep, List.cons_append]

theorem Always.imp (inv : σ → Prop) (valid : ε → Prop)
    (h : ∀ s op r, inv s → valid op → step s op = some r → P s op r.1 → Q s op r.1 ∧ inv r.1)
    (hinit : inv s) (hvalid : ∀ op ∈ ops, valid op) (hP : Always step P s ops) :
    Always step Q s ops := by
  induction ops generalizing s with
  | nil => trivial
  | cons op ops ih =>
      rw [List.forall_mem_cons] at hvalid
      intro r hstep
      obtain ⟨hhead, htail⟩ := hP r hstep
      obtain ⟨hQ, hinv⟩ := h s op r hinit hvalid.1 hstep hhead
      exact ⟨hQ, ih hinv hvalid.2 htail⟩

theorem Throughout.imp {P Q : σ → ε → Prop} (h : ∀ s op, P s op → Q s op)
    (hP : Throughout step P s ops) : Throughout step Q s ops := by
  induction ops generalizing s with
  | nil => trivial
  | cons op ops ih => exact ⟨h s op hP.1, fun r hstep => ih (hP.2 r hstep)⟩

theorem Throughout.always {C : σ → ε → Prop}
    (h : ∀ s op r, C s op → step s op = some r → P s op r.1) (hC : Throughout step C s ops) :
    Always step P s ops := by
  induction ops generalizing s with
  | nil => trivial
  | cons op ops ih =>
      intro r hstep
      exact ⟨h s op r hC.1 hstep, ih (hC.2 r hstep)⟩

/-- Two runs show the same if every two operations show the same and keep the states related. -/
theorem replay_agree {σ' ε' : Type} {step' : σ' → ε' → Option (σ' × ο)} (R : σ → σ' → Prop)
    (same : ε → ε' → Prop) {C : σ → ε → Prop}
    (h : ∀ s s' op op', R s s' → same op op' → C s op → ∃ r r', step s op = some r ∧
      step' s' op' = some r' ∧ r'.2 = r.2 ∧ R r.1 r'.1)
    {s' : σ'} {ops' : List ε'} (hinit : R s s') (hops : List.Forall₂ same ops ops')
    (hC : Throughout step C s ops) :
    ∃ t t', replay step s ops = some t ∧ replay step' s' ops' = some t' ∧ t'.2 = t.2 ∧
      R t.1 t'.1 := by
  induction hops generalizing s s' with
  | nil => exact ⟨_, _, rfl, rfl, rfl, hinit⟩
  | cons hop _ ih =>
      obtain ⟨hhead, htail⟩ := hC
      obtain ⟨r, r', hstep, hstep', hshown, hrel⟩ := h _ _ _ _ hinit hop hhead
      obtain ⟨t, t', hrun, hrun', hrest, hend⟩ := ih hrel (htail r hstep)
      refine ⟨(t.1, r.2 :: t.2), (t'.1, r'.2 :: t'.2), ?_, ?_, ?_, hend⟩
      · rw [replay, hstep]
        simp only [Option.bind_eq_bind, Option.bind_some, hrun]
      · rw [replay, hstep']
        simp only [Option.bind_eq_bind, Option.bind_some, hrun']
      · rw [hshown, hrest]

/-- A run shows the same with some of its operations left out and others in place of the rest, if
the ones left out keep the states related and the others do and show the same. The relation may
speak of the operations to come. -/
theorem replay_filter (R : List ε → σ → σ → Prop) (keep : ε → Bool) (same : ε → ε → Prop)
    (hkeep : ∀ s s' op op' ops, R (op :: ops) s s' → keep op = true → same op op' →
      ∃ r r', step s op = some r ∧ step s' op' = some r' ∧ r'.2 = r.2 ∧ R ops r.1 r'.1)
    (hdrop : ∀ s s' op ops, R (op :: ops) s s' → keep op = false → ∃ r, step s op = some r ∧
      R ops r.1 s')
    {s' : σ} {ops' : List ε} (hinit : R ops s s')
    (hops : List.Forall₂ same (ops.filter keep) ops') :
    ∃ t t', replay step s ops = some t ∧ replay step s' ops' = some t' ∧
      t'.2 = ((ops.zip t.2).filter fun r => keep r.1).map Prod.snd := by
  induction ops generalizing s s' ops' with
  | nil =>
      cases hops
      exact ⟨_, _, rfl, rfl, rfl⟩
  | cons op ops ih =>
      cases hop : keep op
      · obtain ⟨r, hstep, hrel⟩ := hdrop s s' op ops hinit hop
        rw [List.filter_cons_of_neg (by rw [hop]; exact Bool.false_ne_true)] at hops
        obtain ⟨t, t', hrun, hrun', hshown⟩ := ih hrel hops
        refine ⟨(t.1, r.2 :: t.2), t', ?_, hrun', ?_⟩
        · rw [replay, hstep]
          simp only [Option.bind_eq_bind, Option.bind_some, hrun]
        · rw [hshown, List.zip_cons_cons, List.filter_cons_of_neg (by simp [hop])]
      · rw [List.filter_cons_of_pos hop] at hops
        cases hops with
        | cons hsameop hrest =>
            obtain ⟨r, r', hstep, hstep', hsame, hrel⟩ := hkeep s s' op _ ops hinit hop hsameop
            obtain ⟨t, t', hrun, hrun', hshown⟩ := ih hrel hrest
            refine ⟨(t.1, r.2 :: t.2), (t'.1, r'.2 :: t'.2), ?_, ?_, ?_⟩
            · rw [replay, hstep]
              simp only [Option.bind_eq_bind, Option.bind_some, hrun]
            · rw [replay, hstep']
              simp only [Option.bind_eq_bind, Option.bind_some, hrun']
            · rw [List.zip_cons_cons, List.filter_cons_of_pos (by simp [hop]), List.map_cons, hsame,
                hshown]

theorem replay_mono {step' : σ → ε → Option (σ × ο)}
    (h : ∀ s op r, step s op = some r → step' s op = some r) {t : σ × List ο}
    (hrun : replay step s ops = some t) : replay step' s ops = some t := by
  induction ops generalizing s t with
  | nil => exact hrun
  | cons op ops ih =>
      rw [replay] at hrun ⊢
      obtain ⟨r, hstep, hrun⟩ := Option.bind_eq_some_iff.mp hrun
      obtain ⟨u, hrest, hend⟩ := Option.bind_eq_some_iff.mp hrun
      rw [h s op r hstep]
      simp only [Option.bind_eq_bind, Option.bind_some, ih hrest]
      exact hend

theorem exists_replay {steps : Nat → σ → ε → Option (σ × ο)}
    (hmono : ∀ n extra s op r, steps n s op = some r → steps (n + extra) s op = some r)
    (h : ∀ s op r, step s op = some r → ∃ n, steps n s op = some r) {t : σ × List ο}
    (hrun : replay step s ops = some t) : ∃ n, replay (steps n) s ops = some t := by
  induction ops generalizing s t with
  | nil => exact ⟨0, hrun⟩
  | cons op ops ih =>
      rw [replay] at hrun
      obtain ⟨r, hstep, hrun⟩ := Option.bind_eq_some_iff.mp hrun
      obtain ⟨u, hrest, hend⟩ := Option.bind_eq_some_iff.mp hrun
      obtain ⟨n, hop⟩ := h s op r hstep
      obtain ⟨m, hops⟩ := ih hrest
      refine ⟨n + m, ?_⟩
      have hfirst := hmono n m s op r hop
      have hlater := replay_mono (fun s op r => hmono m n s op r) hops
      rw [Nat.add_comm] at hlater
      rw [replay, hfirst]
      simp only [Option.bind_eq_bind, Option.bind_some, hlater]
      exact hend

theorem forall₂_through {α β γ : Type} {P : α → β → Prop} {Q : β → γ → Prop} {as : List α}
    {bs : List β} {cs : List γ} (h : List.Forall₂ P as bs) (h' : List.Forall₂ Q bs cs) :
    List.Forall₂ (fun a c => ∃ b, P a b ∧ Q b c) as cs := by
  induction h generalizing cs with
  | nil =>
      cases h'
      exact .nil
  | cons hab _ ih =>
      cases h' with
      | cons hbc hrest => exact .cons ⟨_, hab, hbc⟩ (ih hrest)

end Replay

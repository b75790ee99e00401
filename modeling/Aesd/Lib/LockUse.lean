import Aesd.Lib.Interleaving
import Mathlib.Data.List.Count

/-! A lock that each party takes at most once. A record lists the calls for it to be locked and
unlocked; a party holds the lock while it has locked it more often than unlocked it. What the
parties do besides is left to them. -/
namespace Interleaving

/-- Where a party is: it has yet to lock, it has to unlock, or it is done with the lock. -/
inductive LockStage
  | ahead
  | holding
  | behind
  deriving DecidableEq

def LockStage.Agrees : LockStage → (locks unlocks : Nat) → Prop
  | ahead, locks, unlocks => locks = 0 ∧ unlocks = 0
  | holding, locks, unlocks => locks = 1 ∧ unlocks = 0
  | behind, locks, unlocks => unlocks = locks ∧ locks ≤ 1

structure LockRecord (ι : Type) where
  locked : Bool
  locks : List ι
  unlocks : List ι

/-- What a step of a party does with the lock. `refuse` gives up without it. -/
inductive LockMove {ι : Type} (i : ι) (r : LockRecord ι) :
    LockStage → LockRecord ι → LockStage → Prop
  | keep (stage : LockStage) : LockMove i r stage r stage
  | acquire (free : r.locked = false) :
      LockMove i r .ahead ⟨true, r.locks ++ [i], r.unlocks⟩ .holding
  | release : LockMove i r .holding ⟨false, r.locks, r.unlocks ++ [i]⟩ .behind
  | refuse : LockMove i r .ahead r .behind

variable {ι : Type} [DecidableEq ι]

def LockRecord.Holds (r : LockRecord ι) (i : ι) : Prop := r.unlocks.count i < r.locks.count i

structure UsesLock (r : LockRecord ι) (stage : ι → LockStage) : Prop where
  exclusive : Exclusive (fun i => stage i = .holding) r.locked
  agrees : ∀ i, (stage i).Agrees (r.locks.count i) (r.unlocks.count i)

namespace UsesLock
variable {r r' : LockRecord ι} {stage : ι → LockStage} {i : ι}

theorem start (h : ∀ i, stage i = .ahead) : UsesLock ⟨false, [], []⟩ stage where
  exclusive := .free fun i hi => by
    rw [h i] at hi
    cases hi
  agrees i := by
    rw [h i]
    exact ⟨rfl, rfl⟩

theorem holds_iff (u : UsesLock r stage) (i : ι) : r.Holds i ↔ stage i = .holding := by
  have hagrees := u.agrees i
  unfold LockRecord.Holds
  cases hstage : stage i <;> rw [hstage] at hagrees <;> obtain ⟨hlocks, hunlocks⟩ := hagrees
  · exact iff_of_false (by omega) LockStage.noConfusion
  · exact iff_of_true (by omega) rfl
  · exact iff_of_false (by omega) LockStage.noConfusion

theorem locks_le_one (u : UsesLock r stage) (i : ι) : r.locks.count i ≤ 1 := by
  have hagrees := u.agrees i
  cases hstage : stage i <;> rw [hstage] at hagrees <;> obtain ⟨hlocks, hunlocks⟩ := hagrees <;>
    omega

theorem unlocks_eq_of_behind (u : UsesLock r stage) (hi : stage i = .behind) :
    r.unlocks.count i = r.locks.count i := by
  have hagrees := u.agrees i
  rw [hi] at hagrees
  exact hagrees.1

theorem locked_of_holding (u : UsesLock r stage) (hi : stage i = .holding) : r.locked = true :=
  u.exclusive.locked_of_holds hi

theorem agrees_update (u : UsesLock r stage) {g : LockStage}
    (hself : g.Agrees (r'.locks.count i) (r'.unlocks.count i))
    (hlocks : ∀ j, j ≠ i → r'.locks.count j = r.locks.count j)
    (hunlocks : ∀ j, j ≠ i → r'.unlocks.count j = r.unlocks.count j) (j : ι) :
    (Function.update stage i g j).Agrees (r'.locks.count j) (r'.unlocks.count j) := by
  by_cases hj : j = i
  · subst hj
    rw [Function.update_self]
    exact hself
  · rw [Function.update_of_ne hj, hlocks j hj, hunlocks j hj]
    exact u.agrees j

theorem move (u : UsesLock r stage) {g : LockStage} (h : LockMove i r (stage i) r' g) :
    UsesLock r' (Function.update stage i g) := by
  have hother : ∀ j, j ≠ i → (Function.update stage i g j = .holding ↔ stage j = .holding) :=
    fun j hj => by rw [Function.update_of_ne hj]
  have happend : ∀ (l : List ι) j, j ≠ i → (l ++ [i]).count j = l.count j := by
    intro l j hj
    rw [List.count_append, List.count_singleton, if_neg (by simpa using Ne.symm hj), Nat.add_zero]
  have hagrees := u.agrees i
  generalize hstage : stage i = old at h hagrees
  cases h with
  | keep =>
      rw [← hstage, Function.update_eq_self]
      exact u
  | acquire free =>
      have hfree : Exclusive (fun i => stage i = .holding) false := free ▸ u.exclusive
      refine ⟨hfree.acquire (Function.update_self i _ stage) hother,
        u.agrees_update ⟨?_, hagrees.2⟩ (happend r.locks) fun _ _ => rfl⟩
      rw [List.count_append, hagrees.1, List.count_singleton_self]
  | release =>
      refine ⟨u.exclusive.release hstage ?_ hother,
        u.agrees_update ⟨?_, Nat.le_of_eq hagrees.1⟩ (fun _ _ => rfl) (happend r.unlocks)⟩
      · rw [Function.update_self]
        exact LockStage.noConfusion
      · rw [List.count_append, hagrees.2, List.count_singleton_self, hagrees.1]
  | refuse =>
      refine ⟨u.exclusive.congr fun j => ?_,
        u.agrees_update ⟨hagrees.2.trans hagrees.1.symm, ?_⟩ (fun _ _ => rfl) fun _ _ => rfl⟩
      · by_cases hj : j = i
        · subst hj
          rw [Function.update_self, hstage]
          exact iff_of_false LockStage.noConfusion LockStage.noConfusion
        · exact hother j hj
      · rw [hagrees.1]
        exact Nat.zero_le 1

end UsesLock

section Run
variable {S L : Type} {step : ι → S → L → Option (S × L)} {record : S → LockRecord ι}
  {stage : L → LockStage} {s s' : State ι S L}

def Disciplined (step : ι → S → L → Option (S × L)) (record : S → LockRecord ι)
    (stage : L → LockStage) : Prop :=
  ∀ i shared l r, (stage l = .holding → (record shared).locked = true) →
    step i shared l = some r → LockMove i (record shared) (stage l) (record r.1) (stage r.2)

theorem UsesLock.act {i : ι} (h : Disciplined step record stage)
    (u : UsesLock (record s.shared) fun i => stage (s.party i))
    (hact : act step s i = some s') : UsesLock (record s'.shared) fun i => stage (s'.party i) := by
  obtain ⟨shared, l, hstep, rfl⟩ := act_eq_some hact
  have hmove := u.move (h i _ _ _ (fun hi => u.locked_of_holding hi) hstep)
  have hparty : (fun j => stage (Function.update s.party i l j)) =
      Function.update (fun j => stage (s.party j)) i (stage l) :=
    funext fun j => Function.apply_update (fun _ => stage) s.party i l j
  rw [hparty]
  exact hmove

/-- What holds of the lock at first, holds after every run of such steps. -/
theorem run_usesLock (h : Disciplined step record stage)
    (hinit : UsesLock (record s.shared) fun i => stage (s.party i)) (schedule : List ι)
    (hrun : run step s schedule = some s') :
    UsesLock (record s'.shared) fun i => stage (s'.party i) :=
  run_invariant (fun s _ _ (u : UsesLock (record s.shared) fun i => stage (s.party i)) hact =>
    u.act h hact) hinit schedule hrun

end Run

structure SectionOrder {ι : Type} (near : ι → Prop) (locks order : List ι) : Prop where
  near_last : ∀ i, near i → locks = order ++ [i]
  between : (∀ i, ¬ near i) → locks = order

namespace SectionOrder
variable {ι : Type} {near near' : ι → Prop} {locks order : List ι} {i : ι}

theorem start (h : ∀ i, ¬ near i) : SectionOrder near [] [] :=
  ⟨fun i hi => absurd hi (h i), fun _ => rfl⟩

theorem prefix_locks (o : SectionOrder near locks order) : order <+: locks := by
  by_cases hnear : ∃ i, near i
  · obtain ⟨i, hi⟩ := hnear
    rw [o.near_last i hi]
    exact List.prefix_append _ _
  · have hall := o.between (not_exists.mp hnear)
    exact hall ▸ List.prefix_refl locks

theorem congr (o : SectionOrder near locks order) (h : ∀ j, near' j ↔ near j) :
    SectionOrder near' locks order :=
  ⟨fun j hj => o.near_last j ((h j).mp hj), fun hnone => o.between fun j hj => hnone j ((h j).mpr hj)⟩

theorem lock (o : SectionOrder near locks order) (hnone : ∀ j, ¬ near j) (hi : near' i)
    (honly : ∀ j, near' j → j = i) : SectionOrder near' (locks ++ [i]) order :=
  ⟨fun j hj => by rw [o.between hnone, honly j hj], fun h => absurd hi (h i)⟩

theorem pass (o : SectionOrder near locks order) (hi : near i) (hnone : ∀ j, ¬ near' j) :
    SectionOrder near' locks (order ++ [i]) :=
  ⟨fun j hj => absurd hj (hnone j), fun _ => o.near_last i hi⟩

end SectionOrder
end Interleaving

import Aesd.SerialAccept

/-! Where the loop of `main` can come to, and in which order its list is then. -/
namespace Aesd
open Interleaving SList

/-- The loop comes to `p` with this memory in some order of its steps and the ends of its threads. -/
def ReachedAt (m : ThreadTable) (p : LoopPhase) : Prop :=
  ∃ schedule loop, run threadStep loopStart schedule = some loop ∧ loop.shared = m ∧
    loop.party none = p

def KeptAt (P : ThreadTable → LoopPhase → Prop)
    (s : State (Option Nat) ThreadTable LoopPhase) : Prop :=
  ReachedAt s.shared (s.party none) ∧ P s.shared (s.party none)

/-- The threads are on the list in the order in which they were created. -/
structure NewestFirst (m : ThreadTable) (p : LoopPhase) : Prop where
  sorted : m.listed.Pairwise (· > ·)
  newest : ∀ t ∈ p.entering, t + 1 = m.created

section Loop
variable {m m' : ThreadTable} {p p' : LoopPhase} {l : List Nat} {t : Nat}

theorem listed_loopStep (inv : LoopInv m p l) (hstep : loopStep m p = some (m', p')) :
    m'.listed.Sublist (p.entering ++ l) := by
  cases p with
  | accepting =>
      cases hstep
      rw [(inv.accept _).listed]
      exact List.Sublist.refl l
  | inserting t =>
      have inv' := inv.insert (Function.update m.tdata t t) (m.counter + 1)
      have hlisted := inv'.listed
      rw [loopStep] at hstep
      split at hstep <;> cases hstep <;> exact hlisted ▸ List.Sublist.refl _
  | visiting datap =>
      cases datap <;> cases hstep <;> exact inv.listed ▸ List.Sublist.refl _
  | examining datap datapTemp =>
      cases (loopStep_examining m datap datapTemp).symm.trans hstep
      exact inv.listed ▸ List.Sublist.refl _
  | joining datap datapTemp =>
      rw [loopStep] at hstep
      split at hstep <;> cases hstep
      exact inv.listed ▸ List.Sublist.refl _
  | removing datap datapTemp =>
      obtain ⟨kept, rest, rfl, -, -⟩ := inv.position
      obtain ⟨l', inv'⟩ := loopInv_loopStep inv hstep
      have hfuel : kept.length ≤ m.created := by
        have hle := inv.length_le
        rw [List.length_append] at hle
        omega
      obtain ⟨head, hremove, hchain, -⟩ := remove_eq inv.chain inv.nodup hfuel
      rw [loopStep, hremove] at hstep
      cases hstep
      rw [inv'.listed, inv'.chain.eq hchain]
      exact List.Sublist.append_left (List.sublist_cons_self _ _) kept

theorem newest_loopStep (hstep : loopStep m p = some (m', p')) :
    ∀ t ∈ p'.entering, t + 1 = m'.created := by
  intro t ht
  cases p with
  | accepting =>
      cases hstep
      rw [List.mem_singleton.mp ht]
  | inserting t' =>
      rw [loopStep] at hstep
      split at hstep <;> cases hstep <;> cases ht
  | visiting datap => cases datap <;> cases hstep <;> cases ht
  | examining datap datapTemp =>
      cases (loopStep_examining m datap datapTemp).symm.trans hstep
      cases ht
  | joining datap datapTemp =>
      rw [loopStep] at hstep
      split at hstep <;> cases hstep
      cases ht
  | removing datap datapTemp =>
      obtain ⟨head, -, heq⟩ := Option.map_eq_some_iff.mp hstep
      cases heq
      cases ht

theorem NewestFirst.step (h : NewestFirst m p) (inv : LoopInv m p l)
    (hstep : loopStep m p = some (m', p')) : NewestFirst m' p' := by
  refine ⟨List.Pairwise.sublist (listed_loopStep inv hstep) ?_, newest_loopStep hstep⟩
  have hsorted := h.sorted
  rw [inv.listed] at hsorted
  refine List.pairwise_append.mpr ⟨?_, hsorted, fun t ht u hu => ?_⟩
  · cases p with
    | inserting t => exact List.pairwise_singleton _ t
    | _ => exact List.Pairwise.nil
  · have hnewest := h.newest t ht
    have hlt := inv.lt_created u hu
    have hne : u ≠ t := fun heq => (inv.fresh t ht).2.1 (heq ▸ hu)
    omega

namespace ReachedAt

theorem start : ReachedAt .start .accepting := ⟨[], loopStart, rfl, rfl, rfl⟩

theorem main (h : ReachedAt m p) (hstep : loopStep m p = some (m', p')) : ReachedAt m' p' := by
  obtain ⟨schedule, loop, hrun, rfl, rfl⟩ := h
  refine ⟨schedule ++ [none], ⟨m', Function.update loop.party none p'⟩, ?_, rfl,
    Function.update_self none p' loop.party⟩
  rw [run_append_singleton, hrun, Option.bind_some, act, threadStep, hstep]
  rfl

theorem exit (h : ReachedAt m p) (hexit : exitStep t m = some m') : ReachedAt m' p := by
  obtain ⟨schedule, loop, hrun, rfl, rfl⟩ := h
  refine ⟨schedule ++ [some t], ⟨m', Function.update loop.party (some t) (loop.party (some t))⟩, ?_,
    rfl, Function.update_of_ne (Option.some_ne_none t).symm (loop.party (some t)) loop.party⟩
  rw [run_append_singleton, hrun, Option.bind_some, act, threadStep, hexit]
  rfl

theorem loopInv (h : ReachedAt m p) : LoopInv m p m.listed := by
  obtain ⟨schedule, loop, hrun, rfl, rfl⟩ := h
  obtain ⟨l, inv⟩ := run_invariant loopInv_step ⟨[], LoopInv.start⟩ schedule hrun
  rwa [inv.listed]

theorem serialInv (h : ReachedAt m p) (hfew : m.created < 2 ^ 31) : SerialInv m p m.listed := by
  obtain ⟨schedule, loop, hrun, rfl, rfl⟩ := h
  have hstart : SerialLoop loopStart := fun _ => ⟨[], .start⟩
  obtain ⟨l, inv⟩ := run_invariant (fun _ _ _ h hact => h.act hact) hstart schedule hrun hfew
  rwa [inv.toLoopInv.listed]

theorem induct (P : ThreadTable → LoopPhase → Prop) (hstart : P .start .accepting)
    (hmain : ∀ m p m' p', ReachedAt m p → P m p → loopStep m p = some (m', p') → P m' p')
    (hexit : ∀ m p t m', P m p → exitStep t m = some m' → P m' p) (h : ReachedAt m p) : P m p := by
  obtain ⟨schedule, loop, hrun, rfl, rfl⟩ := h
  have hkept : KeptAt P loop := by
    refine run_invariant (fun s i s' hs hact => ?_) ?_ schedule hrun
    · obtain ⟨hreached, hP⟩ := hs
      obtain ⟨m, p, hstep, rfl⟩ := act_eq_some hact
      cases i with
      | none =>
          dsimp only [KeptAt]
          rw [Function.update_self]
          exact ⟨hreached.main hstep, hmain _ _ _ _ hreached hP hstep⟩
      | some t =>
          obtain ⟨m', hended, heq⟩ := Option.map_eq_some_iff.mp hstep
          cases heq
          dsimp only [KeptAt]
          rw [Function.update_of_ne (Option.some_ne_none t).symm]
          exact ⟨hreached.exit hended, hexit _ _ t _ hP hended⟩
    · exact ⟨start, hstart⟩
  exact hkept.2

theorem newestFirst (h : ReachedAt m p) : NewestFirst m p := by
  refine induct NewestFirst ⟨List.Pairwise.nil, fun t ht => by cases ht⟩ ?_ ?_ h
  · intro m p m' p' hreached hnewest hstep
    exact hnewest.step hreached.loopInv hstep
  · intro m p t m' hnewest hended
    rw [exitStep] at hended
    split at hended <;> cases hended
    exact ⟨hnewest.sorted, hnewest.newest⟩

theorem first_listed (h : ReachedAt m p) :
    m.created ≤ 1 → m.joined = [] ∧ (p = .accepting ∨ p = .inserting 0) := by
  refine induct (fun m p => m.created ≤ 1 → m.joined = [] ∧ (p = .accepting ∨ p = .inserting 0))
    (fun _ => ⟨rfl, Or.inl rfl⟩) ?_ ?_ h
  · intro m p m' p' hreached hP hstep hfew
    have hless := (loopStep_created hstep).1
    obtain ⟨hjoined, rfl | rfl⟩ := hP (Nat.le_trans hless hfew)
    · cases hstep
      obtain hzero : m.created = 0 := Nat.le_zero.mp (Nat.le_of_succ_le_succ hfew)
      exact ⟨hjoined, Or.inr (by rw [hzero])⟩
    · have inv := hreached.serialInv (by omega)
      have hone : 0 + 1 = m.created := inv.clears.1
      have hcounter : m.counter = BitVec.ofNat 32 (m.created - 1) := inv.counted
      rw [← hone] at hcounter
      rw [loopStep, hcounter] at hstep
      cases hstep
      exact ⟨hjoined, Or.inl rfl⟩
  · intro m p t m' hP hended
    rw [exitStep] at hended
    split at hended <;> cases hended
    exact hP

theorem listed_accepting (h : ReachedAt m .accepting) :
    m.listed = (List.range m.created).reverse.filter (· ∉ m.joined) := by
  have inv := h.loopInv
  have hrange : ((List.range m.created).reverse.filter (· ∉ m.joined)).Pairwise (· > ·) := by
    refine List.Pairwise.filter _ (List.pairwise_reverse.mpr ?_)
    exact List.pairwise_lt_range
  have hmem : ∀ t, t ∈ m.listed ↔ t ∈ (List.range m.created).reverse.filter (· ∉ m.joined) := by
    intro t
    rw [List.mem_filter, List.mem_reverse, List.mem_range, decide_eq_true_eq]
    constructor
    · intro ht
      exact ⟨inv.lt_created t ht, fun hj => by cases inv.joined_listed t ht hj⟩
    · rintro ⟨hlt, hnot⟩
      rcases inv.known t hlt with h | h | h
      · exact h
      · exact absurd h hnot
      · cases h
  have hnodup := hrange.imp fun {a b} (hab : a > b) => (Nat.ne_of_lt hab).symm
  refine List.Perm.eq_of_pairwise (fun a b _ _ hab hba => ?_) h.newestFirst.sorted hrange
    ((List.perm_ext_iff_of_nodup inv.nodup hnodup).mpr hmem)
  exact absurd hab (Nat.lt_asymm hba)

end ReachedAt
end Loop

end Aesd

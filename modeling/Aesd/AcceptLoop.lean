import Aesd.Lib.Interleaving
import Aesd.Lib.SList
import Mathlib.Data.List.Perm.Subperm

/-! The loop of `main` and the threads it creates. A thread comes to the loop's notice through
`thread_complete_success` in its `thread_data`; the loop keeps the threads in a list that it
edits while it walks through it. The n-th connection has the n-th `thread_data`, thread and
list element; calls that fail and signals are left out. -/
namespace Aesd
open Interleaving SList

/-- Where the loop is: `accepting` before `accept` and `pthread_create`, `inserting` before
`SLIST_INSERT_HEAD`, `visiting` at the head of `SLIST_FOREACH_SAFE`, `examining` before the
test of the flag, `joining` in `pthread_join`, `removing` before `SLIST_REMOVE`. -/
inductive LoopPhase
  | accepting
  | inserting (threadId : Nat)
  | visiting (datap : Option Nat)
  | examining (datap : Nat) (datapTemp : Option Nat)
  | joining (datap : Nat) (datapTemp : Option Nat)
  | removing (datap : Nat) (datapTemp : Option Nat)
  deriving DecidableEq

/-- The memory that `main` and the threads share, and a record of the calls of `pthread_join` and
of the latest pass through the list. -/
structure ThreadTable where
  created : Nat
  /-- the thread has ended -/
  exited : Nat → Bool
  threadCompleteSuccess : Nat → Bool
  threadId : Nat → Nat
  tdata : Nat → Nat
  head : SList Nat
  counter : BitVec 32
  /-- the thread `pthread_join` was called on, and whether it had ended by then -/
  joinCalls : List (Nat × Bool)
  joined : List Nat
  /-- the list when the pass began -/
  pass : List Nat
  visited : List Nat

def ThreadTable.listed (m : ThreadTable) : List Nat := m.head.walk m.created m.head.first

/-- One step of `main` while its calls succeed and no signal comes; `mainStep` has the failing calls,
the signals and the exits behind them. The condition of the `if` is the assignment
`datap->tdata->thread_complete_success = true`. -/
def loopStep (m : ThreadTable) : LoopPhase → Option (ThreadTable × LoopPhase)
  | .accepting =>
      some ({ m with
        created := m.created + 1
        threadCompleteSuccess := Function.update m.threadCompleteSuccess m.created false },
        .inserting m.created)
  | .inserting threadId =>
      let m := { m with
        threadId := Function.update m.threadId threadId threadId
        tdata := Function.update m.tdata threadId threadId
        head := m.head.insertHead threadId
        counter := m.counter + 1 }
      if BitVec.slt 1 m.counter then
        some ({ m with pass := m.listed, visited := [] }, .visiting m.head.first)
      else some (m, .accepting)
  | .visiting none => some (m, .accepting)
  | .visiting (some datap) => some (m, .examining datap (m.head.next datap))
  | .examining datap datapTemp =>
      let success := Function.update m.threadCompleteSuccess (m.tdata datap) true
      let m := { m with threadCompleteSuccess := success, visited := m.visited ++ [datap] }
      if success (m.tdata datap) then
        let threadId := m.threadId datap
        some ({ m with joinCalls := m.joinCalls ++ [(threadId, m.exited threadId)] },
          .joining datap datapTemp)
      else some (m, .visiting datapTemp)
  | .joining datap datapTemp =>
      if m.exited (m.threadId datap) then
        some ({ m with joined := m.joined ++ [m.threadId datap] }, .removing datap datapTemp)
      else none
  | .removing datap datapTemp =>
      (m.head.remove m.created datap).map fun head => ({ m with head }, .visiting datapTemp)

/-- The last step of `accept_connection_thread`. -/
def exitStep (t : Nat) (m : ThreadTable) : Option ThreadTable :=
  if t < m.created ∧ m.exited t = false then
    some { m with
      threadCompleteSuccess := Function.update m.threadCompleteSuccess t true
      exited := Function.update m.exited t true }
  else none

def threadStep (party : Option Nat) (m : ThreadTable) (p : LoopPhase) :
    Option (ThreadTable × LoopPhase) :=
  match party with
  | none => loopStep m p
  | some t => (exitStep t m).map fun m => (m, p)

def ThreadTable.start : ThreadTable where
  created := 0
  exited _ := false
  threadCompleteSuccess _ := false
  threadId _ := 0
  tdata _ := 0
  head := ⟨none, fun _ => none⟩
  counter := 0
  joinCalls := []
  joined := []
  pass := []
  visited := []

def loopStart : State (Option Nat) ThreadTable LoopPhase := ⟨.start, fun _ => .accepting⟩

namespace LoopPhase

def due : LoopPhase → List Nat
  | examining datap _ => [datap]
  | _ => []

def here : LoopPhase → List Nat
  | examining datap _ => [datap]
  | joining datap _ => [datap]
  | removing datap _ => [datap]
  | _ => []

def entering : LoopPhase → List Nat
  | inserting threadId => [threadId]
  | _ => []

def leaving : LoopPhase → List Nat
  | removing datap _ => [datap]
  | _ => []

def awaited : LoopPhase → List Nat
  | joining datap _ => [datap]
  | _ => []

def onward : LoopPhase → Option Nat
  | visiting datap => datap
  | examining _ datapTemp => datapTemp
  | joining _ datapTemp => datapTemp
  | removing _ datapTemp => datapTemp
  | _ => none

theorem nodup_awaited (p : LoopPhase) : p.awaited.Nodup := by
  cases p <;> simp [awaited]

theorem awaited_here {p : LoopPhase} {t : Nat} (h : t ∈ p.awaited) : t ∈ p.here := by
  cases p <;> first | exact h | cases h

theorem due_here {p : LoopPhase} {t : Nat} (h : t ∈ p.due) : t ∈ p.here := by
  cases p <;> first | exact h | cases h

theorem notMem_leaving {p : LoopPhase} {t : Nat} (h : t ∈ p.awaited) : t ∉ p.leaving := by
  cases p <;> simp_all [awaited, leaving]

end LoopPhase

structure KeepsThreads (s : State (Option Nat) ThreadTable LoopPhase) : Prop where
  /-- on the list once, or joined, or just about to be put on the list -/
  listed : ∀ t < s.shared.created,
    (s.shared.listed.map s.shared.threadId).count t = 1 ∨
      (t ∈ s.shared.joined ∧ (s.shared.listed.map s.shared.threadId).count t = 0) ∨
      s.party none = .inserting t
  joined_once : (s.shared.joinCalls.map Prod.fst).Nodup
  /-- the elements visited and those to come are the list as it was, each once -/
  in_turn : s.shared.pass = s.shared.visited ++ (s.party none).due ++
    s.shared.head.walk s.shared.created (s.party none).onward
  pass_nodup : s.shared.pass.Nodup
  on_list : ∀ datap ∈ (s.party none).due, datap ∈ s.shared.listed
  removed : ∀ datap datapTemp, s.party none = .removing datap datapTemp →
    (s.shared.head.remove s.shared.created datap).isSome = true
  /-- `pthread_join` has been called on threads that had ended, and does not wait -/
  joins_finished : ∀ call ∈ s.shared.joinCalls, call.2 = true
  joins_at_once : ∀ datap datapTemp, s.party none = .joining datap datapTemp →
    s.shared.exited (s.shared.threadId datap) = true

def FinishedWhenExamined (s : State (Option Nat) ThreadTable LoopPhase) (i : Option Nat) : Prop :=
  i = none → ∀ datap datapTemp, s.party none = .examining datap datapTemp →
    s.shared.exited (s.shared.threadId datap) = true

structure LoopInv (m : ThreadTable) (p : LoopPhase) (l : List Nat) : Prop where
  chain : Chain m.head.next m.head.first l
  nodup : l.Nodup
  fields : ∀ a ∈ l, m.threadId a = a
  lt_created : ∀ t ∈ l, t < m.created
  known : ∀ t < m.created, t ∈ l ∨ t ∈ m.joined ∨ t ∈ p.entering
  fresh : ∀ t ∈ p.entering, t < m.created ∧ t ∉ l ∧ t ∉ m.joined
  joined_lt : ∀ t ∈ m.joined, t < m.created
  joined_nodup : m.joined.Nodup
  joined_listed : ∀ t ∈ l, t ∈ m.joined → t ∈ p.leaving
  leaving_joined : ∀ t ∈ p.leaving, t ∈ m.joined
  calls : m.joinCalls.map Prod.fst = m.joined ++ p.awaited
  exited : ∀ call ∈ m.joinCalls, call.2 = true → m.exited call.1 = true
  position : ∃ kept rest, l = kept ++ (p.here ++ rest) ∧ Chain m.head.next p.onward rest ∧
    m.pass = m.visited ++ (p.due ++ rest)
  pass_nodup : m.pass.Nodup

namespace LoopInv
variable {m : ThreadTable} {l : List Nat} {datap : Nat} {datapTemp : Option Nat}

theorem length_le {p : LoopPhase} (inv : LoopInv m p l) : l.length ≤ m.created := by
  have hsub : l ⊆ List.range m.created := fun t ht => List.mem_range.mpr (inv.lt_created t ht)
  have hle := (inv.nodup.subperm hsub).length_le
  rwa [List.length_range] at hle

theorem listed {p : LoopPhase} (inv : LoopInv m p l) : m.listed = l :=
  inv.chain.walk inv.length_le

theorem start : LoopInv .start .accepting [] where
  chain := rfl
  nodup := List.nodup_nil
  fields a ha := by cases ha
  lt_created t ht := by cases ht
  known t ht := absurd ht (Nat.not_lt_zero t)
  fresh t ht := by cases ht
  joined_lt t ht := by cases ht
  joined_nodup := List.nodup_nil
  joined_listed t ht := by cases ht
  leaving_joined t ht := by cases ht
  calls := rfl
  exited call hcall := by cases hcall
  position := ⟨[], [], rfl, rfl, rfl⟩
  pass_nodup := List.nodup_nil

theorem accept (inv : LoopInv m .accepting l) (success : Nat → Bool) :
    LoopInv { m with created := m.created + 1, threadCompleteSuccess := success }
      (.inserting m.created) l where
  chain := inv.chain
  nodup := inv.nodup
  fields := inv.fields
  lt_created t ht := Nat.lt_succ_of_lt (inv.lt_created t ht)
  known t ht := by
    rcases Nat.lt_succ_iff_lt_or_eq.mp ht with hlt | rfl
    · exact (inv.known t hlt).imp id (Or.imp id fun h => absurd h List.not_mem_nil)
    · exact Or.inr (Or.inr (List.mem_singleton_self _))
  fresh t ht := by
    obtain rfl := List.mem_singleton.mp ht
    exact ⟨Nat.lt_succ_self _, fun h => Nat.lt_irrefl _ (inv.lt_created _ h),
      fun h => Nat.lt_irrefl _ (inv.joined_lt _ h)⟩
  joined_lt t ht := Nat.lt_succ_of_lt (inv.joined_lt t ht)
  joined_nodup := inv.joined_nodup
  joined_listed := inv.joined_listed
  leaving_joined := inv.leaving_joined
  calls := inv.calls
  exited := inv.exited
  position := inv.position
  pass_nodup := inv.pass_nodup

theorem insert {t : Nat} (inv : LoopInv m (.inserting t) l) (tdata : Nat → Nat)
    (counter : BitVec 32) :
    LoopInv { m with threadId := Function.update m.threadId t t, tdata := tdata
                     head := m.head.insertHead t, counter := counter } .accepting (t :: l) := by
  obtain ⟨hlt, hnot, hjoined⟩ := inv.fresh t (List.mem_singleton_self t)
  exact {
    chain := chain_insertHead inv.chain hnot
    nodup := List.nodup_cons.mpr ⟨hnot, inv.nodup⟩
    fields := by
      intro a ha
      rcases List.mem_cons.mp ha with rfl | ha
      · exact Function.update_self _ _ _
      · exact (Function.update_of_ne (ne_of_mem_of_not_mem ha hnot) _ _).trans (inv.fields a ha)
    lt_created := List.forall_mem_cons.mpr ⟨hlt, inv.lt_created⟩
    known := by
      intro t' ht'
      rcases inv.known t' ht' with h | h | h
      · exact Or.inl (List.mem_cons_of_mem _ h)
      · exact Or.inr (Or.inl h)
      · obtain rfl := List.mem_singleton.mp h
        exact Or.inl List.mem_cons_self
    fresh := fun t' h => by cases h
    joined_lt := inv.joined_lt
    joined_nodup := inv.joined_nodup
    joined_listed := by
      intro t' ht' hj
      rcases List.mem_cons.mp ht' with rfl | ht'
      · exact absurd hj hjoined
      · exact inv.joined_listed t' ht' hj
    leaving_joined := inv.leaving_joined
    calls := inv.calls
    exited := inv.exited
    position := by
      obtain ⟨kept, rest, hl, hrest, hpass⟩ := inv.position
      obtain rfl : rest = [] := hrest.eq (show Chain m.head.next none [] from rfl)
      exact ⟨t :: l, [], (List.append_nil _).symm, rfl, hpass⟩
    pass_nodup := inv.pass_nodup }

theorem begin_pass (inv : LoopInv m .accepting l) :
    LoopInv { m with pass := m.listed, visited := [] } (.visiting m.head.first) l :=
  { inv with
    position := ⟨[], l, rfl, inv.chain, inv.listed⟩
    pass_nodup := by
      rw [inv.listed]
      exact inv.nodup }

theorem end_pass (inv : LoopInv m (.visiting none) l) : LoopInv m .accepting l :=
  { inv with }

theorem visit (inv : LoopInv m (.visiting (some datap)) l) :
    LoopInv m (.examining datap (m.head.next datap)) l :=
  { inv with
    position := by
      obtain ⟨kept, rest, hl, hrest, hpass⟩ := inv.position
      cases rest with
      | nil => cases hrest
      | cons a rest =>
          obtain rfl := Option.some.inj hrest.1
          exact ⟨kept, rest, hl, hrest.2, hpass⟩ }

theorem here_mem {p : LoopPhase} (inv : LoopInv m p l) {a : Nat} (ha : a ∈ p.here) : a ∈ l := by
  obtain ⟨kept, rest, rfl, -⟩ := inv.position
  simp [ha]

theorem examine (inv : LoopInv m (.examining datap datapTemp) l) (success : Nat → Bool) :
    LoopInv { m with
        threadCompleteSuccess := success
        visited := m.visited ++ [datap]
        joinCalls := m.joinCalls ++ [(m.threadId datap, m.exited (m.threadId datap))] }
      (.joining datap datapTemp) l :=
  { inv with
    calls := by
      rw [List.map_append, inv.calls, inv.fields datap (inv.here_mem (List.mem_singleton_self _))]
      simp [LoopPhase.awaited]
    exited := by
      intro call hcall hended
      rcases List.mem_append.mp hcall with hcall | hcall
      · exact inv.exited call hcall hended
      · obtain rfl := List.mem_singleton.mp hcall
        exact hended
    position := by
      obtain ⟨kept, rest, hl, hrest, hpass⟩ := inv.position
      refine ⟨kept, rest, hl, hrest, ?_⟩
      rw [hpass]
      simp [LoopPhase.due] }

theorem join (inv : LoopInv m (.joining datap datapTemp) l) :
    LoopInv { m with joined := m.joined ++ [m.threadId datap] } (.removing datap datapTemp) l := by
  have hmem : datap ∈ l := inv.here_mem (List.mem_singleton_self _)
  have hnot : datap ∉ m.joined := fun h => by cases inv.joined_listed datap hmem h
  rw [inv.fields datap hmem]
  exact { inv with
    known := fun t ht => (inv.known t ht).imp id (Or.imp (List.mem_append_left _) id)
    fresh := fun t ht => by cases ht
    joined_lt := by
      intro t ht
      rcases List.mem_append.mp ht with ht | ht
      · exact inv.joined_lt t ht
      · rw [List.mem_singleton.mp ht]
        exact inv.lt_created datap hmem
    joined_nodup := by
      refine List.nodup_append.mpr ⟨inv.joined_nodup, List.nodup_singleton _, fun t ht t' ht' heq => ?_⟩
      rw [heq, List.mem_singleton.mp ht'] at ht
      exact hnot ht
    joined_listed := by
      intro t ht hj
      rcases List.mem_append.mp hj with hj | hj
      · cases inv.joined_listed t ht hj
      · exact hj
    leaving_joined := fun t ht => List.mem_append_right _ ht
    calls := by
      rw [inv.calls]
      simp [LoopPhase.awaited] }

theorem remove (inv : LoopInv m (.removing datap datapTemp) l) :
    ∃ head l', m.head.remove m.created datap = some head ∧
      LoopInv { m with head := head } (.visiting datapTemp) l' := by
  obtain ⟨kept, rest, rfl, hrest, hpass⟩ := inv.position
  have hfuel : kept.length ≤ m.created := by
    have hle := inv.length_le
    rw [List.length_append] at hle
    omega
  obtain ⟨head, hremove, hchain, hnext⟩ := remove_eq inv.chain inv.nodup hfuel
  have hsub : ∀ t ∈ kept ++ rest, t ∈ kept ++ datap :: rest ∧ t ≠ datap := by
    intro t ht
    have hnodup := List.nodup_middle.mp inv.nodup
    refine ⟨?_, ne_of_mem_of_not_mem ht (List.nodup_cons.mp hnodup).1⟩
    exact List.mem_append.mpr ((List.mem_append.mp ht).imp id (List.mem_cons_of_mem _))
  refine ⟨head, kept ++ rest, hremove, { inv with
    chain := hchain
    nodup := (List.nodup_cons.mp (List.nodup_middle.mp inv.nodup)).2
    fields := fun a ha => inv.fields a (hsub a ha).1
    lt_created := fun t ht => inv.lt_created t (hsub t ht).1
    known := ?_
    fresh := fun t ht => by cases ht
    joined_listed := fun t ht hj => ?_
    leaving_joined := fun t ht => by cases ht
    position := ⟨kept, rest, rfl, hrest.congr fun a ha => ?_, hpass⟩ }⟩
  · intro t ht
    by_cases heq : t = datap
    · subst heq
      exact Or.inr (Or.inl (inv.leaving_joined _ (List.mem_singleton_self _)))
    · refine (inv.known t ht).imp (fun hmem => ?_) id
      simpa [heq, LoopPhase.here] using hmem
  · exact absurd (List.mem_singleton.mp (inv.joined_listed t (hsub t ht).1 hj)) (hsub t ht).2
  · exact hnext a (List.mem_cons_of_mem _ ha)

theorem exit {p : LoopPhase} (inv : LoopInv m p l) (success : Nat → Bool) (t : Nat) :
    LoopInv { m with threadCompleteSuccess := success
                     exited := Function.update m.exited t true } p l :=
  { inv with
    exited := by
      intro call hcall hended
      by_cases heq : call.1 = t
      · rw [heq]
        exact Function.update_self _ _ _
      · exact (Function.update_of_ne heq _ _).trans (inv.exited call hcall hended) }

end LoopInv

section Run
variable {s s' : State (Option Nat) ThreadTable LoopPhase} {i : Option Nat}

theorem loopInv_loopStep {m m' : ThreadTable} {p p' : LoopPhase} {l : List Nat}
    (inv : LoopInv m p l) (hstep : loopStep m p = some (m', p')) : ∃ l', LoopInv m' p' l' := by
  cases p with
  | accepting =>
      cases hstep
      exact ⟨l, inv.accept _⟩
  | inserting threadId =>
      have inv' := inv.insert (Function.update m.tdata threadId threadId) (m.counter + 1)
      rw [loopStep] at hstep
      split at hstep
      · cases hstep
        exact ⟨_, inv'.begin_pass⟩
      · cases hstep
        exact ⟨_, inv'⟩
  | visiting datap =>
      cases datap with
      | none =>
          cases hstep
          exact ⟨l, inv.end_pass⟩
      | some datap =>
          cases hstep
          exact ⟨l, inv.visit⟩
  | examining datap datapTemp =>
      simp only [loopStep, Function.update_self, if_true, Option.some.injEq, Prod.mk.injEq] at hstep
      obtain ⟨rfl, rfl⟩ := hstep
      exact ⟨l, inv.examine _⟩
  | joining datap datapTemp =>
      rw [loopStep] at hstep
      split at hstep
      · cases hstep
        exact ⟨l, inv.join⟩
      · cases hstep
  | removing datap datapTemp =>
      obtain ⟨head, l', hremove, inv'⟩ := inv.remove
      rw [loopStep, hremove] at hstep
      cases hstep
      exact ⟨l', inv'⟩

theorem loopInv_step (s : State (Option Nat) ThreadTable LoopPhase) (i : Option Nat)
    (s' : State (Option Nat) ThreadTable LoopPhase) (h : ∃ l, LoopInv s.shared (s.party none) l)
    (hact : act threadStep s i = some s') : ∃ l, LoopInv s'.shared (s'.party none) l := by
  obtain ⟨l, inv⟩ := h
  obtain ⟨m, p, hstep, rfl⟩ := act_eq_some hact
  cases i with
  | none =>
      dsimp only
      rw [Function.update_self]
      exact loopInv_loopStep inv hstep
  | some t =>
      obtain ⟨m', hexit, heq⟩ := Option.map_eq_some_iff.mp hstep
      cases heq
      dsimp only
      rw [Function.update_of_ne (Option.some_ne_none t).symm]
      rw [exitStep] at hexit
      split at hexit
      · cases hexit
        exact ⟨l, inv.exit _ t⟩
      · cases hexit

/-- `pthread_join` is called on a thread that has not ended exactly in the steps that do not meet
the condition. -/
theorem joins_finished_step (s : State (Option Nat) ThreadTable LoopPhase) (i : Option Nat)
    (s' : State (Option Nat) ThreadTable LoopPhase) (hact : act threadStep s i = some s') :
    (∀ call ∈ s'.shared.joinCalls, call.2 = true) ↔
      (∀ call ∈ s.shared.joinCalls, call.2 = true) ∧ FinishedWhenExamined s i := by
  obtain ⟨m, p, hstep, rfl⟩ := act_eq_some hact
  have hother : (∀ datap datapTemp, s.party none ≠ .examining datap datapTemp) →
      FinishedWhenExamined s i := fun hne _ datap datapTemp heq => absurd heq (hne _ _)
  cases i with
  | some t =>
      obtain ⟨m', hexit, heq⟩ := Option.map_eq_some_iff.mp hstep
      cases heq
      rw [exitStep] at hexit
      split at hexit
      · cases hexit
        exact (and_iff_left fun heq => by cases heq).symm
      · cases hexit
  | none =>
      dsimp only [threadStep] at hstep
      cases hphase : s.party none with
      | accepting =>
          rw [hphase] at hstep
          cases hstep
          exact (and_iff_left (hother (by simp [hphase]))).symm
      | inserting threadId =>
          rw [hphase, loopStep] at hstep
          split at hstep <;> cases hstep <;>
            exact (and_iff_left (hother (by simp [hphase]))).symm
      | visiting datap =>
          rw [hphase] at hstep
          cases datap <;> cases hstep <;> exact (and_iff_left (hother (by simp [hphase]))).symm
      | examining datap datapTemp =>
          simp only [hphase, loopStep, Function.update_self, if_true, Option.some.injEq,
            Prod.mk.injEq] at hstep
          obtain ⟨rfl, rfl⟩ := hstep
          dsimp only
          rw [List.forall_mem_append, List.forall_mem_singleton, FinishedWhenExamined, hphase]
          simp
      | joining datap datapTemp =>
          rw [hphase, loopStep] at hstep
          split at hstep <;> cases hstep
          exact (and_iff_left (hother (by simp [hphase]))).symm
      | removing datap datapTemp =>
          rw [hphase] at hstep
          obtain ⟨head, -, heq⟩ := Option.map_eq_some_iff.mp hstep
          cases heq
          exact (and_iff_left (hother (by simp [hphase]))).symm

theorem joins_finished_iff {schedule : List (Option Nat)}
    (hrun : run threadStep loopStart schedule = some s) :
    (∀ call ∈ s.shared.joinCalls, call.2 = true) ↔
      Meets threadStep FinishedWhenExamined loopStart schedule :=
  run_iff_meets loopInv_step (fun s i s' _ hact => joins_finished_step s i s' hact)
    ⟨[], LoopInv.start⟩ (fun _ h => by cases h) schedule hrun

theorem LoopInv.keeps {l : List Nat} (inv : LoopInv s.shared (s.party none) l)
    (hjoins : ∀ call ∈ s.shared.joinCalls, call.2 = true) : KeepsThreads s where
  listed := by
    intro t ht
    have hids : s.shared.listed.map s.shared.threadId = l := by
      rw [inv.listed]
      exact (List.map_congr_left inv.fields).trans l.map_id
    rw [hids]
    by_cases hmem : t ∈ l
    · exact Or.inl (List.count_eq_one_of_mem inv.nodup hmem)
    · rcases inv.known t ht with h | h | h
      · exact absurd h hmem
      · exact Or.inr (Or.inl ⟨h, List.count_eq_zero_of_not_mem hmem⟩)
      · refine Or.inr (Or.inr ?_)
        cases hphase : s.party none with
        | inserting t' =>
            rw [hphase] at h
            rw [List.mem_singleton.mp h]
        | _ =>
            rw [hphase] at h
            cases h
  joined_once := by
    rw [inv.calls]
    refine List.nodup_append.mpr ⟨inv.joined_nodup, (s.party none).nodup_awaited, ?_⟩
    rintro t ht t' hawaited rfl
    have hleaving := inv.joined_listed t (inv.here_mem (LoopPhase.awaited_here hawaited)) ht
    exact LoopPhase.notMem_leaving hawaited hleaving
  in_turn := by
    obtain ⟨kept, rest, hl, hrest, hpass⟩ := inv.position
    have hlen : rest.length ≤ s.shared.created := by
      have hle := inv.length_le
      rw [hl, List.length_append, List.length_append] at hle
      omega
    rw [hrest.walk hlen, hpass, List.append_assoc]
  pass_nodup := inv.pass_nodup
  on_list datap hdue := by
    rw [inv.listed]
    exact inv.here_mem (LoopPhase.due_here hdue)
  removed datap datapTemp hphase := by
    rw [hphase] at inv
    obtain ⟨head, -, hremove, -⟩ := inv.remove
    rw [hremove]
    rfl
  joins_finished := hjoins
  joins_at_once datap datapTemp hphase := by
    rw [hphase] at inv
    have hcalled : datap ∈ s.shared.joinCalls.map Prod.fst := by
      rw [inv.calls]
      exact List.mem_append_right _ (List.mem_singleton_self datap)
    obtain ⟨call, hcall, rfl⟩ := List.mem_map.mp hcalled
    rw [inv.fields call.1 (inv.here_mem (List.mem_singleton_self _))]
    exact inv.exited call hcall (hjoins call hcall)

/-- The bookkeeping of the accept loop. However many connections there are and in whatever order
their threads end, it is right at the end of a run exactly when every thread had ended by
the time the loop came to the test of its flag. -/
theorem keepsThreads_iff (schedule : List (Option Nat))
    (hrun : run threadStep loopStart schedule = some s) :
    KeepsThreads s ↔ Meets threadStep FinishedWhenExamined loopStart schedule := by
  rw [← joins_finished_iff hrun]
  obtain ⟨l, inv⟩ := run_invariant loopInv_step ⟨[], LoopInv.start⟩ schedule hrun
  exact ⟨fun h => h.joins_finished, inv.keeps⟩

theorem keepsThreads_two : ∃ s,
    run threadStep loopStart [none, none, some 0, none, some 1, none, none, none, none, none,
      none, none, none, none, none] = some s ∧
      s.shared.joined = [1, 0] ∧ s.shared.listed = [] ∧ KeepsThreads s := by
  obtain ⟨s, hs⟩ : ∃ s, run threadStep loopStart [none, none, some 0, none, some 1, none, none,
    none, none, none, none, none, none, none, none] = some s := ⟨_, rfl⟩
  have hvalues : (run threadStep loopStart [none, none, some 0, none, some 1, none, none, none,
      none, none, none, none, none, none, none]).map (fun s =>
        (s.shared.joinCalls, s.shared.joined, s.shared.listed)) =
      some ([(1, true), (0, true)], [1, 0], []) := by decide +kernel
  rw [hs, Option.map_some, Option.some.injEq, Prod.mk.injEq, Prod.mk.injEq] at hvalues
  refine ⟨s, hs, hvalues.2.1, hvalues.2.2, (keepsThreads_iff _ hs).mpr ?_⟩
  refine (joins_finished_iff hs).mp ?_
  rw [hvalues.1]
  simp

/-- The second connection's pass joins that connection's own thread at once. -/
theorem not_keepsThreads_running : ∃ s,
    run threadStep loopStart [none, none, none, none, none, none] = some s ∧
      s.party none = .joining 1 (some 0) ∧ s.shared.exited 1 = false ∧ ¬ KeepsThreads s := by
  refine ⟨_, rfl, rfl, rfl, fun h => ?_⟩
  exact Bool.false_ne_true (h.joins_finished (1, false) (List.mem_singleton_self _))

end Run

end Aesd

import Aesd.MainShutdown

/-! After a terminating signal. What `main` still has to do is counted: the calls before the loop, one
iteration of it, the pass through the list, and the shutdown. Each of its steps leaves less. -/
namespace Aesd
open SList

namespace LoopPhase

/-- The steps that are left with `n` threads on the list and `r` of them ahead of the pass. -/
def work (n r : Nat) : LoopPhase → Nat
  | accepting => 5 + 2 * n
  | inserting _ => 13 + 6 * n
  | visiting _ => 6 + 2 * n + 4 * r
  | examining _ _ => 9 + 2 * n + 4 * r
  | joining _ _ => 8 + 2 * n + 4 * r
  | removing _ _ => 7 + 2 * n + 4 * r

end LoopPhase

def ThreadTable.work (m : ThreadTable) (p : LoopPhase) : Nat :=
  p.work m.listed.length (m.head.walk m.created p.onward).length

def StartCall.left : StartCall → Nat
  | sigaction .sigint => 9
  | sigaction .sigterm => 8
  | sigaction .sigalrm => 7
  | mutexInit => 6
  | getaddrinfo => 5
  | socket => 4
  | setsockopt => 3
  | bind => 2
  | fork => 1

def MainPhase.work (m : ThreadTable) : MainPhase → Nat
  | starting call => 16 + call.left + 6 * m.listed.length
  | listening => 16 + 6 * m.listed.length
  | accepting => 15 + 6 * m.listed.length
  | creating => 14 + 6 * m.listed.length
  | looping p => m.work p
  | testing => 5 + 2 * m.listed.length
  | leaving => 4 + 2 * m.listed.length
  | shuttingDown (.emptying _) _ => 3 + 2 * m.listed.length
  | shuttingDown (.unlinking _) _ => 2 + 2 * m.listed.length
  | shuttingDown .disconnecting _ => 2
  | shuttingDown .closing _ => 1
  | exited _ => 0
  | killed _ => 0

section Loop
variable {m m' : ThreadTable} {p p' : LoopPhase} {l : List Nat}

theorem LoopInv.ahead (inv : LoopInv m p l) : ∃ kept rest, m.listed = kept ++ (p.here ++ rest) ∧
    Chain m.head.next p.onward rest ∧ m.head.walk m.created p.onward = rest := by
  obtain ⟨kept, rest, hl, hrest, -⟩ := inv.position
  refine ⟨kept, rest, inv.listed.trans hl, hrest, hrest.walk ?_⟩
  have hle := inv.length_le
  rw [hl, List.length_append, List.length_append] at hle
  omega

theorem LoopInv.ahead_le (inv : LoopInv m p l) :
    (m.head.walk m.created p.onward).length ≤ m.listed.length := by
  obtain ⟨kept, rest, hl, -, hahead⟩ := inv.ahead
  rw [hahead, hl, List.length_append, List.length_append]
  omega

theorem loopStep_work (inv : LoopInv m p l) (hne : p ≠ .accepting)
    (hstep : loopStep m p = some (m', p')) : m'.work p' + 1 ≤ m.work p := by
  obtain ⟨l', inv'⟩ := loopInv_loopStep inv hstep
  have hsub := (listed_loopStep inv hstep).length_le
  rw [← inv.listed, List.length_append] at hsub
  obtain ⟨kept, rest, hl, hrest, hahead⟩ := inv.ahead
  obtain ⟨kept', rest', hl', hrest', hahead'⟩ := inv'.ahead
  have hle' := inv'.ahead_le
  rw [hahead'] at hle'
  rw [ThreadTable.work, ThreadTable.work, hahead, hahead']
  cases p with
  | accepting => exact absurd rfl hne
  | inserting t =>
      rw [loopStep] at hstep
      have hone : (LoopPhase.inserting t).entering.length = 1 := rfl
      split at hstep <;> cases hstep <;> dsimp only [LoopPhase.work] at * <;> omega
  | visiting datap =>
      have hnone : (LoopPhase.visiting datap).entering.length = 0 := rfl
      cases datap with
      | none =>
          cases hstep
          dsimp only [LoopPhase.work] at *
          omega
      | some datap =>
          cases hstep
          cases rest with
          | nil => cases hrest
          | cons a rest =>
              obtain rfl := Option.some.inj hrest.1
              obtain rfl := hrest'.eq hrest.2
              dsimp only [LoopPhase.work] at *
              rw [List.length_cons]
              omega
  | examining datap datapTemp =>
      cases (loopStep_examining m datap datapTemp).symm.trans hstep
      obtain rfl := hrest'.eq hrest
      have hnone : (LoopPhase.examining datap datapTemp).entering.length = 0 := rfl
      dsimp only [LoopPhase.work] at *
      omega
  | joining datap datapTemp =>
      rw [loopStep] at hstep
      split at hstep <;> cases hstep
      obtain rfl := hrest'.eq hrest
      have hnone : (LoopPhase.joining datap datapTemp).entering.length = 0 := rfl
      dsimp only [LoopPhase.work] at *
      omega
  | removing datap datapTemp =>
      have hnone : (LoopPhase.removing datap datapTemp).entering.length = 0 := rfl
      have hfuel : kept.length ≤ m.created := by
        have hle := inv.length_le
        rw [← inv.listed, hl, List.length_append] at hle
        omega
      have hchain := inv.chain
      have hnodup := inv.nodup
      rw [← inv.listed, hl] at hchain hnodup
      obtain ⟨head, hremove, -, hnext⟩ := remove_eq hchain hnodup hfuel
      rw [loopStep, hremove] at hstep
      cases hstep
      obtain rfl := hrest'.eq (hrest.congr fun a ha => hnext a (List.mem_cons_of_mem _ ha))
      dsimp only [LoopPhase.work] at *
      omega

theorem loopStep_created_eq (hne : p ≠ .accepting) (hstep : loopStep m p = some (m', p')) :
    m'.created = m.created := by
  cases p with
  | accepting => exact absurd rfl hne
  | inserting t =>
      rw [loopStep] at hstep
      split at hstep <;> cases hstep <;> rfl
  | visiting datap => cases datap <;> cases hstep <;> rfl
  | examining datap datapTemp =>
      cases (loopStep_examining m datap datapTemp).symm.trans hstep
      rfl
  | joining datap datapTemp =>
      rw [loopStep] at hstep
      split at hstep <;> cases hstep
      rfl
  | removing datap datapTemp =>
      obtain ⟨head, -, heq⟩ := Option.map_eq_some_iff.mp hstep
      cases heq
      rfl

theorem LoopInv.goes_on (inv : LoopInv m p l) (hne : p ≠ .accepting) :
    (loopStep m p).isSome = true ∨ ∃ datap datapTemp, p = .joining datap datapTemp ∧
      datap < m.created ∧ m.exited datap = false := by
  cases p with
  | accepting => exact absurd rfl hne
  | inserting t =>
      refine Or.inl ?_
      rw [loopStep]
      split <;> rfl
  | visiting datap => cases datap <;> exact Or.inl rfl
  | examining datap datapTemp =>
      refine Or.inl ?_
      rw [loopStep_examining]
      rfl
  | joining datap datapTemp =>
      have here := inv.here_mem (List.mem_singleton_self datap)
      cases hended : m.exited datap with
      | true =>
          refine Or.inl ?_
          rw [loopStep, inv.fields datap here, if_pos hended]
          rfl
      | false => exact Or.inr ⟨datap, datapTemp, rfl, inv.lt_created datap here, hended⟩
  | removing datap datapTemp =>
      obtain ⟨head, l', hremove, -⟩ := inv.remove
      refine Or.inl ?_
      rw [loopStep, hremove]
      rfl

end Loop

/-- `main` is in `accept`, and no handler has interrupted it there, or it is in `pthread_join` and
the thread has not ended. -/
inductive MainProcess.Waits (s : MainProcess) : Prop
  | accept (phase : s.phase = .accepting) (interrupted : s.interrupted = false)
  | join (datap : Nat) (datapTemp : Option Nat) (phase : s.phase = .looping (.joining datap datapTemp))
      (lt_created : datap < s.table.created) (running : s.table.exited datap = false)

section Process
variable {daemon : Bool} {s s' : MainProcess} {m : ThreadTable} {ret errno : Int}

def MainProcess.work (s : MainProcess) : Nat := s.phase.work s.table

theorem StartCall.left_next {call call' : StartCall} (h : call.next daemon = some call') :
    call'.left + 1 ≤ call.left := by
  rcases call with signal | _ | _ | _ | _ | _ | _
  · cases signal <;> cases h <;> exact Nat.le_refl _
  · cases h
    exact Nat.le_refl _
  · cases h
    exact Nat.le_refl _
  · cases h
    exact Nat.le_refl _
  · cases h
    exact Nat.le_refl _
  · cases daemon <;> cases h
    exact Nat.le_refl _
  · cases h

theorem StartCall.left_pos (call : StartCall) : 1 ≤ call.left ∧ call.left ≤ 9 := by
  rcases call with signal | _ | _ | _ | _ | _ | _
  · cases signal <;> decide
  all_goals decide

namespace MainInv

theorem unlinking_work (inv : MainInv daemon s m) {datap : Nat} {cause : ExitCause}
    (hphase : s.phase = .shuttingDown (.unlinking datap) cause) {head : SList Nat}
    (hremove : s.table.head.removeHead = some head) :
    ({ s.table with head } : ThreadTable).listed.length + 1 = s.table.listed.length := by
  have hholds := inv.holds
  have hle := (inv.reached .accepting (by rw [hphase]; rfl)).loopInv.length_le
  rw [hphase] at hholds
  obtain ⟨-, hlast, rest, hrest⟩ := hholds
  have hcreated : s.table.created = m.created := by rw [inv.table]
  have hsome : s.record.cancelled.length ≠ 0 := by
    intro hzero
    rw [List.length_eq_zero_iff.mp hzero] at hlast
    cases hlast
  rw [hrest.cancelled, List.length_append, ← hcreated] at hle
  have hfits : rest.length + 1 ≤ s.table.created := by omega
  obtain ⟨hfirst, hbehind⟩ := hrest.chain
  rw [removeHead, hfirst, Option.map_some, Option.some.injEq] at hremove
  have hwhole : s.table.listed = datap :: rest := by
    exact hrest.chain.walk hfits
  have hless : ({ s.table with head } : ThreadTable).listed = rest := by
    rw [← hremove]
    exact Chain.walk (s := ⟨s.table.head.next datap, s.table.head.next⟩) hbehind
      (Nat.le_of_succ_le hfits)
  rw [hwhole, hless, List.length_cons]

/-- Once a terminating signal has been caught, every step of `main` leaves less to do. -/
theorem step_work (inv : MainInv daemon s m) (hcaught : s.flags.caughtASignal = true)
    (hstep : mainStep daemon ret errno s = some s') : s'.work + 1 ≤ s.work := by
  have hholds := inv.holds
  rw [mainStep] at hstep
  rw [MainProcess.work, MainProcess.work]
  cases hphase : s.phase with
  | starting call =>
      rw [hphase] at hstep
      cases hstep
      obtain ⟨phase, handled, serverinfo, wildFree, heq, hcases⟩ := startStep_eq daemon call ret s
      have hpos := call.left_pos
      rw [heq]
      obtain rfl | ⟨rfl, -⟩ | rfl := hcases
      · dsimp only [MainPhase.work]
        omega
      · dsimp only [MainPhase.work]
        omega
      · cases hnext : call.next daemon with
        | none =>
            dsimp only [Option.elim, MainPhase.work]
            omega
        | some call' =>
            have hleft := StartCall.left_next hnext
            dsimp only [Option.elim, MainPhase.work]
            omega
  | listening =>
      rw [hphase] at hstep
      dsimp only at hstep
      split at hstep <;> cases hstep <;>
        dsimp only [MainPhase.work, MainProcess.gracefulSocketShutdown] <;> omega
  | accepting =>
      rw [hphase] at hstep
      dsimp only at hstep
      split at hstep
      · split at hstep
        · split at hstep <;> cases hstep
          dsimp only [MainPhase.work]
          omega
        · cases hstep
          dsimp only [MainPhase.work, MainProcess.gracefulSocketShutdown]
          omega
      · cases hstep
        dsimp only [MainPhase.work]
        omega
  | creating =>
      rw [hphase] at hstep hholds
      dsimp only at hstep
      split at hstep
      · cases hstep
        dsimp only [MainPhase.work, MainProcess.gracefulSocketShutdown]
        omega
      · obtain ⟨⟨m', p'⟩, hloop, rfl⟩ := Option.map_eq_some_iff.mp hstep
        have hinv := (inv.reached .accepting (by rw [hphase]; rfl)).loopInv
        rw [hholds.1] at hloop ⊢
        have hlisted := (listed_loopStep hinv hloop).length_le
        cases hloop
        have hnone : LoopPhase.accepting.entering.length = 0 := rfl
        rw [List.length_append] at hlisted
        dsimp only [MainPhase.work, ThreadTable.work, LoopPhase.work] at *
        omega
  | looping p =>
      rw [hphase] at hstep hholds
      obtain ⟨⟨m', p'⟩, hloop, rfl⟩ := Option.map_eq_some_iff.mp hstep
      have hinv := (inv.reached p (by rw [hphase]; rfl)).loopInv
      rw [hholds.2.1] at hloop ⊢
      have hless := loopStep_work hinv hholds.1 hloop
      by_cases hend : p' = .accepting
      · rw [hend] at hless ⊢
        exact hless
      · dsimp only
        rw [if_neg hend]
        exact hless
  | testing =>
      rw [hphase] at hstep
      cases hstep
      rw [if_pos hcaught]
      dsimp only [MainPhase.work]
      omega
  | leaving =>
      rw [hphase] at hstep
      dsimp only at hstep
      split at hstep <;> cases hstep <;>
        dsimp only [MainPhase.work, MainProcess.gracefulSocketShutdown, MainProcess.exit] <;> omega
  | shuttingDown stage cause =>
      rw [hphase] at hstep
      dsimp only at hstep
      cases stage with
      | emptying datap =>
          rw [shutdownStep] at hstep
          split at hstep <;> cases hstep <;> dsimp only [MainPhase.work] <;> omega
      | unlinking datap =>
          obtain ⟨head, hremove, rfl⟩ := Option.map_eq_some_iff.mp hstep
          have hless := inv.unlinking_work hphase hremove
          dsimp only [MainPhase.work] at *
          omega
      | disconnecting =>
          cases hstep
          exact Nat.le_refl _
      | closing =>
          cases hstep
          exact Nat.le_refl _
  | exited cause =>
      rw [hphase] at hstep
      cases hstep
  | killed signal =>
      rw [hphase] at hstep
      cases hstep

theorem event_work (inv : MainInv daemon s m) (hcaught : s.flags.caughtASignal = true)
    {e : MainEvent} (hevent : mainEvent daemon s e = some s') :
    s'.work + (if e.byMain then 1 else 0) ≤ s.work := by
  obtain ⟨hover, hdone⟩ := mainEvent_eq_some hevent
  cases e with
  | main ret errno => exact inv.step_work hcaught hdone
  | threadExit t =>
      obtain ⟨table, hexit, rfl⟩ := hdone
      rw [exitStep] at hexit
      split at hexit <;> cases hexit
      exact Nat.le_refl _
  | threadFails t =>
      obtain ⟨-, rfl⟩ := hdone
      exact Nat.zero_le _
  | signal signal onMain =>
      obtain rfl : s' = raise signal onMain s := hdone
      rw [raise]
      split
      · exact Nat.le_refl _
      · exact Nat.zero_le _

theorem work_le (inv : MainInv daemon s m) : s.work ≤ 6 * s.table.listed.length + 25 := by
  rw [MainProcess.work]
  cases hphase : s.phase with
  | starting call =>
      have hpos := call.left_pos
      dsimp only [MainPhase.work]
      omega
  | looping p =>
      have hholds := inv.holds
      have hinv := (inv.reached p (by rw [hphase]; rfl)).loopInv
      rw [hphase] at hholds
      rw [hholds.2.1]
      have hle := hinv.ahead_le
      cases p <;> dsimp only [MainPhase.work, ThreadTable.work, LoopPhase.work] at * <;> omega
  | shuttingDown stage cause => cases stage <;> dsimp only [MainPhase.work] <;> omega
  | _ =>
      dsimp only [MainPhase.work]
      omega

theorem goes_on (inv : MainInv daemon s m) (hover : s.phase.over = false) :
    (∀ ret errno, (mainStep daemon ret errno s).isSome = true) ∨ s.Waits := by
  have hholds := inv.holds
  cases hphase : s.phase with
  | starting call => exact Or.inl fun ret errno => by rw [mainStep, hphase]; rfl
  | listening =>
      refine Or.inl fun ret errno => ?_
      rw [mainStep, hphase]
      dsimp only
      split <;> rfl
  | accepting =>
      cases hinterrupted : s.interrupted with
      | false => exact Or.inr (.accept hphase hinterrupted)
      | true =>
          refine Or.inl fun ret errno => ?_
          rw [mainStep, hphase]
          dsimp only
          rw [hinterrupted, if_pos rfl]
          split
          · split <;> rfl
          · rfl
  | creating =>
      refine Or.inl fun ret errno => ?_
      rw [mainStep, hphase]
      dsimp only
      split <;> rfl
  | looping p =>
      have hinv := (inv.reached p (by rw [hphase]; rfl)).loopInv
      rw [hphase] at hholds
      rcases hinv.goes_on hholds.1 with hstep | ⟨datap, datapTemp, rfl, hlt, hrunning⟩
      · refine Or.inl fun ret errno => ?_
        rw [mainStep, hphase]
        dsimp only
        rw [hholds.2.1, Option.isSome_map]
        exact hstep
      · rw [← hholds.2.1] at hlt hrunning
        exact Or.inr (.join datap datapTemp hphase hlt hrunning)
  | testing => exact Or.inl fun ret errno => by rw [mainStep, hphase]; rfl
  | leaving =>
      refine Or.inl fun ret errno => ?_
      rw [mainStep, hphase]
      dsimp only
      split <;> rfl
  | shuttingDown stage cause =>
      refine Or.inl fun ret errno => ?_
      rw [hphase] at hholds
      rw [mainStep, hphase]
      dsimp only
      cases stage with
      | emptying datap =>
          rw [shutdownStep]
          split <;> rfl
      | unlinking datap =>
          obtain ⟨-, -, rest, hrest⟩ := hholds
          rw [shutdownStep, removeHead, hrest.chain.1]
          rfl
      | disconnecting => rfl
      | closing => rfl
  | exited cause =>
      rw [hphase] at hover
      cases hover
  | killed signal =>
      rw [hphase] at hover
      cases hover

end MainInv

def MainPhase.accepts : MainPhase → Nat
  | starting _ => 1
  | listening => 1
  | accepting => 1
  | creating => 1
  | _ => 0

theorem MainInv.step_accepts (inv : MainInv daemon s m) (hcaught : s.flags.caughtASignal = true)
    (hstep : mainStep daemon ret errno s = some s') :
    s'.table.created + s'.phase.accepts ≤ s.table.created + s.phase.accepts := by
  have hholds := inv.holds
  rw [mainStep] at hstep
  cases hphase : s.phase with
  | starting call =>
      rw [hphase] at hstep
      cases hstep
      obtain ⟨phase, handled, serverinfo, wildFree, heq, hcases⟩ := startStep_eq daemon call ret s
      rw [heq]
      obtain rfl | ⟨rfl, -⟩ | rfl := hcases
      · exact Nat.le_succ _
      · exact Nat.le_succ _
      · cases call.next daemon <;> exact Nat.le_refl _
  | listening =>
      rw [hphase] at hstep
      dsimp only at hstep
      split at hstep <;> cases hstep
      · exact Nat.le_succ _
      · exact Nat.le_refl _
  | accepting =>
      rw [hphase] at hstep
      dsimp only at hstep
      split at hstep
      · split at hstep
        · split at hstep <;> cases hstep
          exact Nat.le_succ _
        · cases hstep
          exact Nat.le_succ _
      · cases hstep
        exact Nat.le_refl _
  | creating =>
      rw [hphase] at hstep
      dsimp only at hstep
      split at hstep
      · cases hstep
        exact Nat.le_succ _
      · obtain ⟨⟨m', p'⟩, hloop, rfl⟩ := Option.map_eq_some_iff.mp hstep
        cases hloop
        exact Nat.le_refl _
  | looping p =>
      rw [hphase] at hstep hholds
      obtain ⟨⟨m', p'⟩, hloop, rfl⟩ := Option.map_eq_some_iff.mp hstep
      have hsame := loopStep_created_eq hholds.1 hloop
      dsimp only
      rw [hsame]
      split <;> exact Nat.le_refl _
  | testing =>
      rw [hphase] at hstep
      cases hstep
      rw [if_pos hcaught]
      exact Nat.le_refl _
  | leaving =>
      rw [hphase] at hstep
      dsimp only at hstep
      split at hstep <;> cases hstep <;> exact Nat.le_refl _
  | shuttingDown stage cause =>
      rw [hphase] at hstep
      dsimp only at hstep
      cases stage with
      | emptying datap =>
          rw [shutdownStep] at hstep
          split at hstep <;> cases hstep <;> exact Nat.le_refl _
      | unlinking datap =>
          obtain ⟨head, -, rfl⟩ := Option.map_eq_some_iff.mp hstep
          exact Nat.le_refl _
      | disconnecting =>
          cases hstep
          exact Nat.le_refl _
      | closing =>
          cases hstep
          exact Nat.le_refl _
  | exited cause =>
      rw [hphase] at hstep
      cases hstep
  | killed signal =>
      rw [hphase] at hstep
      cases hstep

theorem mainStep_flags (hstep : mainStep daemon ret errno s = some s') : s'.flags = s.flags := by
  rw [mainStep] at hstep
  split at hstep
  · rename_i call hphase
    cases hstep
    obtain ⟨phase, handled, serverinfo, wildFree, heq, -⟩ := startStep_eq daemon call ret s
    rw [heq]
  · split at hstep <;> cases hstep <;> rfl
  · split at hstep
    · split at hstep
      · split at hstep <;> cases hstep
        rfl
      · cases hstep
        rfl
    · cases hstep
      rfl
  · split at hstep
    · cases hstep
      rfl
    · obtain ⟨r, -, rfl⟩ := Option.map_eq_some_iff.mp hstep
      rfl
  · obtain ⟨r, -, rfl⟩ := Option.map_eq_some_iff.mp hstep
    rfl
  · cases hstep
    rfl
  · split at hstep <;> cases hstep <;> rfl
  · rename_i stage cause hphase
    cases stage with
    | emptying datap =>
        rw [shutdownStep] at hstep
        split at hstep <;> cases hstep <;> rfl
    | unlinking datap =>
        obtain ⟨head, -, rfl⟩ := Option.map_eq_some_iff.mp hstep
        rfl
    | disconnecting =>
        cases hstep
        rfl
    | closing =>
        cases hstep
        rfl
  · cases hstep
  · cases hstep

structure AfterSignal (daemon : Bool) (s₀ s : MainProcess) : Prop where
  main : ∃ m, MainInv daemon s m
  caught : s.flags.caughtASignal = true
  accepts : s.table.created + s.phase.accepts ≤ s₀.table.created + 1

theorem AfterSignal.start (inv : MainInv daemon s m) (hcaught : s.flags.caughtASignal = true) :
    AfterSignal daemon s s where
  main := ⟨m, inv⟩
  caught := hcaught
  accepts := by
    refine Nat.add_le_add_left ?_ _
    cases s.phase <;> first | exact Nat.le_refl _ | exact Nat.zero_le _

theorem AfterSignal.event {s₀ : MainProcess} (h : AfterSignal daemon s₀ s) {e : MainEvent}
    (hevent : mainEvent daemon s e = some s') : AfterSignal daemon s₀ s' := by
  obtain ⟨⟨m, inv⟩, hcaught, haccepts⟩ := h
  have hdone := (mainEvent_eq_some hevent).2
  have hinv := inv.event hevent
  cases e with
  | main ret errno =>
      refine ⟨hinv, ?_, Nat.le_trans (inv.step_accepts hcaught hdone) haccepts⟩
      rwa [mainStep_flags hdone]
  | threadExit t =>
      obtain ⟨table, hexit, rfl⟩ := hdone
      refine ⟨hinv, hcaught, ?_⟩
      dsimp only
      rwa [(exitStep_created hexit).1]
  | threadFails t =>
      obtain ⟨-, rfl⟩ := hdone
      exact ⟨hinv, hcaught, Nat.le_trans (Nat.le_add_right _ _) haccepts⟩
  | signal signal onMain =>
      obtain rfl : s' = raise signal onMain s := hdone
      rw [raise] at hinv ⊢
      split at hinv
      · rename_i hhandled
        rw [if_pos hhandled]
        refine ⟨hinv, ?_, haccepts⟩
        cases signal <;> first | rfl | exact hcaught
      · rename_i hnot
        rw [if_neg hnot]
        exact ⟨hinv, hcaught, Nat.le_trans (Nat.le_add_right _ _) haccepts⟩

/-- After a terminating signal. Whatever calls fail and whatever else happens, from then on `main` takes at
most six steps for each thread on its list and twenty-five besides, and accepts at most one more
connection. Until the process has ended `main` goes on whatever its call returns, or it waits for a
thread, or it waits in an `accept` that the signal has not interrupted, and then it has accepted
none since. -/
theorem main_after_signal (events more : List MainEvent)
    (hrun : EventRun.run (mainEvent daemon) .start events = some s)
    (hcaught : s.flags.caughtASignal = true)
    (hmore : EventRun.run (mainEvent daemon) s more = some s') :
    more.countP MainEvent.byMain ≤ 6 * s.table.listed.length + 25 ∧
      s'.table.created ≤ s.table.created + 1 ∧
      (s'.phase.over = false →
        (∀ ret errno, (mainStep daemon ret errno s').isSome = true) ∨ s'.Waits) ∧
      (s'.phase = .accepting → s'.table.created ≤ s.table.created) := by
  obtain ⟨m, inv⟩ := (ProcessInv.of_run hrun).main
  have hstart := AfterSignal.start inv hcaught
  have hafter := EventRun.invariant (AfterSignal daemon s) (fun _ _ _ h hevent => h.event hevent)
    hstart hmore
  have hcount := EventRun.countP_add_le (AfterSignal daemon s) MainProcess.work MainEvent.byMain
    (fun _ _ _ h hevent => h.event hevent)
    (fun _ _ _ h hevent => h.main.elim fun _ inv => inv.event_work h.caught hevent) hstart hmore
  obtain ⟨m', inv'⟩ := hafter.main
  have haccepts := hafter.accepts
  refine ⟨?_, Nat.le_trans (Nat.le_add_right _ _) haccepts, inv'.goes_on, fun hphase => ?_⟩
  · exact Nat.le_trans (Nat.le_of_add_left_le hcount) inv.work_le
  · rw [hphase] at haccepts
    exact Nat.le_of_add_le_add_right haccepts

def signalBetweenThreads : List MainEvent :=
  oneConnection.take 12 ++ [.main 0 0, .main 0 0, .main 5 0, .signal .sigterm false]

theorem main_after_signal_two : ∃ s s',
    EventRun.run (mainEvent false) .start signalBetweenThreads = some s ∧
    EventRun.run (mainEvent false) s (List.replicate 4 (.main 0 0)) = some s' ∧
    4 ≤ 6 * s.table.listed.length + 25 ∧ s'.table.created ≤ s.table.created + 1 ∧ s'.Waits := by
  obtain ⟨s', hs', hvalues⟩ := Option.map_eq_some_iff.mp (show (EventRun.run (mainEvent false) .start
    (signalBetweenThreads ++ List.replicate 4 (.main 0 0))).map (fun s =>
      (s.phase.over, (mainStep false 0 0 s).isSome)) = some (false, false) by decide +kernel)
  rw [Prod.mk.injEq] at hvalues
  rw [EventRun.run_append] at hs'
  obtain ⟨s, hs, hrest⟩ := Option.bind_eq_some_iff.mp hs'
  have hcaught : (EventRun.run (mainEvent false) .start signalBetweenThreads).map
      (fun s => s.flags.caughtASignal) = some true := by decide +kernel
  rw [hs, Option.map_some, Option.some.injEq] at hcaught
  obtain ⟨hsteps, hcreated, hgoes, -⟩ := main_after_signal _ _ hs hcaught hrest
  refine ⟨s, s', hs, hrest, hsteps, hcreated, (hgoes hvalues.1).resolve_left fun hmore => ?_⟩
  have hstep := hmore 0 0
  rw [hvalues.2] at hstep
  cases hstep

end Process
end Aesd

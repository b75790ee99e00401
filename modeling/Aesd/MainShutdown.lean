import Aesd.LoopHistory
import Aesd.MainProcess

/-! How the process ends. The loop of `main` runs as it does without failures and signals, so what is
known of its list holds here as well: the shutdown cancels the threads that have not been
joined, newest first, and a terminating signal lets the loop accept once more at most. -/
namespace Aesd
open Interleaving SList

namespace MainPhase

def loop : MainPhase → Option LoopPhase
  | looping p => some p
  | exited (.threadFailed _) => none
  | killed _ => none
  | _ => some .accepting

end MainPhase

structure Emptying (head : SList Nat) (r : ShutdownRecord) (l here rest : List Nat) : Prop where
  cancelled : l = r.cancelled ++ rest
  chain : Chain head.next head.first (here ++ rest)
  freed : r.freed = []
  shutdowns : r.shutdowns = 0
  closes : r.closes = 0

structure Emptied (head : SList Nat) (r : ShutdownRecord) (l : List Nat) : Prop where
  cancelled : r.cancelled = l
  emptied : head.first = none
  freed : r.freed = [l.getLast?.elim .spare .element]
  closes : r.closes = 0

def ShutdownStage.Holds (head : SList Nat) (r : ShutdownRecord) (l : List Nat) :
    ShutdownStage → Prop
  | emptying datap => datap = r.cancelled.getLast? ∧ ∃ rest, Emptying head r l [] rest
  | unlinking datap => r.cancelled.getLast? = some datap ∧ ∃ rest, Emptying head r l [datap] rest
  | disconnecting => Emptied head r l ∧ r.shutdowns = 0
  | closing => Emptied head r l ∧ r.shutdowns = 1

/-- The threads that had been created and not been joined have been cancelled, once each and newest
first; the list is empty, the socket has been shut down and closed, and what has been freed
is on no list. -/
structure ShutDown (m : ThreadTable) (r : ShutdownRecord) (cause : ExitCause) : Prop where
  cancelled : r.cancelled = (List.range m.created).reverse.filter (· ∉ m.joined)
  emptied : m.head.first = none
  shutdowns : r.shutdowns = 1
  closes : r.closes = 1
  freed : r.freed = r.cancelled.getLast?.elim .spare .element ::
    if cause = .createFailed then [.threadData m.created] else []

def ExitCause.shutsDown : ExitCause → Bool
  | listenFailed => true
  | acceptFailed => true
  | createFailed => true
  | signalled => true
  | _ => false

def MainPhase.Holds (daemon : Bool) (table : ThreadTable) (r : ShutdownRecord) (m : ThreadTable) :
    MainPhase → Prop
  | starting call => (call = .fork → daemon = true) ∧ m.created = 0 ∧ table = m ∧ r = .empty
  | shuttingDown stage cause => cause.shutsDown = true ∧ stage.Holds table.head r m.listed
  | exited (.startFailed _) => m.created = 0 ∧ table = m ∧ r = .empty
  | exited .parent => daemon = true ∧ m.created = 0 ∧ table = m ∧ r = .empty
  | exited .interrupted => table = m ∧ r = .empty
  | exited (.threadFailed t) => t < table.created ∧ table.exited t = false
  | exited cause => ShutDown table r cause
  | looping p => p ≠ .accepting ∧ table = m ∧ r = .empty
  | killed _ => True
  | _ => table = m ∧ r = .empty

/-- The memory is `m`, which the loop has reached, but for what the shutdown has done to the list. -/
structure MainInv (daemon : Bool) (s : MainProcess) (m : ThreadTable) : Prop where
  table : s.table = { m with head := s.table.head }
  reached : ∀ p, s.phase.loop = some p → ReachedAt m p
  holds : s.phase.Holds daemon s.table s.record m

section Process
variable {daemon : Bool} {s s' : MainProcess} {m m' : ThreadTable} {ret errno : Int}

theorem startStep_eq (daemon : Bool) (call : StartCall) (ret : Int) (s : MainProcess) :
    ∃ phase handled serverinfo wildFree,
      startStep daemon call ret s = { s with phase, handled, serverinfo, wildFree } ∧
      (phase = .exited (.startFailed call) ∨ phase = .exited .parent ∧ call = .fork ∨
        phase = (call.next daemon).elim .listening .starting) := by
  have hfree : ∀ s : MainProcess, ∃ serverinfo wildFree,
      s.freeaddrinfo = { s with serverinfo, wildFree } := by
    intro s
    rw [MainProcess.freeaddrinfo]
    split
    · exact ⟨_, _, rfl⟩
    · exact ⟨_, _, rfl⟩
  obtain ⟨serverinfo, wildFree, heq⟩ := hfree s
  rw [startStep]
  split
  · cases call.freesWhenFailed
    · exact ⟨_, _, _, _, rfl, Or.inl rfl⟩
    · rw [if_pos rfl, heq]
      exact ⟨_, _, _, _, rfl, Or.inl rfl⟩
  · cases call with
    | bind =>
        obtain ⟨serverinfo, wildFree, heq⟩ :=
          hfree { s with phase := (StartCall.bind.next daemon).elim .listening .starting }
        dsimp only
        rw [heq]
        exact ⟨_, _, _, _, rfl, Or.inr (Or.inr rfl)⟩
    | fork =>
        dsimp only
        split
        · exact ⟨_, _, _, _, rfl, Or.inr (Or.inl ⟨rfl, rfl⟩)⟩
        · exact ⟨_, _, _, _, rfl, Or.inr (Or.inr rfl)⟩
    | _ => exact ⟨_, _, _, _, rfl, Or.inr (Or.inr rfl)⟩

namespace MainInv

theorem start : MainInv daemon .start .start where
  table := rfl
  reached p hp := by
    cases hp
    exact .start
  holds := ⟨fun h => (by cases h), rfl, rfl, rfl⟩

theorem move (inv : MainInv daemon s m) (htable : s'.table = s.table) (hrecord : s'.record = s.record)
    (hloop : s'.phase.loop = s.phase.loop)
    (hholds : s'.phase.Holds daemon s.table s.record m) : MainInv daemon s' m where
  table := by rw [htable, ← inv.table]
  reached p hp := inv.reached p (hloop.symm.trans hp)
  holds := by rwa [htable, hrecord]

theorem starting (inv : MainInv daemon s m) {call : StartCall} (hphase : s.phase = .starting call) :
    MainInv daemon (startStep daemon call ret s) m := by
  have hholds := inv.holds
  rw [hphase] at hholds
  obtain ⟨hfork, hcreated, huntouched⟩ := hholds
  obtain ⟨phase, handled, serverinfo, wildFree, heq, hcases⟩ := startStep_eq daemon call ret s
  rw [heq]
  obtain rfl | ⟨rfl, rfl⟩ | rfl := hcases
  · exact inv.move rfl rfl (by rw [hphase]; rfl) ⟨hcreated, huntouched⟩
  · exact inv.move rfl rfl (by rw [hphase]; rfl) ⟨hfork rfl, hcreated, huntouched⟩
  · cases hnext : call.next daemon with
    | none => exact inv.move rfl rfl (by rw [hphase]; rfl) huntouched
    | some call' =>
        refine inv.move rfl rfl (by rw [hphase]; rfl) ⟨?_, hcreated, huntouched⟩
        rintro rfl
        cases daemon with
        | true => rfl
        | false =>
            rcases call with signal | _ | _ | _ | _ | _ | _
            · cases signal <;> cases hnext
            all_goals cases hnext

theorem beginShutdown (inv : MainInv daemon s m) (hloop : s.phase.loop = some .accepting)
    (huntouched : s.table = m ∧ s.record = .empty) {cause : ExitCause}
    (hcause : cause.shutsDown = true) : MainInv daemon (s.gracefulSocketShutdown cause) m := by
  obtain ⟨htable, hrecord⟩ := huntouched
  refine inv.move rfl rfl hloop.symm ⟨hcause, ?_, m.listed, ?_⟩
  · rw [hrecord]
    rfl
  · rw [hrecord, htable]
    exact ⟨rfl, (inv.reached _ hloop).loopInv.chain, rfl, rfl, rfl⟩

theorem looping (inv : MainInv daemon s m) {p p' : LoopPhase} (hloop : s.phase.loop = some p)
    (huntouched : s.table = m ∧ s.record = .empty) (hstep : loopStep s.table p = some (m', p'))
    {phase : MainPhase}
    (hphase : phase = .testing ∧ p' = .accepting ∨ phase = .looping p' ∧ p' ≠ .accepting) :
    MainInv daemon { s with table := m', phase } m' where
  table := rfl
  reached q hq := by
    rw [huntouched.1] at hstep
    have hreached := (inv.reached p hloop).main hstep
    obtain ⟨rfl, rfl⟩ | ⟨rfl, -⟩ := hphase <;> cases hq <;> exact hreached
  holds := by
    obtain ⟨rfl, -⟩ | ⟨rfl, hne⟩ := hphase
    · exact ⟨rfl, huntouched.2⟩
    · exact ⟨hne, rfl, huntouched.2⟩

theorem emptying (inv : MainInv daemon s m) {datap : Option Nat} {cause : ExitCause}
    (hphase : s.phase = .shuttingDown (.emptying datap) cause)
    (hstep : shutdownStep (.emptying datap) cause s = some s') : MainInv daemon s' m := by
  have hholds := inv.holds
  have hreached := inv.reached .accepting (by rw [hphase]; rfl)
  rw [hphase] at hholds
  obtain ⟨hcause, hdatap, rest, hrest⟩ := hholds
  have hchain := hrest.chain
  rw [shutdownStep] at hstep
  split at hstep
  · rename_i hnone
    cases hstep
    rw [hnone] at hchain
    obtain rfl : rest = [] := hchain.eq (show Chain s.table.head.next none [] from rfl)
    have hcancelled : s.record.cancelled = m.listed := by rw [hrest.cancelled, List.append_nil]
    refine ⟨inv.table, fun p hp => by cases hp; exact hreached, hcause, ⟨hcancelled, hnone, ?_,
      hrest.closes⟩, hrest.shutdowns⟩
    dsimp only
    rw [hrest.freed, hdatap, hcancelled, List.nil_append]
  · rename_i datap' hsome
    cases hstep
    rw [hsome] at hchain
    cases rest with
    | nil => cases hchain
    | cons a rest =>
        obtain ⟨ha, hbehind⟩ := hchain
        obtain rfl := Option.some.inj ha
        have hid : s.table.threadId datap' = datap' := by
          rw [inv.table]
          refine hreached.loopInv.fields datap' ?_
          rw [hrest.cancelled]
          exact List.mem_append_right _ List.mem_cons_self
        refine ⟨inv.table, fun p hp => by cases hp; exact hreached, hcause, ?_, rest, ?_, ?_,
          hrest.freed, hrest.shutdowns, hrest.closes⟩
        · dsimp only
          rw [List.getLast?_concat, hid]
        · dsimp only
          rw [hrest.cancelled, hid, List.append_assoc, List.singleton_append]
        · exact ⟨hsome, hbehind⟩

theorem closing (inv : MainInv daemon s m) {cause : ExitCause}
    (hphase : s.phase = .shuttingDown .closing cause)
    (hstep : shutdownStep .closing cause s = some s') : MainInv daemon s' m := by
  have hholds := inv.holds
  have hreached := inv.reached .accepting (by rw [hphase]; rfl)
  rw [hphase] at hholds
  obtain ⟨hcause, hemptied, hone⟩ := hholds
  have hcancelled : s.record.cancelled =
      (List.range s.table.created).reverse.filter (· ∉ s.table.joined) := by
    rw [hemptied.cancelled, hreached.listed_accepting, inv.table]
  cases hstep
  have hshut : ShutDown s.table { s.record with
      closes := s.record.closes + 1
      freed := s.record.freed ++
        if cause = .createFailed then [.threadData s.table.created] else [] } cause := by
    refine ⟨hcancelled, hemptied.emptied, hone, congrArg (· + 1) hemptied.closes, ?_⟩
    dsimp only
    rw [hemptied.freed, hemptied.cancelled, List.singleton_append]
  refine ⟨inv.table, ?_, ?_⟩
  · intro p hp
    cases cause <;> cases hp <;> exact hreached
  · cases cause <;> first | exact hshut | cases hcause

theorem shuttingDown (inv : MainInv daemon s m) {stage : ShutdownStage} {cause : ExitCause}
    (hphase : s.phase = .shuttingDown stage cause) (hstep : shutdownStep stage cause s = some s') :
    MainInv daemon s' m := by
  have hholds := inv.holds
  have hreached := inv.reached .accepting (by rw [hphase]; rfl)
  rw [hphase] at hholds
  cases stage with
  | emptying datap => exact inv.emptying hphase hstep
  | unlinking datap =>
      obtain ⟨hcause, hlast, rest, hrest⟩ := hholds
      obtain ⟨hfirst, hbehind⟩ := hrest.chain
      obtain ⟨head, hremove, heq⟩ := Option.map_eq_some_iff.mp hstep
      rw [removeHead, hfirst, Option.map_some, Option.some.injEq] at hremove
      cases heq
      rw [← hremove]
      refine ⟨?_, fun p hp => by cases hp; exact hreached, hcause, hlast.symm, rest, hrest.cancelled,
        hbehind, hrest.freed, hrest.shutdowns, hrest.closes⟩
      dsimp only
      rw [inv.table]
  | disconnecting =>
      cases hstep
      obtain ⟨hcause, hemptied, hzero⟩ := hholds
      exact ⟨inv.table, fun p hp => by cases hp; exact hreached, hcause, { hemptied with },
        congrArg (· + 1) hzero⟩
  | closing => exact inv.closing hphase hstep

theorem step (inv : MainInv daemon s m) (hstep : mainStep daemon ret errno s = some s') :
    ∃ m', MainInv daemon s' m' := by
  have hholds := inv.holds
  rw [mainStep] at hstep
  cases hphase : s.phase with
  | starting call =>
      rw [hphase] at hstep
      cases hstep
      exact ⟨m, inv.starting hphase⟩
  | listening =>
      rw [hphase] at hstep hholds
      dsimp only at hstep
      split at hstep <;> cases hstep
      · exact ⟨m, inv.beginShutdown (by rw [hphase]; rfl) hholds rfl⟩
      · exact ⟨m, inv.move rfl rfl (by rw [hphase]; rfl) hholds⟩
  | accepting =>
      rw [hphase] at hstep hholds
      dsimp only at hstep
      split at hstep
      · split at hstep
        · split at hstep <;> cases hstep
          exact ⟨m, inv.move rfl rfl (by rw [hphase]; rfl) hholds⟩
        · cases hstep
          exact ⟨m, inv.beginShutdown (by rw [hphase]; rfl) hholds rfl⟩
      · cases hstep
        exact ⟨m, inv.move rfl rfl (by rw [hphase]; rfl) hholds⟩
  | creating =>
      rw [hphase] at hstep hholds
      dsimp only at hstep
      split at hstep
      · cases hstep
        exact ⟨m, inv.beginShutdown (by rw [hphase]; rfl) hholds rfl⟩
      · obtain ⟨⟨m', p'⟩, hloop, rfl⟩ := Option.map_eq_some_iff.mp hstep
        refine ⟨m', inv.looping (by rw [hphase]; rfl) hholds hloop (Or.inr ⟨rfl, ?_⟩)⟩
        cases hloop
        exact fun heq => by cases heq
  | looping p =>
      rw [hphase] at hstep hholds
      obtain ⟨⟨m', p'⟩, hloop, rfl⟩ := Option.map_eq_some_iff.mp hstep
      refine ⟨m', inv.looping (by rw [hphase]; rfl) hholds.2 hloop ?_⟩
      by_cases hend : p' = .accepting
      · exact Or.inl ⟨if_pos hend, hend⟩
      · exact Or.inr ⟨if_neg hend, hend⟩
  | testing =>
      rw [hphase] at hstep hholds
      cases hstep
      refine ⟨m, ?_⟩
      cases hcaught : s.flags.caughtASignal <;>
        exact inv.move rfl rfl (by rw [hphase]; rfl) hholds
  | leaving =>
      rw [hphase] at hstep hholds
      dsimp only at hstep
      split at hstep <;> cases hstep
      · exact ⟨m, inv.beginShutdown (by rw [hphase]; rfl) hholds rfl⟩
      · exact ⟨m, inv.move rfl rfl (by rw [hphase]; rfl) hholds⟩
  | shuttingDown stage cause =>
      rw [hphase] at hstep
      exact ⟨m, inv.shuttingDown hphase hstep⟩
  | exited cause =>
      rw [hphase] at hstep
      cases hstep
  | killed signal =>
      rw [hphase] at hstep
      cases hstep

theorem threadExit (inv : MainInv daemon s m) {t : Nat} {table : ThreadTable}
    (hover : s.phase.over = false) (hexit : exitStep t s.table = some table) :
    ∃ m', MainInv daemon { s with table } m' := by
  have hholds := inv.holds
  have htable := inv.table
  rw [exitStep] at hexit
  split at hexit
  · rename_i hlt
    cases hexit
    refine ⟨{ m with
      threadCompleteSuccess := Function.update m.threadCompleteSuccess t true
      exited := Function.update m.exited t true }, ?_, fun p hp => ?_, ?_⟩
    · dsimp only
      rw [htable]
    · rw [htable] at hlt
      exact (inv.reached p hp).exit (t := t) (if_pos hlt)
    · dsimp only
      cases hphase : s.phase with
      | shuttingDown stage cause =>
          rw [hphase] at hholds
          exact hholds
      | starting call =>
          rw [hphase] at hholds
          obtain ⟨hfork, hcreated, rfl, hrecord⟩ := hholds
          exact ⟨hfork, hcreated, rfl, hrecord⟩
      | exited cause =>
          rw [hphase] at hover
          cases hover
      | killed signal => trivial
      | looping p =>
          rw [hphase] at hholds
          obtain ⟨hne, rfl, hrecord⟩ := hholds
          exact ⟨hne, rfl, hrecord⟩
      | _ =>
          rw [hphase] at hholds
          obtain ⟨rfl, hrecord⟩ := hholds
          exact ⟨rfl, hrecord⟩
  · cases hexit

theorem event (inv : MainInv daemon s m) {e : MainEvent} (hevent : mainEvent daemon s e = some s') :
    ∃ m', MainInv daemon s' m' := by
  obtain ⟨hover, hdone⟩ := mainEvent_eq_some hevent
  cases e with
  | main ret errno => exact inv.step hdone
  | threadExit t =>
      obtain ⟨table, hexit, rfl⟩ := hdone
      exact inv.threadExit hover hexit
  | threadFails t =>
      obtain ⟨hrunning, rfl⟩ := hdone
      exact ⟨m, inv.table, fun p hp => (by cases hp), hrunning⟩
  | signal signal onMain =>
      obtain rfl : s' = raise signal onMain s := hdone
      rw [raise]
      split
      · exact ⟨m, inv.move rfl rfl rfl inv.holds⟩
      · exact ⟨m, inv.table, fun p hp => (by cases hp), trivial⟩

end MainInv

def MainPhase.Caught (g : SignalFlags) : MainPhase → Prop
  | leaving => g.caughtASignal = true ∨ g.caughtSigalrm = true
  | shuttingDown _ cause => cause.shutsDown = true ∧ (cause = .signalled → g.caughtASignal = true)
  | exited cause => (cause = .signalled → g.caughtASignal = true) ∧
      (cause = .interrupted → g.caughtASignal = false ∧ g.caughtSigalrm = true)
  | _ => True

structure FlagInv (s : MainProcess) : Prop where
  caught : s.flags.caughtASignal = (s.flags.caughtSigint || s.flags.caughtSigterm)
  goesOn : s.flags.shouldContinue = !s.flags.caughtASignal
  interrupted : s.interrupted = true →
    s.flags.caughtASignal = true ∨ s.flags.caughtSigalrm = true
  phase : s.phase.Caught s.flags

def StartCall.serverinfo : StartCall → AddrInfo
  | sigaction _ => .unset
  | mutexInit => .unset
  | getaddrinfo => .unset
  | fork => .freed
  | _ => .held

def MainPhase.Addresses (info : AddrInfo) (wild : Bool) : MainPhase → Prop
  | starting call => info = call.serverinfo ∧ wild = false
  | exited (.startFailed call) => info ≠ .held ∧ (wild = true ↔ call = .getaddrinfo)
  | killed _ => wild = false
  | _ => info = .freed ∧ wild = false

section Effects

theorem FlagInv.step (inv : FlagInv s) (hstep : mainStep daemon ret errno s = some s') :
    FlagInv s' := by
  obtain ⟨hcaught, hgoes, hinterrupted, hphase'⟩ := inv
  rw [mainStep] at hstep
  cases hphase : s.phase with
  | starting call =>
      rw [hphase] at hstep
      cases hstep
      obtain ⟨phase, handled, serverinfo, wildFree, heq, hcases⟩ := startStep_eq daemon call ret s
      rw [heq]
      refine ⟨hcaught, hgoes, hinterrupted, ?_⟩
      obtain rfl | ⟨rfl, -⟩ | rfl := hcases
      · exact ⟨fun h => (by cases h), fun h => (by cases h)⟩
      · exact ⟨fun h => (by cases h), fun h => (by cases h)⟩
      · cases call.next daemon <;> trivial
  | listening =>
      rw [hphase] at hstep
      dsimp only at hstep
      split at hstep <;> cases hstep
      · exact ⟨hcaught, hgoes, hinterrupted, rfl, fun h => (by cases h)⟩
      · exact ⟨hcaught, hgoes, fun h => (by cases h), trivial⟩
  | accepting =>
      rw [hphase] at hstep
      dsimp only at hstep
      split at hstep
      · split at hstep
        · split at hstep <;> cases hstep
          rename_i hyes
          exact ⟨hcaught, hgoes, hinterrupted, hinterrupted hyes⟩
        · cases hstep
          exact ⟨hcaught, hgoes, hinterrupted, rfl, fun h => (by cases h)⟩
      · cases hstep
        exact ⟨hcaught, hgoes, hinterrupted, trivial⟩
  | creating =>
      rw [hphase] at hstep
      dsimp only at hstep
      split at hstep
      · cases hstep
        exact ⟨hcaught, hgoes, hinterrupted, rfl, fun h => (by cases h)⟩
      · obtain ⟨r, -, rfl⟩ := Option.map_eq_some_iff.mp hstep
        exact ⟨hcaught, hgoes, hinterrupted, trivial⟩
  | looping p =>
      rw [hphase] at hstep
      obtain ⟨r, -, rfl⟩ := Option.map_eq_some_iff.mp hstep
      refine ⟨hcaught, hgoes, hinterrupted, ?_⟩
      dsimp only
      split <;> trivial
  | testing =>
      rw [hphase] at hstep
      cases hstep
      refine ⟨hcaught, hgoes, hinterrupted, ?_⟩
      dsimp only
      split
      · rename_i hyes
        exact Or.inl hyes
      · trivial
  | leaving =>
      rw [hphase] at hstep hphase'
      dsimp only at hstep
      rw [← hcaught] at hstep
      split at hstep <;> cases hstep
      · rename_i hyes
        exact ⟨hcaught, hgoes, hinterrupted, rfl, fun _ => hyes⟩
      · rename_i hno
        exact ⟨hcaught, hgoes, hinterrupted, fun h => (by cases h),
          fun _ => ⟨Bool.eq_false_of_not_eq_true hno, hphase'.resolve_left hno⟩⟩
  | shuttingDown stage cause =>
      rw [hphase] at hstep hphase'
      dsimp only at hstep
      cases stage with
      | emptying datap =>
          rw [shutdownStep] at hstep
          split at hstep <;> cases hstep <;> exact ⟨hcaught, hgoes, hinterrupted, hphase'⟩
      | unlinking datap =>
          obtain ⟨head, -, rfl⟩ := Option.map_eq_some_iff.mp hstep
          exact ⟨hcaught, hgoes, hinterrupted, hphase'⟩
      | disconnecting =>
          cases hstep
          exact ⟨hcaught, hgoes, hinterrupted, hphase'⟩
      | closing =>
          cases hstep
          obtain ⟨hcause, hsignalled⟩ := hphase'
          refine ⟨hcaught, hgoes, hinterrupted, hsignalled, ?_⟩
          rintro rfl
          cases hcause
  | exited cause =>
      rw [hphase] at hstep
      cases hstep
  | killed signal =>
      rw [hphase] at hstep
      cases hstep

theorem FlagInv.raise (inv : FlagInv s) (hover : s.phase.over = false) (signal : Signal)
    (onMain : Bool) : FlagInv (raise signal onMain s) := by
  obtain ⟨hcaught, hgoes, hinterrupted, hphase⟩ := inv
  rw [Aesd.raise]
  split
  · refine ⟨?_, ?_, fun _ => ?_, ?_⟩
    · cases signal <;> simp [signalHandler, hcaught]
    · cases signal <;> simp [signalHandler, hgoes]
    · cases signal <;> simp [signalHandler]
    · cases hp : s.phase with
      | leaving => cases signal <;> simp [MainPhase.Caught, signalHandler]
      | shuttingDown stage cause =>
          rw [hp] at hphase
          refine ⟨hphase.1, fun hcause => ?_⟩
          cases signal <;> simp [signalHandler, hphase.2 hcause]
      | exited cause =>
          rw [hp] at hover
          cases hover
      | _ => trivial
  · exact ⟨hcaught, hgoes, hinterrupted, trivial⟩

theorem FlagInv.start : FlagInv .start :=
  ⟨rfl, rfl, fun h => (by cases h), trivial⟩

theorem FlagInv.event (inv : FlagInv s) {e : MainEvent}
    (hevent : mainEvent daemon s e = some s') : FlagInv s' := by
  obtain ⟨hover, hdone⟩ := mainEvent_eq_some hevent
  cases e with
  | main ret errno => exact inv.step hdone
  | threadExit t =>
      obtain ⟨table, -, rfl⟩ := hdone
      exact ⟨inv.caught, inv.goesOn, inv.interrupted, inv.phase⟩
  | threadFails t =>
      obtain ⟨-, rfl⟩ := hdone
      exact ⟨inv.caught, inv.goesOn, inv.interrupted, fun h => (by cases h), fun h => (by cases h)⟩
  | signal signal onMain =>
      obtain rfl : s' = Aesd.raise signal onMain s := hdone
      exact inv.raise hover signal onMain

/-- `freeaddrinfo` is called once for what `getaddrinfo` has given, and on something else only when
that call has failed. -/
theorem startStep_addresses {call : StartCall}
    (h : (MainPhase.starting call).Addresses s.serverinfo s.wildFree) :
    (startStep daemon call ret s).phase.Addresses (startStep daemon call ret s).serverinfo
      (startStep daemon call ret s).wildFree := by
  obtain ⟨hinfo, hwild⟩ := h
  rw [startStep]
  split
  · rcases call with signal | _ | _ | _ | _ | _ | _ <;>
      simp [MainProcess.exit, MainProcess.freeaddrinfo, StartCall.freesWhenFailed,
        MainPhase.Addresses, StartCall.serverinfo, hinfo, hwild]
  · rcases call with signal | _ | _ | _ | _ | _ | _
    · cases signal <;> exact ⟨hinfo, hwild⟩
    · exact ⟨hinfo, hwild⟩
    · exact ⟨rfl, hwild⟩
    · exact ⟨hinfo, hwild⟩
    · exact ⟨hinfo, hwild⟩
    · cases daemon <;>
        simp [MainProcess.freeaddrinfo, hinfo, hwild, StartCall.serverinfo, StartCall.next,
          MainPhase.Addresses]
    · dsimp only
      split <;> exact ⟨hinfo, hwild⟩

theorem addresses_step (flags : FlagInv s) (h : s.phase.Addresses s.serverinfo s.wildFree)
    (hstep : mainStep daemon ret errno s = some s') :
    s'.phase.Addresses s'.serverinfo s'.wildFree := by
  have hcaught := flags.phase
  rw [mainStep] at hstep
  cases hphase : s.phase with
  | starting call =>
      rw [hphase] at hstep h
      cases hstep
      exact startStep_addresses h
  | listening =>
      rw [hphase] at hstep h
      dsimp only at hstep
      split at hstep <;> cases hstep <;> exact h
  | accepting =>
      rw [hphase] at hstep h
      dsimp only at hstep
      split at hstep
      · split at hstep
        · split at hstep <;> cases hstep
          exact h
        · cases hstep
          exact h
      · cases hstep
        exact h
  | creating =>
      rw [hphase] at hstep h
      dsimp only at hstep
      split at hstep
      · cases hstep
        exact h
      · obtain ⟨r, -, rfl⟩ := Option.map_eq_some_iff.mp hstep
        exact h
  | looping p =>
      rw [hphase] at hstep h
      obtain ⟨r, -, rfl⟩ := Option.map_eq_some_iff.mp hstep
      dsimp only
      split <;> exact h
  | testing =>
      rw [hphase] at hstep h
      cases hstep
      dsimp only
      split <;> exact h
  | leaving =>
      rw [hphase] at hstep h
      dsimp only at hstep
      split at hstep <;> cases hstep <;> exact h
  | shuttingDown stage cause =>
      rw [hphase] at hstep h hcaught
      dsimp only at hstep
      cases stage with
      | emptying datap =>
          rw [shutdownStep] at hstep
          split at hstep <;> cases hstep <;> exact h
      | unlinking datap =>
          obtain ⟨head, -, rfl⟩ := Option.map_eq_some_iff.mp hstep
          exact h
      | disconnecting =>
          cases hstep
          exact h
      | closing =>
          cases hstep
          cases cause with
          | startFailed call => cases hcaught.1
          | _ => exact h
  | exited cause =>
      rw [hphase] at hstep
      cases hstep
  | killed signal =>
      rw [hphase] at hstep
      cases hstep

theorem addresses_event (inv : MainInv daemon s m) (flags : FlagInv s)
    (h : s.phase.Addresses s.serverinfo s.wildFree) {e : MainEvent}
    (hevent : mainEvent daemon s e = some s') :
    s'.phase.Addresses s'.serverinfo s'.wildFree := by
  obtain ⟨hover, hdone⟩ := mainEvent_eq_some hevent
  cases e with
  | main ret errno => exact addresses_step flags h hdone
  | threadExit t =>
      obtain ⟨table, -, rfl⟩ := hdone
      exact h
  | threadFails t =>
      obtain ⟨hrunning, rfl⟩ := hdone
      have hholds := inv.holds
      cases hphase : s.phase with
      | starting call =>
          rw [hphase] at hholds
          obtain ⟨-, hcreated, rfl, -⟩ := hholds
          exact absurd hrunning.1 (by omega)
      | exited cause =>
          rw [hphase] at hover
          cases hover
      | killed signal =>
          rw [hphase] at hover
          cases hover
      | _ =>
          rw [hphase] at h
          exact h
  | signal signal onMain =>
      obtain rfl : s' = raise signal onMain s := hdone
      rw [raise]
      split
      · exact h
      · cases hphase : s.phase with
        | exited cause =>
            rw [hphase] at hover
            cases hover
        | _ =>
            rw [hphase] at h
            first | exact h.2 | exact h

end Effects

/-- How the process has ended when `exit` has been called. Before the first connection nothing needs to be
shut down; an `accept` that `SIGALRM` has interrupted ends the process without a shutdown, and so does
a thread. -/
def ExitCause.Ended (daemon : Bool) (s : MainProcess) : ExitCause → Prop
  | startFailed _ => s.table.created = 0 ∧ s.record = .empty
  | parent => daemon = true ∧ s.table.created = 0 ∧ s.record = .empty
  | signalled => (s.flags.caughtSigint = true ∨ s.flags.caughtSigterm = true) ∧
      ShutDown s.table s.record .signalled
  | interrupted => s.flags.caughtSigint = false ∧ s.flags.caughtSigterm = false ∧
      s.flags.caughtSigalrm = true ∧ s.record = .empty
  | threadFailed t => t < s.table.created ∧ s.table.exited t = false
  | cause => ShutDown s.table s.record cause

structure ProcessInv (daemon : Bool) (s : MainProcess) : Prop where
  main : ∃ m, MainInv daemon s m
  flags : FlagInv s
  addresses : s.phase.Addresses s.serverinfo s.wildFree

theorem ProcessInv.of_run {events : List MainEvent}
    (hrun : EventRun.run (mainEvent daemon) .start events = some s) : ProcessInv daemon s := by
  refine EventRun.invariant (ProcessInv daemon) (fun s e s' inv hevent => ?_)
    ⟨⟨_, .start⟩, .start, rfl, rfl⟩ hrun
  obtain ⟨m, hmain⟩ := inv.main
  exact ⟨hmain.event hevent, inv.flags.event hevent,
    addresses_event hmain inv.flags inv.addresses hevent⟩

/-- The end of the server. Whatever calls fail, whatever signals come when, and however the threads end:
when `exit` has been called, the shutdown has been done as its cause demands, the addresses
have been given back, and only a failed `getaddrinfo` has made `freeaddrinfo` free what it
must not. -/
theorem main_exits (events : List MainEvent) (cause : ExitCause)
    (hrun : EventRun.run (mainEvent daemon) .start events = some s)
    (hexit : s.phase = .exited cause) :
    cause.Ended daemon s ∧ s.serverinfo ≠ .held ∧
      (s.wildFree = true ↔ cause = .startFailed .getaddrinfo) := by
  obtain ⟨⟨m, inv⟩, flags, haddresses⟩ := ProcessInv.of_run hrun
  have hholds := inv.holds
  have hcaught := flags.phase
  rw [hexit] at hholds hcaught haddresses
  refine ⟨?_, ?_⟩
  · cases cause with
    | startFailed call =>
        obtain ⟨hcreated, rfl, hrecord⟩ := hholds
        exact ⟨hcreated, hrecord⟩
    | parent =>
        obtain ⟨hdaemon, hcreated, rfl, hrecord⟩ := hholds
        exact ⟨hdaemon, hcreated, hrecord⟩
    | signalled =>
        have hsignal := hcaught.1 rfl
        rw [flags.caught, Bool.or_eq_true] at hsignal
        exact ⟨hsignal, hholds⟩
    | interrupted =>
        obtain ⟨hsignal, halarm⟩ := hcaught.2 rfl
        rw [flags.caught, Bool.or_eq_false_iff] at hsignal
        exact ⟨hsignal.1, hsignal.2, halarm, hholds.2⟩
    | _ => exact hholds
  · cases cause with
    | startFailed call => simpa [MainPhase.Addresses] using haddresses
    | _ =>
        obtain ⟨hinfo, hwild⟩ := haddresses
        rw [hinfo, hwild]
        simp

def oneConnection : List MainEvent :=
  [.main 0 0, .main 0 0, .main 0 0, .main 0 0, .main 0 0, .main 3 0, .main 0 0, .main 0 0,
    .main 0 0, .main 4 0, .main 0 0, .main 0 0, .signal .sigterm false, .main 0 0, .main 0 0,
    .main 0 0, .main 0 0, .main 0 0, .main 0 0, .main 0 0]

theorem oneConnection_run : ∃ s, EventRun.run (mainEvent false) .start oneConnection = some s ∧
    s.phase = .exited .signalled ∧ s.table.created = 1 ∧ s.record.cancelled = [0] := by
  obtain ⟨s, hs⟩ : ∃ s, EventRun.run (mainEvent false) .start oneConnection = some s := ⟨_, rfl⟩
  have hvalues : (EventRun.run (mainEvent false) .start oneConnection).map (fun s =>
      (s.phase, s.table.created, s.record.cancelled)) = some (.exited .signalled, 1, [0]) := by
    decide +kernel
  rw [hs, Option.map_some, Option.some.injEq, Prod.mk.injEq, Prod.mk.injEq] at hvalues
  exact ⟨s, hs, hvalues⟩

theorem main_exits_one : ∃ s, EventRun.run (mainEvent false) .start oneConnection = some s ∧
    s.phase = .exited .signalled ∧ ShutDown s.table s.record .signalled ∧ s.wildFree = false := by
  obtain ⟨s, hs, hphase, -, -⟩ := oneConnection_run
  obtain ⟨hended, -, hwild⟩ := main_exits oneConnection .signalled hs hphase
  refine ⟨s, hs, hphase, hended.2, ?_⟩
  exact Bool.eq_false_of_not_eq_true fun h => nomatch hwild.mp h

/-- What a shutdown finds to cancel, up to 2^31 - 1 connections: the loop has joined everything by the time
it leaves, but for the thread of a connection that has remained the only one. -/
theorem shutdown_cancels_first_only (events : List MainEvent) (cause : ExitCause)
    (hrun : EventRun.run (mainEvent daemon) .start events = some s)
    (hexit : s.phase = .exited cause) (hcause : cause.shutsDown = true)
    (hfew : s.table.created < 2 ^ 31) :
    s.record.cancelled = (if s.table.created = 1 then [0] else []) ∧
      (s.table.created ≠ 1 → ∀ t < s.table.created, t ∈ s.table.joined ∧ s.table.exited t = true) := by
  obtain ⟨⟨m, inv⟩, -, -⟩ := ProcessInv.of_run hrun
  have hholds := inv.holds
  rw [hexit] at hholds
  have hshut : ShutDown s.table s.record cause := by
    cases cause <;> first | exact hholds | cases hcause
  have hreached : ReachedAt m .accepting := by
    refine inv.reached .accepting ?_
    rw [hexit]
    cases cause <;> first | rfl | cases hcause
  have hcreated : s.table.created = m.created := by rw [inv.table]
  have hjoined : s.table.joined = m.joined := by rw [inv.table]
  have hexited : s.table.exited = m.exited := by rw [inv.table]
  rw [hshut.cancelled, hjoined, hcreated, hexited]
  rw [hcreated] at hfew
  rcases Nat.lt_or_ge m.created 2 with hless | htwo
  · obtain ⟨hnone, -⟩ := hreached.first_listed (Nat.le_of_lt_succ hless)
    rw [hnone]
    obtain hzero | hone : m.created = 0 ∨ m.created = 1 := by omega
    · rw [hzero]
      exact ⟨rfl, fun _ t ht => absurd ht (Nat.not_lt_zero t)⟩
    · rw [hone]
      exact ⟨rfl, fun hne => absurd rfl hne⟩
  · have serial := hreached.serialInv hfew
    obtain ⟨hlisted, hall⟩ := serial.joined_of_accepting htwo
    rw [← hreached.listed_accepting, hlisted, if_neg (by omega)]
    exact ⟨rfl, fun _ t ht => ⟨hall t ht, serial.joined_exited t (hall t ht)⟩⟩

theorem shutdown_cancels_first_only_one : ∃ s,
    EventRun.run (mainEvent false) .start oneConnection = some s ∧ s.table.created = 1 ∧
      s.record.cancelled = [0] := by
  obtain ⟨s, hs, hphase, hone, -⟩ := oneConnection_run
  have hcancelled := (shutdown_cancels_first_only oneConnection .signalled hs hphase rfl
    (by rw [hone]; decide)).1
  rw [hone, if_pos rfl] at hcancelled
  exact ⟨s, hs, hone, hcancelled⟩

end Process
end Aesd

import Aesd.Lib.EventRun
import Aesd.SerialAccept

/-! `main` from beginning to end: the calls that set the server up, the loop, `graceful_socket_shutdown`
and `exit`, with calls that fail and with signals. A signal comes at any moment; its handler runs
at once, on `main`, where it interrupts an `accept`, or on another thread, where it does not. The
messages are left out, as is the timer process that `start_timer` keeps from being created. -/
namespace Aesd
open Interleaving SList

inductive Signal
  | sigint
  | sigterm
  | sigalrm
  deriving DecidableEq

structure SignalFlags where
  caughtASignal : Bool
  caughtSigint : Bool
  caughtSigterm : Bool
  caughtSigalrm : Bool
  shouldContinue : Bool
  deriving DecidableEq

def signalHandler (g : SignalFlags) : Signal → SignalFlags
  | .sigint => { g with caughtSigint := true, caughtASignal := true, shouldContinue := false }
  | .sigterm => { g with caughtSigterm := true, caughtASignal := true, shouldContinue := false }
  | .sigalrm => { g with caughtSigalrm := true }

/-- The calls of `set_signal_handling`, `main` and `open_socket` up to the loop. -/
inductive StartCall
  | sigaction (signal : Signal)
  | mutexInit
  | getaddrinfo
  | socket
  | setsockopt
  | bind
  | fork
  deriving DecidableEq

namespace StartCall

def failed : StartCall → Int → Bool
  | sigaction _, r => r ≠ 0
  | mutexInit, r => r ≠ 0
  | getaddrinfo, r => r ≠ 0
  | socket, r => r = -1
  | setsockopt, r => r = -1
  | bind, r => r ≠ 0
  | fork, r => r < 0

def freesWhenFailed : StartCall → Bool
  | getaddrinfo => true
  | socket => true
  | setsockopt => true
  | bind => true
  | _ => false

def next (daemon : Bool) : StartCall → Option StartCall
  | sigaction .sigint => some (sigaction .sigterm)
  | sigaction .sigterm => some (sigaction .sigalrm)
  | sigaction .sigalrm => some mutexInit
  | mutexInit => some getaddrinfo
  | getaddrinfo => some socket
  | socket => some setsockopt
  | setsockopt => some bind
  | bind => if daemon then some fork else none
  | fork => none

end StartCall

/-- Where `exit` is called: behind a call that failed, in the parent of the daemon, behind a shutdown,
behind an interrupted `accept`, or in a thread. -/
inductive ExitCause
  | startFailed (call : StartCall)
  | parent
  | listenFailed
  | acceptFailed
  | createFailed
  | signalled
  | interrupted
  | threadFailed (t : Nat)
  deriving DecidableEq

/-- Where `graceful_socket_shutdown` is: at the head of its loop, where `datap` is the element taken
last, before `SLIST_REMOVE_HEAD`, before `shutdown`, or before `close`. -/
inductive ShutdownStage
  | emptying (datap : Option Nat)
  | unlinking (datap : Nat)
  | disconnecting
  | closing
  deriving DecidableEq

/-- Where `main` is: before a call, at a step of the list's bookkeeping, at the condition of its loop
or behind the loop. -/
inductive MainPhase
  | starting (call : StartCall)
  | listening
  | accepting
  | creating
  | looping (p : LoopPhase)
  | testing
  | leaving
  | shuttingDown (stage : ShutdownStage) (cause : ExitCause)
  | exited (cause : ExitCause)
  | killed (signal : Signal)
  deriving DecidableEq

inductive AddrInfo
  | unset
  | held
  | freed
  deriving DecidableEq

/-- What `main` hands to `free`: the block that `graceful_socket_shutdown` allocates, an element of the
list, or the `thread_data` of a thread that could not be created. -/
inductive HeapBlock
  | spare
  | element (datap : Nat)
  | threadData (n : Nat)
  deriving DecidableEq

structure ShutdownRecord where
  /-- the threads `pthread_cancel` was called on -/
  cancelled : List Nat
  freed : List HeapBlock
  shutdowns : Nat
  closes : Nat

structure MainProcess where
  table : ThreadTable
  phase : MainPhase
  flags : SignalFlags
  /-- the signals that have a handler -/
  handled : List Signal
  /-- a handler has run on `main` since it entered `accept` -/
  interrupted : Bool
  serverinfo : AddrInfo
  /-- `freeaddrinfo` has been called on something else than a list of addresses -/
  wildFree : Bool
  record : ShutdownRecord

def ShutdownRecord.empty : ShutdownRecord := ⟨[], [], 0, 0⟩

namespace MainProcess

def start : MainProcess where
  table := .start
  phase := .starting (.sigaction .sigint)
  flags := ⟨false, false, false, false, true⟩
  handled := []
  interrupted := false
  serverinfo := .unset
  wildFree := false
  record := .empty

def exit (s : MainProcess) (cause : ExitCause) : MainProcess := { s with phase := .exited cause }

def gracefulSocketShutdown (s : MainProcess) (cause : ExitCause) : MainProcess :=
  { s with phase := .shuttingDown (.emptying none) cause }

def freeaddrinfo (s : MainProcess) : MainProcess :=
  match s.serverinfo with
  | .held => { s with serverinfo := .freed }
  | _ => { s with wildFree := true }

end MainProcess

/-- A call before the loop returns. -/
def startStep (daemon : Bool) (call : StartCall) (ret : Int) (s : MainProcess) : MainProcess :=
  if call.failed ret then
    (if call.freesWhenFailed then s.freeaddrinfo else s).exit (.startFailed call)
  else
    let s := { s with phase := (call.next daemon).elim .listening .starting }
    match call with
    | .sigaction signal => { s with handled := signal :: s.handled }
    | .getaddrinfo => { s with serverinfo := .held }
    | .bind => s.freeaddrinfo
    | .fork => if 0 < ret then s.exit .parent else s
    | _ => s

/-- `graceful_socket_shutdown` and the `exit` behind it. What the calls return is only logged. -/
def shutdownStep (stage : ShutdownStage) (cause : ExitCause) (s : MainProcess) :
    Option MainProcess :=
  match stage with
  | .emptying datap =>
      match s.table.head.first with
      | none => some { s with
          record.freed := s.record.freed ++ [datap.elim .spare .element]
          phase := .shuttingDown .disconnecting cause }
      | some datap => some { s with
          record.cancelled := s.record.cancelled ++ [s.table.threadId datap]
          phase := .shuttingDown (.unlinking datap) cause }
  | .unlinking datap => s.table.head.removeHead.map fun head =>
      { s with
        table.head := head
        phase := .shuttingDown (.emptying (some datap)) cause }
  | .disconnecting => some { s with
      record.shutdowns := s.record.shutdowns + 1
      phase := .shuttingDown .closing cause }
  | .closing =>
      let freed := if cause = .createFailed then [HeapBlock.threadData s.table.created] else []
      some ({ s with
        record.closes := s.record.closes + 1
        record.freed := s.record.freed ++ freed }.exit cause)

/-- The next step of `main`, in which the call it makes returns `ret` and leaves `errno` behind. An
`accept` fails with `EINTR` only if a handler has run. -/
def mainStep (daemon : Bool) (ret errno : Int) (s : MainProcess) : Option MainProcess :=
  match s.phase with
  | .starting call => some (startStep daemon call ret s)
  | .listening =>
      if ret ≠ 0 then some (s.gracefulSocketShutdown .listenFailed)
      else some { s with phase := .accepting, interrupted := false }
  | .accepting =>
      if ret = -1 then
        if errno = 4 then
          if s.interrupted then some { s with phase := .leaving } else none
        else some (s.gracefulSocketShutdown .acceptFailed)
      else some { s with phase := .creating }
  | .creating =>
      if ret ≠ 0 then some (s.gracefulSocketShutdown .createFailed)
      else (loopStep s.table .accepting).map fun r => { s with table := r.1, phase := .looping r.2 }
  | .looping p => (loopStep s.table p).map fun r =>
      { s with table := r.1, phase := if r.2 = .accepting then .testing else .looping r.2 }
  | .testing => some { s with phase := if s.flags.caughtASignal then .leaving else .listening }
  | .leaving =>
      if s.flags.caughtSigint || s.flags.caughtSigterm then
        some (s.gracefulSocketShutdown .signalled)
      else some (s.exit .interrupted)
  | .shuttingDown stage cause => shutdownStep stage cause s
  | .exited _ => none
  | .killed _ => none

inductive MainEvent
  | main (ret errno : Int)
  | threadExit (t : Nat)
  | threadFails (t : Nat)
  | signal (signal : Signal) (onMain : Bool)

def MainEvent.byMain : MainEvent → Bool
  | main _ _ => true
  | _ => false

def MainPhase.over : MainPhase → Bool
  | exited _ => true
  | killed _ => true
  | _ => false

def raise (signal : Signal) (onMain : Bool) (s : MainProcess) : MainProcess :=
  if signal ∈ s.handled then
    { s with
      flags := signalHandler s.flags signal
      interrupted := s.interrupted || (onMain && decide (s.phase = .accepting)) }
  else { s with phase := .killed signal }

def mainEvent (daemon : Bool) (s : MainProcess) (event : MainEvent) : Option MainProcess :=
  if s.phase.over then none
  else match event with
    | .main ret errno => mainStep daemon ret errno s
    | .threadExit t => (exitStep t s.table).map fun table => { s with table }
    | .threadFails t =>
        if t < s.table.created ∧ s.table.exited t = false then some (s.exit (.threadFailed t))
        else none
    | .signal signal onMain => some (raise signal onMain s)

theorem mainEvent_eq_some {daemon : Bool} {s s' : MainProcess} {e : MainEvent}
    (h : mainEvent daemon s e = some s') : s.phase.over = false ∧ match e with
      | .main ret errno => mainStep daemon ret errno s = some s'
      | .threadExit t => ∃ table, exitStep t s.table = some table ∧ s' = { s with table }
      | .threadFails t => (t < s.table.created ∧ s.table.exited t = false) ∧
          s' = s.exit (.threadFailed t)
      | .signal signal onMain => s' = raise signal onMain s := by
  cases hover : s.phase.over with
  | true =>
      rw [mainEvent.eq_def, if_pos hover] at h
      cases h
  | false =>
      rw [mainEvent.eq_def, if_neg (by rw [hover]; exact Bool.false_ne_true)] at h
      refine ⟨rfl, ?_⟩
      cases e with
      | main ret errno => exact h
      | threadExit t =>
          obtain ⟨table, hexit, rfl⟩ := Option.map_eq_some_iff.mp h
          exact ⟨table, hexit, rfl⟩
      | threadFails t =>
          dsimp only at h
          split at h <;> cases h
          rename_i hrunning
          exact ⟨hrunning, rfl⟩
      | signal signal onMain => exact (Option.some.inj h).symm

end Aesd

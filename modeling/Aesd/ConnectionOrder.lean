import Aesd.Lib.Interleaving
import Aesd.SocketServer
import Mathlib.Data.List.Infix

/-! `accept_connection_thread` as steps that other threads can come between, over a regular
file that every `open` reads from its start. One mutex is held from before the first
`recv` to behind the last `send`. -/
namespace Aesd
open CString Interleaving

/-- Where a thread is: `accepted` before `pthread_mutex_lock`, `recieving` before `recv`,
`writing` before `write`, `reading` before `read`, `sending` before `send`, `answered`
before `pthread_mutex_unlock`. -/
inductive ConnectionPhase
  | accepted
  | recieving
  | writing (chunk : List UInt8)
  | reading (fPos : Nat)
  | sending (fPos : Nat) (block : List UInt8)
  | answered
  | closed
  deriving DecidableEq

structure Connection where
  phase : ConnectionPhase
  incoming : List (List UInt8)
  recieved : List UInt8
  written : List UInt8
  sent : List UInt8
  /-- the file when the receiving loop ended -/
  seen : List UInt8

/-- The file and the mutex, with the threads that have locked it, in order. -/
structure OutputFile (ι : Type) where
  bytes : List UInt8
  locked : Bool
  log : List ι

section Steps
variable {ι : Type}

/-- One call of the thread. `pthread_mutex_lock` waits while the mutex is locked, `recv` while
nothing has come; a chunk that is not data has no step here. -/
def connectionStep (i : ι) (f : OutputFile ι) (c : Connection) :
    Option (OutputFile ι × Connection) :=
  match c.phase with
  | .accepted =>
      if f.locked then none
      else some ({ f with locked := true, log := f.log ++ [i] }, { c with phase := .recieving })
  | .recieving => match c.incoming with
      | [] => none
      | chunk :: chunks => match parseCommand (ofBytes chunk) with
          | some none => some (f,
              { c with phase := .writing chunk, incoming := chunks,
                       recieved := c.recieved ++ chunk })
          | _ => none
  | .writing chunk =>
      let c := { c with written := c.written ++ chunk }
      let f := { f with bytes := f.bytes ++ chunk }
      some (f, if strchr (ofBytes chunk) 10 then { c with phase := .reading 0, seen := f.bytes }
        else { c with phase := .recieving })
  | .reading fPos =>
      let block := (f.bytes.drop fPos).take bufSize
      some (f, { c with phase := .sending (fPos + block.length) block })
  | .sending fPos block =>
      some (f, { c with phase := if block.length = bufSize then .reading fPos else .answered,
                        sent := c.sent ++ block })
  | .answered => some ({ f with locked := false }, { c with phase := .closed })
  | .closed => none

def Connection.fresh (incoming : List (List UInt8)) : Connection :=
  ⟨.accepted, incoming, [], [], [], []⟩

def connectionsStart (initial : List UInt8) (incoming : ι → List (List UInt8)) :
    State ι (OutputFile ι) Connection :=
  ⟨⟨initial, false, []⟩, fun i => .fresh (incoming i)⟩

end Steps

namespace ConnectionPhase

def Holds : ConnectionPhase → Prop
  | accepted => False
  | closed => False
  | _ => True

def Entered : ConnectionPhase → Prop
  | accepted => False
  | _ => True

def Recieving : ConnectionPhase → Prop
  | recieving => True
  | writing _ => True
  | _ => False

def Recieved : ConnectionPhase → Prop
  | reading _ => True
  | sending _ _ => True
  | answered => True
  | closed => True
  | _ => False

instance (p : ConnectionPhase) : Decidable p.Recieved := by
  cases p <;> unfold Recieved <;> infer_instance

def unwritten : ConnectionPhase → List UInt8
  | writing chunk => chunk
  | _ => []

theorem Holds.entered {p : ConnectionPhase} (h : p.Holds) : p.Entered := by
  cases p <;> trivial

end ConnectionPhase

namespace Connection

structure Own (c : Connection) : Prop where
  recieved : c.recieved = c.written ++ c.phase.unwritten
  fresh : c.phase = .accepted → c.written = []
  sent : match c.phase with
    | .reading fPos => c.sent = c.seen.take fPos
    | .sending fPos block => c.sent ++ block = c.seen.take fPos ∧
        (block.length = bufSize ∨ c.seen.length ≤ fPos)
    | .answered => c.sent = c.seen
    | .closed => c.sent = c.seen
    | _ => c.sent = []

end Connection

structure FileWorld where
  bytes : List UInt8
  fPos : Nat
  incoming : List (List UInt8)
  sent : List UInt8

/-- Every call succeeds but `ioctl`, which a regular file does not have. -/
def fileSyscalls : Syscalls FileWorld where
  openAppend w := (3, w)
  openRead w := (3, { w with fPos := 0 })
  close _ w := w
  read _ buf count w :=
    let block := (w.bytes.drop w.fPos).take count
    some (block.length, block ++ buf.drop block.length, { w with fPos := w.fPos + block.length })
  write _ buf w := some (buf.length, { w with bytes := w.bytes ++ buf })
  ioctlSeekto _ _ w := (-1, w)
  recv _ w := match w.incoming with
    | [] => none
    | chunk :: chunks => some (chunk.length, chunk, { w with incoming := chunks })
  send bytes w := some (bytes.length, { w with sent := w.sent ++ bytes })

section Alone
variable {ι : Type} (i : ι) (f : OutputFile ι) (c : Connection)

theorem alone_chunk {chunk : List UInt8} {chunks : List (List UInt8)}
    (hphase : c.phase = .recieving) (hincoming : c.incoming = chunk :: chunks)
    (hparse : parseCommand (ofBytes chunk) = some none) :
    ∃ c', (∀ n, alone connectionStep i (n + 2) (f, c) =
        alone connectionStep i n ({ f with bytes := f.bytes ++ chunk }, c')) ∧
      c'.phase = (if strchr (ofBytes chunk) 10 then .reading 0 else .recieving) ∧
      c'.incoming = chunks ∧ c'.sent = c.sent := by
  simp only [alone, connectionStep, hphase, hincoming, hparse, Option.bind_some]
  split
  · exact ⟨_, fun _ => rfl, rfl, rfl, rfl⟩
  · exact ⟨_, fun _ => rfl, rfl, rfl, rfl⟩

theorem alone_recieveLoop (fd : Int) (fuel : Nat) (stray : Bool) (fPos : Nat)
    {e : Ended FileWorld} (hphase : c.phase = .recieving)
    (hloop : recieveLoop fileSyscalls fd fuel stray ⟨f.bytes, fPos, c.incoming, c.sent⟩ = some e)
    (hret : e.outcome = .returned 0) : ∃ n f' c', (∀ m, alone connectionStep i (n + m) (f, c) =
        alone connectionStep i m (f', c')) ∧ f' = { f with bytes := f'.bytes } ∧
      c'.phase = .reading 0 ∧ e.world = ⟨f'.bytes, fPos, c'.incoming, c'.sent⟩ := by
  induction fuel generalizing f c stray with
  | zero => cases hloop
  | succ fuel ih =>
      cases hincoming : c.incoming with
      | nil =>
          rw [hincoming] at hloop
          cases hloop
      | cons chunk chunks =>
          have hneg : ¬ (chunk.length : Int) < 0 := by omega
          simp only [recieveLoop, recieveTurn, fileSyscalls, hincoming, Option.bind_eq_bind,
            Option.bind_some, hneg, if_false] at hloop
          cases hparse : parseCommand (ofBytes chunk) with
          | none =>
              simp only [hparse, Option.bind_some, Option.some.injEq] at hloop
              subst hloop
              cases hret
          | some command =>
              cases command with
              | some seekto =>
                  simp only [hparse, Option.bind_some, ne_eq, neg_eq_zero, one_ne_zero,
                    not_false_eq_true, if_true, Option.some.injEq] at hloop
                  subst hloop
                  cases hret
              | none =>
                  obtain ⟨c', halone, hphase', hincoming', hsent⟩ :=
                    alone_chunk i f c hphase hincoming hparse
                  by_cases hnl : strchr (ofBytes chunk) 10 = true
                  · simp only [hparse, hnl, if_true, Option.bind_some, Option.some.injEq] at hloop
                    subst hloop
                    refine ⟨2, { f with bytes := f.bytes ++ chunk }, c', fun m => ?_, rfl,
                      by rw [hphase', if_pos hnl], ?_⟩
                    · rw [Nat.add_comm]
                      exact halone m
                    · rw [hincoming', hsent]
                  · simp only [hparse, hnl] at hloop
                    rw [if_neg hnl] at hphase'
                    rw [← hincoming', ← hsent] at hloop
                    obtain ⟨n, f', c'', hrest, hf', hphase'', hworld⟩ :=
                      ih { f with bytes := f.bytes ++ chunk } c' _ hphase' hloop
                    refine ⟨n + 2, f', c'', fun m => ?_, hf', hphase'', hworld⟩
                    rw [Nat.add_right_comm, halone, hrest]

theorem alone_block {fPos : Nat} (hphase : c.phase = .reading fPos) {block : List UInt8}
    (hblock : block = (f.bytes.drop fPos).take bufSize) :
    ∃ c', (∀ n, alone connectionStep i (n + 2) (f, c) = alone connectionStep i n (f, c')) ∧
      c'.phase = (if block.length = bufSize then .reading (fPos + block.length) else .answered) ∧
      c'.incoming = c.incoming ∧ c'.sent = c.sent ++ block := by
  subst hblock
  simp only [alone, connectionStep, hphase, Option.bind_some]
  exact ⟨_, fun _ => rfl, rfl, rfl, rfl⟩

theorem alone_returnLoop (fd : Int) (fuel : Nat) (buf : List UInt8) (fPos : Nat) {w : FileWorld}
    (hphase : c.phase = .reading fPos)
    (hloop : returnLoop fileSyscalls fd fuel buf ⟨f.bytes, fPos, c.incoming, c.sent⟩ =
      some (0, w)) : ∃ n c', (∀ m, alone connectionStep i (n + m) (f, c) =
        alone connectionStep i m (f, c')) ∧
      c'.phase = .answered ∧ w = ⟨f.bytes, w.fPos, c'.incoming, c'.sent⟩ := by
  induction fuel generalizing c buf fPos with
  | zero => cases hloop
  | succ fuel ih =>
      obtain ⟨block, hblock⟩ : ∃ block, block = (f.bytes.drop fPos).take bufSize := ⟨_, rfl⟩
      obtain ⟨c', halone, hphase', hincoming, hsent⟩ := alone_block i f c hphase hblock
      have hneg : ¬ (block.length : Int) < 0 := by omega
      have hle : block.length ≤ (block ++ buf.drop block.length).length := by
        rw [List.length_append]
        exact Nat.le_add_right _ _
      simp only [returnLoop, fileSyscalls, ← hblock, Option.bind_eq_bind, Option.bind_some, hneg,
        if_false, Int.toNat_natCast, bytesFrom_of_le hle, List.take_left, Nat.cast_inj, ← hincoming,
        ← hsent] at hloop
      split at hloop
      · rename_i hfull
        rw [if_pos hfull] at hphase'
        obtain ⟨n, c'', hrest, hphase'', hworld⟩ := ih c' _ _ hphase' hloop
        refine ⟨n + 2, c'', fun m => ?_, hphase'', hworld⟩
        rw [Nat.add_right_comm, halone, hrest]
      · rename_i hshort
        rw [if_neg hshort] at hphase'
        simp only [Option.some.injEq, Prod.mk.injEq, true_and] at hloop
        subst hloop
        refine ⟨2, c', fun m => ?_, hphase', rfl⟩
        rw [Nat.add_comm]
        exact halone m

/-- A connection that no other one comes between is `recieve_socket_data` and
`return_socket_data` under the mutex. -/
theorem alone_connection (fuel fuel' : Nat) (buf : List UInt8) (fPos : Nat)
    (incoming : List (List UInt8)) {e : Ended FileWorld} {w : FileWorld} (hfree : f.locked = false)
    (hrecieve : recieveSocketData fileSyscalls fuel ⟨f.bytes, fPos, incoming, []⟩ = some e)
    (hret : e.outcome = .returned 0)
    (hreturn : returnSocketData fileSyscalls fuel' buf e.world = some (0, w)) : ∃ n c',
      alone connectionStep i n (f, .fresh incoming) =
        some (⟨w.bytes, false, f.log ++ [i]⟩, c') ∧
      c'.phase = .closed ∧ c'.incoming = w.incoming ∧ c'.sent = w.sent := by
  have hlock : ∀ m, alone connectionStep i (m + 1) (f, .fresh incoming) =
      alone connectionStep i m ({ f with locked := true, log := f.log ++ [i] },
        { Connection.fresh incoming with phase := .recieving }) := by
    intro m
    simp only [alone, connectionStep, Connection.fresh, hfree, Bool.false_eq_true, if_false,
      Option.bind_some]
  obtain ⟨n, f', c', hloop, hf', hphase, hworld⟩ := alone_recieveLoop i
    { f with locked := true, log := f.log ++ [i] }
    { Connection.fresh incoming with phase := .recieving } 3 fuel false fPos rfl hrecieve hret
  rw [hworld] at hreturn
  obtain ⟨n', c'', hloop', hphase', hworld'⟩ :=
    alone_returnLoop i f' c' 3 fuel' buf 0 hphase hreturn
  refine ⟨n + (n' + 1) + 1, { c'' with phase := .closed }, ?_, rfl, ?_, ?_⟩
  · rw [hlock, hloop, hloop']
    simp only [alone, connectionStep, hphase', Option.bind_some]
    rw [hf', hworld']
  · rw [hworld']
  · rw [hworld']

end Alone

/-- The connections have been served one after the other: the file holds what was in it, what
each thread that is through with receiving has received, in the order of locking, and a
part of what the holder has received so far; a thread that has unlocked the mutex has
sent the file as it was when its last chunk had been written, which ends with that
thread's own data and otherwise has the whole data of those before it. -/
structure ServedInOrder {ι : Type} (initial : List UInt8)
    (s : State ι (OutputFile ι) Connection) : Prop where
  file : ∃ current,
    s.shared.bytes = initial ++ ((s.shared.log.filter fun i => (s.party i).phase.Recieved).flatMap
      fun i => (s.party i).recieved) ++ current ∧
    ((∃ i, (s.party i).phase.Recieving ∧ current <+: (s.party i).recieved) ∨
      (∀ i, ¬ (s.party i).phase.Recieving) ∧ current = [])
  reply : ∀ i, (s.party i).phase = .closed →
    (s.party i).sent = (s.party i).seen ∧
      ∃ earlier later, s.shared.log = earlier ++ i :: later ∧
        (∀ j ∈ earlier, (s.party j).phase.Recieved) ∧
        (s.party i).seen =
          initial ++ (earlier.flatMap fun j => (s.party j).recieved) ++ (s.party i).recieved

structure Filled {ι : Type} (initial : List UInt8) (s : State ι (OutputFile ι) Connection) :
    Prop where
  own : ∀ i, (s.party i).Own
  bytes : s.shared.bytes = initial ++ s.shared.log.flatMap fun i => (s.party i).written
  seen : ∀ pre i, pre ++ [i] <+: s.shared.log → (s.party i).phase.Recieved →
    (s.party i).seen = initial ++ (pre ++ [i]).flatMap fun j => (s.party j).written

structure InOrder {ι : Type} (initial : List UInt8) (s : State ι (OutputFile ι) Connection) :
    Prop where
  order : LockOrder (fun i => (s.party i).phase.Holds) (fun i => (s.party i).phase.Entered)
    s.shared.locked s.shared.log
  filled : Filled initial s

section Start
variable {ι : Type}

theorem InOrder.start (initial : List UInt8) (incoming : ι → List (List UInt8)) :
    InOrder initial (connectionsStart initial incoming) where
  order := .start (fun _ => id) fun _ => id
  filled := {
    own := fun _ => ⟨rfl, fun _ => rfl, rfl⟩
    bytes := (List.append_nil initial).symm
    seen := fun pre i hpre _ => by simp [connectionsStart] at hpre }

theorem InOrder.bytes_eq_seen {initial : List UInt8} {s : State ι (OutputFile ι) Connection}
    (h : InOrder initial s) {i : ι} (hi : (s.party i).phase.Holds)
    (hrecieved : (s.party i).phase.Recieved) : s.shared.bytes = (s.party i).seen := by
  obtain ⟨earlier, hlog⟩ := h.order.holder_last i hi
  rw [h.filled.bytes, h.filled.seen earlier i (by rw [hlog]) hrecieved, hlog]

end Start

section Update
variable {ι : Type} [DecidableEq ι] {initial : List UInt8} {shared : OutputFile ι}
  {party : ι → Connection} {i : ι} {c : Connection}

theorem flatMap_written_of_notMem {log : List ι} (h : i ∉ log) :
    (log.flatMap fun j => (Function.update party i c j).written) =
      log.flatMap fun j => (party j).written := by
  refine List.flatMap_congr fun j hj => ?_
  rw [Function.update_of_ne (ne_of_mem_of_not_mem hj h)]

theorem flatMap_written_of_eq (h : c.written = (party i).written) (log : List ι) :
    (log.flatMap fun j => (Function.update party i c j).written) =
      log.flatMap fun j => (party j).written := by
  refine List.flatMap_congr fun j _ => ?_
  by_cases hj : j = i
  · rw [hj, Function.update_self, h]
  · rw [Function.update_of_ne hj]

theorem update_phase_iff {p : ConnectionPhase → Prop} (h : p c.phase ↔ p (party i).phase) (j : ι) :
    p (Function.update party i c j).phase ↔ p (party j).phase := by
  by_cases hj : j = i
  · rw [hj, Function.update_self, h]
  · rw [Function.update_of_ne hj]

theorem Filled.update (h : Filled initial ⟨shared, party⟩) (locked : Bool) (hown : c.Own)
    (hwritten : c.written = (party i).written)
    (hrecieved : c.phase.Recieved → (party i).phase.Recieved ∧ c.seen = (party i).seen) :
    Filled initial ⟨{ shared with locked := locked }, Function.update party i c⟩ where
  own := (Function.forall_update_iff party fun _ c => c.Own).mpr ⟨hown, fun j _ => h.own j⟩
  bytes := h.bytes.trans (by rw [flatMap_written_of_eq hwritten])
  seen pre j hpre hj := by
    rw [flatMap_written_of_eq hwritten]
    by_cases hji : j = i
    · subst hji
      simp only [Function.update_self] at hj ⊢
      rw [(hrecieved hj).2]
      exact h.seen pre j hpre (hrecieved hj).1
    · simp only [Function.update_of_ne hji] at hj ⊢
      exact h.seen pre j hpre hj

theorem InOrder.update (h : InOrder initial ⟨shared, party⟩) (hholds : (party i).phase.Holds)
    (hholds' : c.phase.Holds) (hown : c.Own) (hwritten : c.written = (party i).written)
    (hrecieved : c.phase.Recieved → (party i).phase.Recieved ∧ c.seen = (party i).seen) :
    InOrder initial ⟨shared, Function.update party i c⟩ where
  order := h.order.congr (update_phase_iff (iff_of_true hholds' hholds))
    (update_phase_iff (iff_of_true hholds'.entered hholds.entered))
  filled := h.filled.update shared.locked hown hwritten hrecieved

theorem InOrder.lock (h : InOrder initial ⟨shared, party⟩) (hphase : (party i).phase = .accepted)
    (hfree : shared.locked = false) (hc : c = { party i with phase := .recieving }) :
    InOrder initial ⟨{ shared with locked := true, log := shared.log ++ [i] },
      Function.update party i c⟩ := by
  have hown := h.filled.own i
  dsimp only at hown
  have hwritten : c.written = (party i).written := by rw [hc]
  have hrecieving : c.phase = .recieving := by rw [hc]
  have hentered : ¬ (party i).phase.Entered := by
    rw [hphase]
    exact id
  have horder := h.order
  dsimp only at horder
  rw [hfree] at horder
  refine ⟨horder.acquire ?_ hentered ?_ ?_ ?_, ?_, ?_, ?_⟩
  · simp [hrecieving, ConnectionPhase.Holds]
  · simp [hrecieving, ConnectionPhase.Entered]
  · intro j hj
    simp only [Function.update_of_ne hj]
  · intro j hj
    simp only [Function.update_of_ne hj]
  · refine (Function.forall_update_iff party fun _ c => c.Own).mpr ⟨?_, fun j _ => h.filled.own j⟩
    obtain ⟨hrecieved, -, hsent⟩ := hown
    rw [hphase] at hrecieved hsent
    subst hc
    exact ⟨hrecieved, (fun heq => by cases heq), hsent⟩
  · dsimp only
    rw [flatMap_written_of_eq hwritten, List.flatMap_append, List.flatMap_singleton,
      hown.fresh hphase, List.append_nil]
    exact h.filled.bytes
  · intro pre j hpre hj
    rw [flatMap_written_of_eq hwritten]
    have hji : j ≠ i := by
      rintro rfl
      simp [hrecieving, ConnectionPhase.Recieved] at hj
    simp only [Function.update_of_ne hji] at hj ⊢
    rcases List.prefix_concat_iff.mp hpre with heq | hpre
    · exact absurd (List.append_singleton_inj.mp heq).2 hji
    · exact h.filled.seen pre j hpre hj

theorem InOrder.write (h : InOrder initial ⟨shared, party⟩) {chunk : List UInt8}
    (hphase : (party i).phase = .writing chunk) (hwritten : c.written = (party i).written ++ chunk)
    (hrecieved : c.recieved = (party i).recieved) (hsent : c.sent = (party i).sent)
    (hnext : c.phase = .recieving ∨ c.phase = .reading 0 ∧ c.seen = shared.bytes ++ chunk) :
    InOrder initial ⟨{ shared with bytes := shared.bytes ++ chunk }, Function.update party i c⟩ := by
  have hholds : (party i).phase.Holds := by
    rw [hphase]
    trivial
  have hholds' : c.phase.Holds := by
    rcases hnext with hnext | ⟨hnext, -⟩ <;> rw [hnext] <;> trivial
  have hown := h.filled.own i
  dsimp only at hown
  obtain ⟨earlier, hlog⟩ := h.order.holder_last i hholds
  dsimp only at hlog
  have hearlier : i ∉ earlier := by
    have horder := h.order
    dsimp only at horder
    rw [hlog] at horder
    exact horder.notMem_earlier
  have hbytes : shared.bytes ++ chunk = initial ++ shared.log.flatMap fun j =>
      (Function.update party i c j).written := by
    have hbefore := h.filled.bytes
    dsimp only at hbefore
    rw [hbefore, hlog, List.flatMap_append, List.flatMap_append, flatMap_written_of_notMem hearlier,
      List.flatMap_singleton, List.flatMap_singleton, Function.update_self, hwritten]
    simp only [List.append_assoc]
  refine ⟨?_, ?_, hbytes, ?_⟩
  · exact h.order.congr (update_phase_iff (iff_of_true hholds' hholds))
      (update_phase_iff (iff_of_true hholds'.entered hholds.entered))
  · refine (Function.forall_update_iff party fun _ c => c.Own).mpr ⟨?_, fun j _ => h.filled.own j⟩
    obtain ⟨hold, -, hnone⟩ := hown
    rw [hphase] at hold hnone
    dsimp only [ConnectionPhase.unwritten] at hold hnone
    rw [← hsent] at hnone
    rw [← hrecieved, ← hwritten] at hold
    rcases hnext with hnext | ⟨hnext, -⟩
    · refine ⟨?_, fun heq => ?_, ?_⟩
      · simp only [hnext, hold, ConnectionPhase.unwritten, List.append_nil]
      · rw [hnext] at heq
        cases heq
      · rw [hnext]
        exact hnone
    · refine ⟨?_, fun heq => ?_, ?_⟩
      · simp only [hnext, hold, ConnectionPhase.unwritten, List.append_nil]
      · rw [hnext] at heq
        cases heq
      · rw [hnext]
        exact hnone
  · intro pre j hpre hj
    rcases List.prefix_concat_iff.mp (hlog ▸ hpre) with heq | hpre'
    · obtain ⟨rfl, rfl⟩ := List.append_singleton_inj.mp heq
      dsimp only at hj ⊢
      rw [Function.update_self] at hj ⊢
      rcases hnext with hnext | ⟨-, hseen⟩
      · rw [hnext] at hj
        exact hj.elim
      · rw [hseen, hbytes, hlog]
    · have hnot : i ∉ pre ++ [j] := fun hi => hearlier (hpre'.subset hi)
      have hji : j ≠ i := fun hji => hnot (by rw [hji]; exact List.mem_concat_self)
      rw [flatMap_written_of_notMem hnot]
      dsimp only at hj ⊢
      rw [Function.update_of_ne hji] at hj ⊢
      exact h.filled.seen pre j hpre hj

theorem InOrder.unlock (h : InOrder initial ⟨shared, party⟩) (hphase : (party i).phase = .answered)
    (hc : c = { party i with phase := .closed }) :
    InOrder initial ⟨{ shared with locked := false }, Function.update party i c⟩ := by
  have hclosed : c.phase = .closed := by rw [hc]
  have hholds : (party i).phase.Holds := by
    rw [hphase]
    trivial
  refine ⟨h.order.release hholds ?_ ?_ (update_phase_iff ?_), h.filled.update false ?_ ?_ ?_⟩
  · simp [hclosed, ConnectionPhase.Holds]
  · intro j hj
    simp only [Function.update_of_ne hj]
  · rw [hclosed, hphase]
    exact Iff.rfl
  · obtain ⟨hrecieved, -, hsent⟩ := h.filled.own i
    dsimp only at hrecieved hsent
    rw [hphase] at hrecieved hsent
    subst hc
    exact ⟨hrecieved, (fun heq => by cases heq), hsent⟩
  · rw [hc]
  · intro _
    rw [hphase, hc]
    exact ⟨trivial, rfl⟩

end Update

theorem take_append_block (bytes : List UInt8) (fPos : Nat) :
    bytes.take fPos ++ (bytes.drop fPos).take bufSize =
      bytes.take (fPos + ((bytes.drop fPos).take bufSize).length) := by
  rw [List.take_add, List.length_take, List.length_drop, List.append_cancel_left_eq,
    List.take_eq_take_iff, List.length_drop]
  omega

theorem block_full_or_last (bytes : List UInt8) (fPos : Nat) :
    ((bytes.drop fPos).take bufSize).length = bufSize ∨
      bytes.length ≤ fPos + ((bytes.drop fPos).take bufSize).length := by
  rw [List.length_take, List.length_drop]
  omega

theorem InOrder.step {ι : Type} [DecidableEq ι] {initial : List UInt8}
    (s : State ι (OutputFile ι) Connection) (i : ι) (s' : State ι (OutputFile ι) Connection)
    (h : InOrder initial s) (hact : act connectionStep s i = some s') : InOrder initial s' := by
  obtain ⟨shared', c, hstep, rfl⟩ := act_eq_some hact
  obtain ⟨shared, party⟩ := s
  have hown := h.filled.own i
  dsimp only at hstep hown ⊢
  obtain ⟨hrecieved, -, hsent⟩ := hown
  cases hphase : (party i).phase with
  | accepted =>
      simp only [connectionStep, hphase] at hstep
      split at hstep
      · cases hstep
      · rename_i hfree
        cases hstep
        exact h.lock hphase (Bool.eq_false_iff.mpr hfree) rfl
  | recieving =>
      simp only [connectionStep, hphase] at hstep
      split at hstep
      · cases hstep
      · rename_i chunk chunks hincoming
        split at hstep
        · cases hstep
          rw [hphase] at hrecieved hsent
          refine h.update (by rw [hphase]; trivial) trivial ⟨?_, (fun heq => by cases heq), hsent⟩
            rfl fun hnot => hnot.elim
          simp only [ConnectionPhase.unwritten, List.append_nil] at hrecieved ⊢
          rw [hrecieved]
        · cases hstep
  | writing chunk =>
      simp only [connectionStep, hphase, Option.some.injEq, Prod.mk.injEq] at hstep
      obtain ⟨rfl, rfl⟩ := hstep
      split
      · exact h.write hphase rfl rfl rfl (Or.inr ⟨rfl, rfl⟩)
      · exact h.write hphase rfl rfl rfl (Or.inl rfl)
  | reading fPos =>
      simp only [connectionStep, hphase, Option.some.injEq, Prod.mk.injEq] at hstep
      obtain ⟨rfl, rfl⟩ := hstep
      have hholds : (party i).phase.Holds := by rw [hphase]; trivial
      have hthrough : (party i).phase.Recieved := by rw [hphase]; trivial
      have hseen := h.bytes_eq_seen hholds hthrough
      dsimp only at hseen
      rw [hphase] at hrecieved hsent
      refine h.update hholds trivial ⟨hrecieved, (fun heq => by cases heq), ?_, ?_⟩ rfl
        fun _ => ⟨hthrough, rfl⟩
      · dsimp only at hsent ⊢
        rw [hsent, hseen]
        exact take_append_block (party i).seen fPos
      · dsimp only
        rw [hseen]
        exact block_full_or_last (party i).seen fPos
  | sending fPos block =>
      simp only [connectionStep, hphase, Option.some.injEq, Prod.mk.injEq] at hstep
      obtain ⟨rfl, rfl⟩ := hstep
      have hthrough : (party i).phase.Recieved := by rw [hphase]; trivial
      rw [hphase] at hrecieved hsent
      obtain ⟨hsent, hblock⟩ := hsent
      split
      · exact h.update (by rw [hphase]; trivial) trivial
          ⟨hrecieved, (fun heq => by cases heq), hsent⟩ rfl fun _ => ⟨hthrough, rfl⟩
      · rename_i hshort
        refine h.update (by rw [hphase]; trivial) trivial
          ⟨hrecieved, (fun heq => by cases heq), ?_⟩ rfl fun _ => ⟨hthrough, rfl⟩
        exact hsent.trans (List.take_of_length_le (hblock.resolve_left hshort))
  | answered =>
      simp only [connectionStep, hphase, Option.some.injEq, Prod.mk.injEq] at hstep
      obtain ⟨rfl, rfl⟩ := hstep
      exact h.unlock hphase rfl
  | closed =>
      simp only [connectionStep, hphase] at hstep
      cases hstep

section Served
variable {ι : Type} {initial : List UInt8} {s : State ι (OutputFile ι) Connection}

theorem ConnectionPhase.Entered.recieved {p : ConnectionPhase} (h : p.Entered)
    (hnot : ¬ p.Recieving) : p.Recieved := by
  cases p with
  | accepted => exact h.elim
  | recieving => exact absurd trivial hnot
  | writing chunk => exact absurd trivial hnot
  | _ => trivial

theorem ConnectionPhase.Recieving.holds {p : ConnectionPhase} (h : p.Recieving) : p.Holds := by
  cases p <;> trivial

theorem ConnectionPhase.Recieving.not_recieved {p : ConnectionPhase} (h : p.Recieving) :
    ¬ p.Recieved := by
  cases p <;> first | exact id | exact h.elim

theorem Connection.Own.recieved_eq {c : Connection} (h : c.Own) (hphase : c.phase.Recieved) :
    c.recieved = c.written := by
  have hrecieved := h.recieved
  cases hc : c.phase <;> rw [hc] at hphase hrecieved <;>
    first | exact hphase.elim | simpa [ConnectionPhase.unwritten] using hrecieved

theorem Filled.flatMap_recieved (h : Filled initial s) {log : List ι}
    (hlog : ∀ j ∈ log, (s.party j).phase.Recieved) :
    (log.flatMap fun j => (s.party j).recieved) = log.flatMap fun j => (s.party j).written :=
  List.flatMap_congr fun j hj => (h.own j).recieved_eq (hlog j hj)

theorem InOrder.recieved_of_before (h : InOrder initial s) {earlier later : List ι} {i : ι}
    (hlog : s.shared.log = earlier ++ i :: later) : ∀ j ∈ earlier, (s.party j).phase.Recieved := by
  intro j hj
  have horder := h.order
  rw [hlog] at horder
  have hentered : (s.party j).phase.Entered := (horder.mem_iff j).mp (List.mem_append_left _ hj)
  exact hentered.recieved fun hin => horder.not_holds_of_before hj hin.holds

theorem InOrder.served (h : InOrder initial s) : ServedInOrder initial s where
  file := by
    by_cases hsome : ∃ i, (s.party i).phase.Recieving
    · obtain ⟨i, hi⟩ := hsome
      obtain ⟨earlier, hlog⟩ := h.order.holder_last i hi.holds
      have hbefore := h.recieved_of_before hlog
      have hfilter : (s.shared.log.filter fun i => (s.party i).phase.Recieved) = earlier := by
        rw [hlog, List.filter_append, List.filter_eq_self.mpr (by simpa using hbefore),
          List.filter_singleton, decide_eq_false hi.not_recieved]
        exact List.append_nil earlier
      refine ⟨(s.party i).written, ?_, Or.inl ⟨i, hi, _, ((h.filled.own i).recieved).symm⟩⟩
      rw [hfilter, h.filled.flatMap_recieved hbefore, h.filled.bytes, hlog, List.flatMap_append,
        List.flatMap_singleton, List.append_assoc]
    · have hnone := not_exists.mp hsome
      have hall : ∀ j ∈ s.shared.log, (s.party j).phase.Recieved := fun j hj =>
        ConnectionPhase.Entered.recieved ((h.order.mem_iff j).mp hj) (hnone j)
      refine ⟨[], ?_, Or.inr ⟨hnone, rfl⟩⟩
      rw [List.filter_eq_self.mpr (by simpa using hall), h.filled.flatMap_recieved hall,
        List.append_nil]
      exact h.filled.bytes
  reply i hi := by
    have hown := h.filled.own i
    have hsent := hown.sent
    rw [hi] at hsent
    refine ⟨hsent, ?_⟩
    have hmem : i ∈ s.shared.log := (h.order.mem_iff i).mpr (by rw [hi]; trivial)
    obtain ⟨earlier, later, hlog⟩ := List.append_of_mem hmem
    have hbefore := h.recieved_of_before hlog
    have hrecieved : (s.party i).phase.Recieved := by rw [hi]; trivial
    refine ⟨earlier, later, hlog, hbefore, ?_⟩
    rw [h.filled.flatMap_recieved hbefore, hown.recieved_eq hrecieved,
      h.filled.seen earlier i ⟨later, by rw [hlog]; simp⟩ hrecieved, List.flatMap_append,
      List.flatMap_singleton, List.append_assoc]

/-- Connections and one another. Whatever the order of the threads' calls, the file and the
answers are those of connections served one after the other. -/
theorem connections_served_in_order [DecidableEq ι] (initial : List UInt8) (incoming : ι → List (List UInt8))
    (schedule : List ι)
    (hrun : run connectionStep (connectionsStart initial incoming) schedule = some s) :
    ServedInOrder initial s :=
  (run_invariant InOrder.step (.start initial incoming) schedule hrun).served

theorem connections_served_in_order_two : ∃ s,
    run connectionStep (connectionsStart [120, 10] fun second : Bool =>
      if second then [[98], [10]] else [[97, 10]])
      [false, false, false, false, false, false, true, true, true, true, true, true, true, true] =
        some s ∧ (s.party true).phase = .closed ∧
      (s.party true).sent = [120, 10, 97, 10, 98, 10] ∧ ServedInOrder [120, 10] s := by
  refine ⟨_, rfl, rfl, rfl, ?_⟩
  exact connections_served_in_order [120, 10]
    (fun second : Bool => if second then [[98], [10]] else [[97, 10]])
    [false, false, false, false, false, false, true, true, true, true, true, true, true, true] rfl

end Served

end Aesd

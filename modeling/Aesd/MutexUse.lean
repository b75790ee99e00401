import Aesd.DeviceRuns
import Aesd.Lib.LockUse
import Aesd.ReadDelivery
import Aesd.WriteInterleaving

/-! The driver's mutex under reads and writes together. A party is one call of either, in steps that
any other call can come between; what a read does behind the last test of the mutex is one
step. Nothing is assumed of the outcomes of the kernel calls. -/
namespace Aesd
open FixedWidth Memory Interleaving

structure ReadLocals where
  tmpBuf : Nat
  fPos : Int
  byteOffset : Nat
  readCount : Nat

/-- Where a read is: `prepared` to `entered` as for a write, `pastEnd` before the release in the
branch that returns 0, `dismissed` behind it, `copied` before the other release, `released` before
the last test, `checked` before the copy to the user. -/
inductive ReadPhase
  | called
  | prepared (tmpBuf : Nat)
  | admitted (tmpBuf : Nat)
  | locked (tmpBuf : Nat)
  | entered (tmpBuf : Nat)
  | pastEnd
  | dismissed
  | copied (c : ReadLocals)
  | released (c : ReadLocals)
  | checked (c : ReadLocals)
  | returned (fPos ret : Int) (ubuf : List UInt8)

def readReturn (env : ReadEnv) (k : Kernel) (c : ReadLocals) (count : Nat) (ubuf : List UInt8) :
    ReadResult :=
  let ubuf := copyToUser k.heap ubuf c.tmpBuf count env.uncopied
  let k := { k with heap := ((k.heap.checkRange c.tmpBuf 0 count).free c.byteOffset).free c.tmpBuf }
  if c.fPos < k.dev.buffer.totalSize then
    ⟨k, toSsize (c.fPos + c.readCount), toSsize c.readCount, ubuf⟩
  else ⟨k, c.fPos, 0, ubuf⟩

def readStep (env : ReadEnv) (ubuf : List UInt8) (count : Nat) (fPos : Int) (k : Kernel) :
    ReadPhase → Option (Kernel × ReadPhase)
  | .called =>
      let t := kmalloc k.heap count env.tmpBuf
      some ({ k with heap := t.2 }, .prepared t.1)
  | .prepared tmpBuf =>
      some (k, if k.dev.mutex then .returned fPos (-ENOMEM) ubuf else .admitted tmpBuf)
  | .admitted tmpBuf => if k.dev.mutex then none else some (k.mutexLock, .locked tmpBuf)
  | .locked tmpBuf =>
      some (k, if k.dev.mutex then .entered tmpBuf else .returned fPos (-ENOMEM) ubuf)
  | .entered tmpBuf =>
      (readSection env k tmpBuf count fPos).map fun r =>
        match r.2 with
        | .pastEnd => (r.1, .pastEnd)
        | .copied pos byteOffset readCount => (r.1, .copied ⟨tmpBuf, pos, byteOffset, readCount⟩)
  | .pastEnd => some (k.mutexUnlock, .dismissed)
  | .dismissed => some (k, .returned fPos 0 ubuf)
  | .copied c => some (k.mutexUnlock, .released c)
  | .released c =>
      some (k, if k.dev.mutex then .returned c.fPos (-ENOMEM) ubuf else .checked c)
  | .checked c =>
      let r := readReturn env k c count ubuf
      some (r.kernel, .returned r.fPos r.ret r.ubuf)
  | .returned _ _ _ => none

theorem readEpilog_eq (env : ReadEnv) (k : Kernel) (c : ReadLocals) (count : Nat)
    (ubuf : List UInt8) : readEpilog env k c.tmpBuf c.byteOffset count c.readCount c.fPos ubuf =
      if k.dev.mutex then ⟨k, c.fPos, -ENOMEM, ubuf⟩ else readReturn env k c count ubuf := rfl

/-- A read that no other call comes between is `aesd_read`. -/
theorem alone_aesdRead (env : ReadEnv) (ubuf : List UInt8) (count : Nat) (fPos : Int) {k : Kernel}
    {res : ReadResult} (hcall : aesdRead env k ubuf count fPos = some res) :
    ∃ n, alone (fun _ : Unit => readStep env ubuf count fPos) () n (k, .called) =
      some (res.kernel, .returned res.fPos res.ret res.ubuf) := by
  cases hlock : k.dev.mutex
  · have hlocked : ∀ k : Kernel, k.mutexLock.dev.mutex = true := fun _ => rfl
    have hfreed : ∀ k : Kernel, k.mutexUnlock.dev.mutex = false := fun _ => rfl
    simp only [aesdRead, hlock, hlocked, Bool.false_eq_true, if_false, Bool.not_true] at hcall
    obtain ⟨⟨k', sec⟩, hsection, hcall⟩ := Option.bind_eq_some_iff.mp hcall
    cases sec with
    | pastEnd =>
        cases hcall
        refine ⟨7, ?_⟩
        simp only [alone, readStep, hlock, hlocked, hsection, Bool.false_eq_true, if_true, if_false,
          Option.bind_some, Option.map_some]
    | copied pos byteOffset readCount =>
        cases hcall
        rw [readEpilog_eq env k'.mutexUnlock ⟨_, pos, byteOffset, readCount⟩, hfreed,
          if_neg Bool.false_ne_true]
        refine ⟨8, ?_⟩
        simp only [alone, readStep, hlock, hlocked, hfreed, hsection, Bool.false_eq_true, if_true,
          if_false, Option.bind_some, Option.map_some]
  · simp only [aesdRead, hlock, if_true, Option.some.injEq] at hcall
    subst hcall
    refine ⟨2, ?_⟩
    simp only [alone, readStep, hlock, if_true, Option.bind_some]

inductive LockingCall
  | read (env : ReadEnv) (ubuf : List UInt8) (count : Nat) (fPos : Int)
  | write (env : WriteEnv) (buf : List UInt8)

inductive LockingPhase
  | read (p : ReadPhase)
  | write (p : WritePhase)

namespace LockingPhase

def locks : LockingPhase → Bool
  | read (.admitted _) => true
  | write (.admitted _) => true
  | _ => false

def unlocks : LockingPhase → Bool
  | read .pastEnd => true
  | read (.copied _) => true
  | write (.written _) => true
  | _ => false

def tests : LockingPhase → Bool
  | read (.locked _) => true
  | write (.locked _) => true
  | _ => false

def enters : LockingPhase → Bool
  | read (.entered _) => true
  | write (.entered _) => true
  | _ => false

def isReturned : LockingPhase → Bool
  | read (.returned _ _ _) => true
  | write (.returned _) => true
  | _ => false

def stage : LockingPhase → LockStage
  | read .called => .ahead
  | read (.prepared _) => .ahead
  | read (.admitted _) => .ahead
  | read (.locked _) => .holding
  | read (.entered _) => .holding
  | read .pastEnd => .holding
  | read (.copied _) => .holding
  | read _ => .behind
  | write .called => .ahead
  | write (.prepared _) => .ahead
  | write (.admitted _) => .ahead
  | write (.locked _) => .holding
  | write (.entered _) => .holding
  | write (.written _) => .holding
  | write _ => .behind

end LockingPhase

def LockingCall.start : LockingCall → LockingPhase
  | read _ _ _ _ => .read .called
  | write _ _ => .write .called

def LockingCall.Fits : LockingCall → LockingPhase → Prop
  | read _ _ _ _, .read _ => True
  | write _ _, .write _ => True
  | _, _ => False

def LockingCall.step (call : LockingCall) (k : Kernel) (p : LockingPhase) :
    Option (Kernel × LockingPhase) :=
  match call, p with
  | read env ubuf count fPos, .read p =>
      (readStep env ubuf count fPos k p).map fun r => (r.1, .read r.2)
  | write env buf, .write p =>
      (writeStep (fun _ => env) (fun _ => buf) () ⟨k, []⟩ p).map fun r => (r.1.kernel, .write r.2)
  | _, _ => none

structure LockedDriver (ι : Type) where
  kernel : Kernel
  locks : List ι
  unlocks : List ι

def LockedDriver.record {ι : Type} (s : LockedDriver ι) : LockRecord ι :=
  ⟨s.kernel.dev.mutex, s.locks, s.unlocks⟩

section Steps
variable {ι : Type} (calls : ι → LockingCall)

def lockingStep (i : ι) (s : LockedDriver ι) (p : LockingPhase) :
    Option (LockedDriver ι × LockingPhase) :=
  ((calls i).step s.kernel p).map fun r =>
    (⟨r.1, if p.locks then s.locks ++ [i] else s.locks,
      if p.unlocks then s.unlocks ++ [i] else s.unlocks⟩, r.2)

def LockedDriver.start (k : Kernel) : State ι (LockedDriver ι) LockingPhase :=
  ⟨⟨k, [], []⟩, fun i => (calls i).start⟩

/-- The mutex comes free by steps of the call alone, unless its locked region has no end. -/
def ComesFree [DecidableEq ι] (s : State ι (LockedDriver ι) LockingPhase) (i : ι) : Prop :=
  ∃ n s', run (lockingStep calls) s (List.replicate n i) = some s' ∧
    (s'.shared.kernel.dev.mutex = false ∨
      (s'.party i).enters = true ∧ act (lockingStep calls) s' i = none)

/-- The mutex at one moment. A call that has locked it more often than unlocked it holds it. -/
structure MutexKept [DecidableEq ι] (s : State ι (LockedDriver ι) LockingPhase) : Prop where
  one_holder : ∀ i j, s.shared.record.Holds i → s.shared.record.Holds j → i = j
  locked_iff : s.shared.kernel.dev.mutex = true ↔ ∃ i, s.shared.record.Holds i
  returned_free : ∀ i, (s.party i).isReturned = true → ¬ s.shared.record.Holds i
  unlocks_own : ∀ i s', act (lockingStep calls) s i = some s' →
    s'.shared.unlocks ≠ s.shared.unlocks → s.shared.record.Holds i
  locks_once : ∀ i, s.shared.locks.count i ≤ 1
  returned_even : ∀ i, (s.party i).isReturned = true →
    s.shared.unlocks.count i = s.shared.locks.count i
  /-- the `did not lock` returns are not taken -/
  test_passed : ∀ i s', act (lockingStep calls) s i = some s' → (s.party i).tests = true →
    (s'.party i).isReturned = false
  comes_free : ∀ i, s.shared.record.Holds i → ComesFree calls s i

end Steps

theorem writeSection_mutex {env : WriteEnv} {c : WriteCall} {k : Kernel}
    {r : Kernel × Option BufferEntry} (hsection : writeSection env c k = some r) :
    r.1.dev.mutex = k.dev.mutex := by
  obtain ⟨w, -, ⟨-, rfl⟩ | ⟨-, rfl⟩⟩ := writeSection_cases hsection
  · rfl
  · rfl

section Moves
variable {ι : Type} (i : ι) (locks unlocks : List ι)

theorem readStep_move {env : ReadEnv} {ubuf : List UInt8} {count : Nat} {fPos : Int} {k : Kernel}
    {p : ReadPhase} {r : Kernel × ReadPhase}
    (hheld : (LockingPhase.read p).stage = .holding → k.dev.mutex = true)
    (hstep : readStep env ubuf count fPos k p = some r) :
    LockMove i ⟨k.dev.mutex, locks, unlocks⟩ (LockingPhase.read p).stage
      ⟨r.1.dev.mutex, if (LockingPhase.read p).locks then locks ++ [i] else locks,
        if (LockingPhase.read p).unlocks then unlocks ++ [i] else unlocks⟩
      (LockingPhase.read r.2).stage := by
  cases p with
  | called =>
      cases hstep
      exact .keep _
  | prepared tmpBuf =>
      cases hstep
      cases k.dev.mutex
      · exact .keep _
      · exact .refuse
  | admitted tmpBuf =>
      cases hmutex : k.dev.mutex
      · rw [readStep, hmutex] at hstep
        cases hstep
        exact .acquire rfl
      · rw [readStep, hmutex] at hstep
        cases hstep
  | locked tmpBuf =>
      rw [readStep, hheld rfl] at hstep
      cases hstep
      exact .keep _
  | entered tmpBuf =>
      obtain ⟨⟨k', sec⟩, hsection, rfl⟩ := Option.map_eq_some_iff.mp hstep
      have hmutex : k'.dev.mutex = k.dev.mutex := by
        rw [(readSection_dev hsection).2]
      cases sec with
      | pastEnd =>
          rw [← hmutex]
          exact .keep _
      | copied pos byteOffset readCount =>
          rw [← hmutex]
          exact .keep _
  | pastEnd =>
      cases hstep
      exact .release
  | dismissed =>
      cases hstep
      exact .keep _
  | copied c =>
      cases hstep
      exact .release
  | released c =>
      cases hstep
      cases k.dev.mutex
      · exact .keep _
      · exact .keep _
  | checked c =>
      cases hstep
      have hmutex : (readReturn env k c count ubuf).kernel.dev.mutex = k.dev.mutex := by
        rw [readReturn]
        dsimp only
        split <;> rfl
      rw [hmutex]
      exact .keep _
  | returned fPos ret ubuf => cases hstep

theorem writeStep_move {env : Unit → WriteEnv} {buf : Unit → List UInt8} {k : Kernel}
    {p : WritePhase} {r : Driver Unit × WritePhase}
    (hheld : (LockingPhase.write p).stage = .holding → k.dev.mutex = true)
    (hstep : writeStep env buf () ⟨k, []⟩ p = some r) :
    LockMove i ⟨k.dev.mutex, locks, unlocks⟩ (LockingPhase.write p).stage
      ⟨r.1.kernel.dev.mutex, if (LockingPhase.write p).locks then locks ++ [i] else locks,
        if (LockingPhase.write p).unlocks then unlocks ++ [i] else unlocks⟩
      (LockingPhase.write r.2).stage := by
  cases p with
  | called =>
      cases hstep
      exact .keep _
  | prepared c =>
      cases hstep
      cases k.dev.mutex
      · exact .keep _
      · exact .refuse
  | admitted c =>
      cases hmutex : k.dev.mutex
      · rw [writeStep] at hstep
        rw [hmutex] at hstep
        cases hstep
        exact .acquire rfl
      · rw [writeStep] at hstep
        rw [hmutex] at hstep
        cases hstep
  | locked c =>
      rw [writeStep, hheld rfl] at hstep
      cases hstep
      exact .keep _
  | entered c =>
      obtain ⟨sec, hsection, rfl⟩ := Option.map_eq_some_iff.mp hstep
      rw [writeSection_mutex hsection]
      exact .keep _
  | written c =>
      cases hstep
      exact .release
  | released c =>
      cases hstep
      cases k.dev.mutex
      · exact .keep _
      · exact .keep _
  | checked c =>
      cases hstep
      exact .keep _
  | returned ret => cases hstep

end Moves

theorem disciplined {ι : Type} (calls : ι → LockingCall) :
    Disciplined (lockingStep calls) LockedDriver.record LockingPhase.stage := by
  intro i s p r hheld hstep
  obtain ⟨⟨k, p'⟩, hcall, rfl⟩ := Option.map_eq_some_iff.mp hstep
  cases hi : calls i with
  | read env ubuf count fPos =>
      rw [hi] at hcall
      cases p with
      | read p =>
          obtain ⟨r, hread, heq⟩ := Option.map_eq_some_iff.mp hcall
          cases heq
          exact readStep_move i s.locks s.unlocks hheld hread
      | write p => cases hcall
  | write env buf =>
      rw [hi] at hcall
      cases p with
      | read p => cases hcall
      | write p =>
          obtain ⟨r, hwrite, heq⟩ := Option.map_eq_some_iff.mp hcall
          cases heq
          exact writeStep_move i s.locks s.unlocks hheld hwrite

namespace LockingPhase
variable {p : LockingPhase}

theorem stage_of_returned (h : p.isReturned = true) : p.stage = .behind := by
  cases p with
  | read p => cases p <;> first | rfl | cases h
  | write p => cases p <;> first | rfl | cases h

theorem stage_eq_holding_iff :
    p.stage = .holding ↔ p.tests = true ∨ p.enters = true ∨ p.unlocks = true := by
  cases p with
  | read p => cases p <;> simp [stage, tests, enters, unlocks]
  | write p => cases p <;> simp [stage, tests, enters, unlocks]

end LockingPhase

namespace LockingCall
variable {call : LockingCall} {k : Kernel} {p : LockingPhase} {r : Kernel × LockingPhase}

theorem fits_step (hstep : call.step k p = some r) : call.Fits r.2 := by
  cases call with
  | read env ubuf count fPos =>
      cases p with
      | read p =>
          obtain ⟨_, -, rfl⟩ := Option.map_eq_some_iff.mp hstep
          trivial
      | write p => cases hstep
  | write env buf =>
      cases p with
      | read p => cases hstep
      | write p =>
          obtain ⟨_, -, rfl⟩ := Option.map_eq_some_iff.mp hstep
          trivial

theorem step_of_tests (hfits : call.Fits p) (hp : p.tests = true) (hk : k.dev.mutex = true) :
    ∃ p', call.step k p = some (k, p') ∧ p'.enters = true := by
  cases call with
  | read env ubuf count fPos =>
      cases p with
      | write p => cases hfits
      | read p =>
          cases p with
          | locked tmpBuf => exact ⟨_, by rw [step, readStep, hk]; rfl, rfl⟩
          | _ => cases hp
  | write env buf =>
      cases p with
      | read p => cases hfits
      | write p =>
          cases p with
          | locked c =>
              refine ⟨.write (.entered c), ?_, rfl⟩
              rw [step, writeStep]
              rw [hk]
              rfl
          | _ => cases hp

theorem unlocks_of_enters (hp : p.enters = true) (hstep : call.step k p = some r) :
    r.2.unlocks = true := by
  cases call with
  | read env ubuf count fPos =>
      cases p with
      | write p => cases hstep
      | read p =>
          cases p with
          | entered tmpBuf =>
              obtain ⟨_, hread, rfl⟩ := Option.map_eq_some_iff.mp hstep
              obtain ⟨⟨k', sec⟩, -, rfl⟩ := Option.map_eq_some_iff.mp hread
              cases sec with
              | pastEnd => rfl
              | copied pos byteOffset readCount => rfl
          | _ => cases hp
  | write env buf =>
      cases p with
      | read p => cases hstep
      | write p =>
          cases p with
          | entered c =>
              obtain ⟨_, hwrite, rfl⟩ := Option.map_eq_some_iff.mp hstep
              obtain ⟨sec, -, rfl⟩ := Option.map_eq_some_iff.mp hwrite
              rfl
          | _ => cases hp

theorem step_of_unlocks (hfits : call.Fits p) (hp : p.unlocks = true) :
    ∃ p', call.step k p = some (k.mutexUnlock, p') := by
  cases call with
  | read env ubuf count fPos =>
      cases p with
      | write p => cases hfits
      | read p =>
          cases p with
          | pastEnd => exact ⟨_, rfl⟩
          | copied c => exact ⟨_, rfl⟩
          | _ => cases hp
  | write env buf =>
      cases p with
      | read p => cases hfits
      | write p =>
          cases p with
          | written c => exact ⟨_, rfl⟩
          | _ => cases hp

end LockingCall

namespace ComesFree
variable {ι : Type} [DecidableEq ι] {calls : ι → LockingCall}
  {s t : State ι (LockedDriver ι) LockingPhase} {i : ι}

theorem of_act (hact : act (lockingStep calls) s i = some t) (h : ComesFree calls t i) :
    ComesFree calls s i := by
  obtain ⟨n, s', hrun, hend⟩ := h
  refine ⟨n + 1, s', ?_, hend⟩
  have hcons : run (lockingStep calls) s (List.replicate (n + 1) i) =
      (act (lockingStep calls) s i).bind fun t => run (lockingStep calls) t (List.replicate n i) :=
    rfl
  rw [hcons, hact, Option.bind_some, hrun]

theorem exists_act {r : Kernel × LockingPhase}
    (hstep : (calls i).step s.shared.kernel (s.party i) = some r) :
    ∃ t, act (lockingStep calls) s i = some t ∧ t.shared.kernel = r.1 ∧ t.party i = r.2 := by
  refine ⟨_, by rw [act, lockingStep, hstep]; rfl, rfl, ?_⟩
  exact Function.update_self i r.2 s.party

theorem of_unlocks (hfits : (calls i).Fits (s.party i)) (hp : (s.party i).unlocks = true) :
    ComesFree calls s i := by
  obtain ⟨p', hstep⟩ := LockingCall.step_of_unlocks (k := s.shared.kernel) hfits hp
  obtain ⟨t, hact, hkernel, -⟩ := exists_act hstep
  refine of_act hact ⟨0, t, rfl, Or.inl ?_⟩
  rw [hkernel]
  rfl

theorem of_enters (hp : (s.party i).enters = true) : ComesFree calls s i := by
  cases hstep : (calls i).step s.shared.kernel (s.party i) with
  | none => exact ⟨0, s, rfl, Or.inr ⟨hp, by rw [act, lockingStep, hstep]; rfl⟩⟩
  | some r =>
      obtain ⟨t, hact, -, hparty⟩ := exists_act hstep
      refine of_act hact (of_unlocks ?_ ?_)
      · rw [hparty]
        exact LockingCall.fits_step hstep
      · rw [hparty]
        exact LockingCall.unlocks_of_enters hp hstep

theorem of_tests (hfits : (calls i).Fits (s.party i)) (hp : (s.party i).tests = true)
    (hlocked : s.shared.kernel.dev.mutex = true) : ComesFree calls s i := by
  obtain ⟨p', hstep, henters⟩ := LockingCall.step_of_tests hfits hp hlocked
  obtain ⟨t, hact, -, hparty⟩ := exists_act hstep
  refine of_act hact (of_enters ?_)
  rw [hparty]
  exact henters

end ComesFree

section Reachable
variable {ι : Type} [DecidableEq ι] (calls : ι → LockingCall) {k : Kernel}
  {s : State ι (LockedDriver ι) LockingPhase}

theorem fits_run (schedule : List ι)
    (hrun : run (lockingStep calls) (LockedDriver.start calls k) schedule = some s) :
    ∀ i, (calls i).Fits (s.party i) := by
  refine run_invariant (fun s j s' (hfits : ∀ i, (calls i).Fits (s.party i)) hact => ?_)
    (fun i => ?_) schedule hrun
  · obtain ⟨shared, l, hstep, rfl⟩ := act_eq_some hact
    obtain ⟨r, hcall, heq⟩ := Option.map_eq_some_iff.mp hstep
    cases heq
    exact (Function.forall_update_iff s.party fun i p => (calls i).Fits p).mpr
      ⟨LockingCall.fits_step hcall, fun i _ => hfits i⟩
  · dsimp only [LockedDriver.start]
    cases calls i <;> trivial

theorem MutexKept.of_usesLock (u : UsesLock s.shared.record fun i => (s.party i).stage)
    (hfits : ∀ i, (calls i).Fits (s.party i)) : MutexKept calls s where
  one_holder i j hi hj := u.exclusive.unique i j ((u.holds_iff i).mp hi) ((u.holds_iff j).mp hj)
  locked_iff := u.exclusive.locked_iff.trans (exists_congr fun i => (u.holds_iff i).symm)
  returned_free i hret hi := by
    have hholding := (u.holds_iff i).mp hi
    rw [LockingPhase.stage_of_returned hret] at hholding
    cases hholding
  unlocks_own i s' hact hne := by
    obtain ⟨shared, l, hstep, rfl⟩ := act_eq_some hact
    obtain ⟨r, -, heq⟩ := Option.map_eq_some_iff.mp hstep
    cases heq
    refine (u.holds_iff i).mpr (LockingPhase.stage_eq_holding_iff.mpr (Or.inr (Or.inr ?_)))
    by_contra hnot
    exact hne (if_neg hnot)
  locks_once := u.locks_le_one
  returned_even i hret := u.unlocks_eq_of_behind (LockingPhase.stage_of_returned hret)
  test_passed i s' hact hp := by
    have hlocked := u.locked_of_holding (LockingPhase.stage_eq_holding_iff.mpr (Or.inl hp))
    obtain ⟨p', hcall, henters⟩ := LockingCall.step_of_tests (hfits i) hp hlocked
    obtain ⟨t, hact', -, hparty⟩ := ComesFree.exists_act hcall
    rw [hact, Option.some.injEq] at hact'
    rw [hact', hparty]
    by_contra hret
    have hholding := LockingPhase.stage_eq_holding_iff.mpr (Or.inr (Or.inl henters))
    rw [LockingPhase.stage_of_returned (Bool.of_not_eq_false hret)] at hholding
    cases hholding
  comes_free i hi := by
    have hholding := (u.holds_iff i).mp hi
    rcases LockingPhase.stage_eq_holding_iff.mp hholding with hp | hp | hp
    · exact .of_tests (hfits i) hp (u.locked_of_holding hholding)
    · exact .of_enters hp
    · exact .of_unlocks (hfits i) hp

/-- In every reachable state the mutex has at most one holder, and that call goes on to free it. -/
theorem mutexKept_of_run (hfree : k.dev.mutex = false) (schedule : List ι)
    (hrun : run (lockingStep calls) (LockedDriver.start calls k) schedule = some s) :
    MutexKept calls s := by
  refine .of_usesLock calls (run_usesLock (disciplined calls) ?_ schedule hrun)
    (fits_run calls schedule hrun)
  have hrecord : (LockedDriver.start calls k).shared.record = ⟨false, [], []⟩ := by
    rw [← hfree]
    rfl
  rw [hrecord]
  refine .start fun i => ?_
  dsimp only [LockedDriver.start]
  cases calls i <;> rfl

end Reachable

def readAndWrite : Bool → LockingCall
  | false => .read (ReadCall.zeroed 4).env [] 4 0
  | true => .write .zeroed [97, 10]

theorem mutexKept_readAndWrite :
    ∃ s, run (lockingStep readAndWrite) (LockedDriver.start readAndWrite
      (initModule CircularBuffer.init.entry .zeroed)) [false, false, true, true, true, true] = some s ∧
      s.shared.kernel.dev.mutex = true ∧ MutexKept readAndWrite s := by
  have hend : (run (lockingStep readAndWrite) (LockedDriver.start readAndWrite
      (initModule CircularBuffer.init.entry .zeroed)) [false, false, true, true, true, true]).map
      (fun s => s.shared.kernel.dev.mutex) = some true := by decide +kernel
  obtain ⟨s, hrun, hlocked⟩ := Option.map_eq_some_iff.mp hend
  exact ⟨s, hrun, hlocked, mutexKept_of_run readAndWrite rfl _ hrun⟩

end Aesd

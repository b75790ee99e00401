import Aesd.Lib.Interleaving
import Aesd.LineFraming

/-! `aesd_flush` and `aesd_adjust_file_offset` as steps that other calls can come between. Neither
takes the mutex, so that every `kfree`, every slot added up and every assignment is a step of its
own. A write is what it does before it looks at the lock, then the rest with the locked region; a
read changes nothing outside its locked region but blocks of its own and is one step. A party is
one call. -/
namespace Aesd
open FixedWidth Memory Interleaving

/-- A call through `aesd_fops`. -/
inductive FopsCall
  | flush
  | seekto (target : AesdSeekto)
  | read (env : ReadEnv) (ubuf : List UInt8) (count : Nat) (fPos : Int)
  | write (env : WriteEnv) (buf : List UInt8)

/-- Where a call is: `freeing` in the loop of a flush, `resetting` before the assignment that
follows the `made` first ones; `summing` in the loop of a seek command, `summed` before its first
assignment, `positioned` before its second, `sought` behind it; `prepared` before the lock of a
write. -/
inductive CallPhase
  | called
  | freeing (index : Nat)
  | resetting (made : Nat)
  | summing (i : Nat) (newPos : Int)
  | summed (newPos : Int)
  | positioned (newPos : Int)
  | sought
  | prepared (c : WriteCall)
  | returned
  deriving DecidableEq

def freeSlot (b : CircularBuffer) (index : Nat) (h : Heap) : Heap :=
  if index < b.inOffs then h.free (b.slot index).buffptr else h

def flushAssignments : Nat := 8

/-- The assignments of `aesd_flush`, in the order of the source. -/
def AesdDev.assign (d : AesdDev) : Nat → AesdDev
  | 0 => { d with partialEntry := { d.partialEntry with size := 0 } }
  | 1 => { d with isPartial := false }
  | 2 => { d with seektoPosition := 0 }
  | 3 => { d with seek := false }
  | 4 => { d with buffer := { d.buffer with full := false } }
  | 5 => { d with buffer := { d.buffer with inOffs := 0 } }
  | 6 => { d with buffer := { d.buffer with outOffs := 0 } }
  | _ => { d with buffer := { d.buffer with totalSize := 0 } }

theorem aesdFlush_eq (k : Kernel) : (aesdFlush k).1 =
    ⟨(List.range' 0 flushAssignments).foldl AesdDev.assign k.dev,
      rounds (freeSlot k.dev.buffer) maxWriteOperationsSupported k.heap⟩ := by
  have hheap : (aesdFlush k).1.heap =
      rounds (freeSlot k.dev.buffer) maxWriteOperationsSupported k.heap := by
    have hbody : freeSlot k.dev.buffer = fun index h =>
        if index < k.dev.buffer.inOffs then h.free (k.dev.buffer.slot index).buffptr else h := rfl
    rw [hbody, aesdFlush]
  exact congrArg₂ Kernel.mk rfl hheap

def writeRest (env : WriteEnv) (c : WriteCall) (k : Kernel) : Option WriteResult :=
  if k.dev.mutex then some ⟨k, -ENOMEM, none⟩
  else
    let k := k.mutexLock
    if !k.dev.mutex then some ⟨k, -ENOMEM, none⟩
    else do
      let s ← writeSection env c k
      some (writeEpilog c s.1.mutexUnlock s.2)

theorem aesdWrite_eq_writeRest (env : WriteEnv) (k : Kernel) (buf : List UInt8) :
    aesdWrite env k buf = writeRest env (writeProlog env k buf).1 (writeProlog env k buf).2 := rfl

theorem writeRest_of_unlocked (env : WriteEnv) (c : WriteCall) {k : Kernel}
    (hunlocked : k.dev.mutex = false) :
    writeRest env c k = (writeSection env c k.mutexLock).map fun s =>
      ⟨{ dev := s.1.mutexUnlock.dev, heap := s.1.heap.free c.tmp }, toSsize c.count, s.2⟩ := by
  simp only [writeRest, hunlocked, Kernel.mutexLock, Bool.not_true, Bool.false_eq_true, if_false]
  cases writeSection env c _ with
  | none => rfl
  | some s => simp [writeEpilog, Kernel.mutexUnlock]

namespace FopsCall

/-- One step of a call. -/
def step (k : Kernel) : FopsCall → CallPhase → Option (Kernel × CallPhase)
  | flush, .called => some (k, .freeing 0)
  | flush, .freeing index =>
      if index < maxWriteOperationsSupported then
        some ({ k with heap := freeSlot k.dev.buffer index k.heap }, .freeing (index + 1))
      else some (k, .resetting 0)
  | flush, .resetting made =>
      some ({ k with dev := k.dev.assign made },
        if made + 1 < flushAssignments then .resetting (made + 1) else .returned)
  | seekto _, .called => some (k, .summing 0 0)
  | seekto target, .summing i newPos =>
      if i < target.writeCmd then
        some ({ k with
          heap := { k.heap with
            fault := k.heap.fault || decide (maxWriteOperationsSupported ≤ i) } },
          .summing (i + 1) (toSsize (newPos + k.dev.sizeAt i)))
      else some (k, .summed (toSsize (newPos + target.writeCmdOffset)))
  | seekto _, .summed newPos =>
      some ({ k with dev := { k.dev with seektoPosition := newPos } }, .positioned newPos)
  | seekto _, .positioned _ => some ({ k with dev := { k.dev with seek := true } }, .sought)
  | read env ubuf count fPos, .called =>
      (aesdRead env k ubuf count fPos).map fun res => (res.kernel, .returned)
  | write env buf, .called =>
      let p := writeProlog env k buf
      some (p.2, .prepared p.1)
  | write env _, .prepared c => (writeRest env c k).map fun res => (res.kernel, .returned)
  | _, _ => none

def apply (k : Kernel) : FopsCall → Option Kernel
  | flush => some (aesdFlush k).1
  | seekto target => some (adjustFileOffset k target).1
  | read env ubuf count fPos => (aesdRead env k ubuf count fPos).map ReadResult.kernel
  | write env buf => (aesdWrite env k buf).map WriteResult.kernel

end FopsCall

def callsStart (ι : Type) (k : Kernel) : State ι Kernel CallPhase := ⟨k, fun _ => .called⟩

def CallPhase.Done : CallPhase → Prop
  | sought => True
  | returned => True
  | _ => False

section Alone
variable {ι : Type} (call : ι → FopsCall) (i : ι)

theorem alone_step (n : Nat) (k : Kernel) (phase : CallPhase) :
    alone (fun j k => (call j).step k) i (n + 1) (k, phase) =
      ((call i).step k phase).bind (alone (fun j k => (call j).step k) i n) := rfl

theorem alone_freeing (hcall : call i = .flush) (todo m n : Nat)
    (hm : m + todo = maxWriteOperationsSupported) (k : Kernel) :
    alone (fun j k => (call j).step k) i (todo + n)
      ({ k with heap := rounds (freeSlot k.dev.buffer) m k.heap }, .freeing m) =
    alone (fun j k => (call j).step k) i n
      ({ k with heap := rounds (freeSlot k.dev.buffer) maxWriteOperationsSupported k.heap },
        .freeing maxWriteOperationsSupported) := by
  induction todo generalizing m with
  | zero => rw [Nat.zero_add, ← hm, Nat.add_zero]
  | succ todo ih =>
      have hlt : m < maxWriteOperationsSupported := by omega
      rw [← ih (m + 1) (by omega), Nat.add_right_comm, alone_step, hcall]
      simp only [FopsCall.step, if_pos hlt, Option.bind_some]
      rfl

theorem alone_resetting (hcall : call i = .flush) (todo made : Nat)
    (hmade : made + todo + 1 = flushAssignments) (k : Kernel) :
    alone (fun j k => (call j).step k) i (todo + 1) (k, .resetting made) =
      some ({ k with dev := (List.range' made (todo + 1)).foldl AesdDev.assign k.dev },
        .returned) := by
  induction todo generalizing made k with
  | zero =>
      rw [alone_step, hcall, FopsCall.step, if_neg (by omega)]
      rfl
  | succ todo ih =>
      have hlt : made + 1 < flushAssignments := by omega
      rw [alone_step, hcall, FopsCall.step, if_pos hlt, Option.bind_some,
        ih (made + 1) (by omega)]
      rfl

theorem alone_aesdFlush (hcall : call i = .flush) (k : Kernel) :
    alone (fun j k => (call j).step k) i (maxWriteOperationsSupported + 9 + 1) (k, .called) =
      some ((aesdFlush k).1, .returned) := by
  have hloop := alone_freeing call i hcall maxWriteOperationsSupported 0 9 (Nat.zero_add _) k
  have hlast := alone_resetting call i hcall 7 0 rfl
    { k with heap := rounds (freeSlot k.dev.buffer) maxWriteOperationsSupported k.heap }
  rw [rounds] at hloop
  rw [alone_step, hcall, FopsCall.step, Option.bind_some, hloop, alone_step, hcall, FopsCall.step,
    if_neg (Nat.lt_irrefl _), Option.bind_some, hlast, aesdFlush_eq]
  rfl

theorem alone_summing {target : AesdSeekto} (hcall : call i = .seekto target) (todo m n : Nat)
    (hm : m + todo = target.writeCmd) (k : Kernel) :
    alone (fun j k => (call j).step k) i (todo + n)
      ({ k with heap := { k.heap with
          fault := k.heap.fault || decide (maxWriteOperationsSupported < m) } },
        .summing m (rounds (fun i pos => toSsize (pos + k.dev.sizeAt i)) m 0)) =
    alone (fun j k => (call j).step k) i n
      ({ k with heap := { k.heap with
          fault := k.heap.fault || decide (maxWriteOperationsSupported < target.writeCmd) } },
        .summing target.writeCmd (rounds (fun i pos =>
          toSsize (pos + k.dev.sizeAt i)) target.writeCmd 0)) := by
  induction todo generalizing m with
  | zero => rw [Nat.zero_add, ← hm, Nat.add_zero]
  | succ todo ih =>
      have hlt : m < target.writeCmd := by omega
      have hfault : (k.heap.fault || decide (maxWriteOperationsSupported < m) ||
          decide (maxWriteOperationsSupported ≤ m)) =
          (k.heap.fault || decide (maxWriteOperationsSupported < m + 1)) := by
        rw [Bool.or_assoc, ← Bool.decide_or]
        congr 2
        exact propext (by omega)
      rw [← ih (m + 1) (by omega), Nat.add_right_comm, alone_step, hcall]
      simp only [FopsCall.step, if_pos hlt, Option.bind_some, hfault]
      rfl

theorem alone_adjustFileOffset {target : AesdSeekto} (hcall : call i = .seekto target)
    (k : Kernel) :
    alone (fun j k => (call j).step k) i (target.writeCmd + 3 + 1) (k, .called) =
      some ((adjustFileOffset k target).1, .sought) := by
  have hloop := alone_summing call i hcall target.writeCmd 0 3 (Nat.zero_add _) k
  have hstart : (k.heap.fault || decide (maxWriteOperationsSupported < 0)) = k.heap.fault := by
    simp
  rw [hstart] at hloop
  rw [alone_step, hcall]
  simp only [FopsCall.step, Option.bind_some]
  refine hloop.trans ?_
  simp only [alone_step, hcall, FopsCall.step, if_neg (Nat.lt_irrefl _), Option.bind_some]
  rfl

/-- A call that no other one comes between does what the function of the source does. -/
theorem run_apply [DecidableEq ι] {k k' : Kernel} (happly : (call i).apply k = some k') :
    ∃ n s, run (fun j k => (call j).step k) (callsStart ι k) (List.replicate n i) = some s ∧
      s.shared = k' ∧ (s.party i).Done := by
  have halone : ∃ n phase, alone (fun j k => (call j).step k) i n (k, .called) =
      some (k', phase) ∧ phase.Done := by
    cases hcall : call i with
    | flush =>
        rw [hcall, FopsCall.apply, Option.some.injEq] at happly
        exact ⟨_, .returned, happly ▸ alone_aesdFlush call i hcall k, trivial⟩
    | seekto target =>
        rw [hcall, FopsCall.apply, Option.some.injEq] at happly
        exact ⟨_, .sought, happly ▸ alone_adjustFileOffset call i hcall k, trivial⟩
    | read env ubuf count fPos =>
        rw [hcall, FopsCall.apply] at happly
        obtain ⟨res, hread, rfl⟩ := Option.map_eq_some_iff.mp happly
        refine ⟨1, .returned, ?_, trivial⟩
        rw [alone_step, hcall, FopsCall.step, hread]
        rfl
    | write env buf =>
        rw [hcall, FopsCall.apply, aesdWrite_eq_writeRest] at happly
        obtain ⟨res, hwrite, rfl⟩ := Option.map_eq_some_iff.mp happly
        refine ⟨2, .returned, ?_, trivial⟩
        rw [alone_step, hcall, FopsCall.step, Option.bind_some, alone_step, hcall,
          FopsCall.step, hwrite]
        rfl
  obtain ⟨n, phase, halone, hdone⟩ := halone
  have hrun := run_replicate (fun j k => (call j).step k) i n k (fun _ => .called) .called
  rw [Function.update_eq_self_iff.mpr rfl, halone] at hrun
  exact ⟨n, _, hrun, rfl, by simpa using hdone⟩

end Alone
end Aesd

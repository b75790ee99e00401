import Aesd.Lib.Interleaving
import Aesd.LineFraming

/-! `aesd_write` as steps that other calls can come between. A party is one call, with its
buffer and the outcomes of its kernel calls; a client that calls again, or tries again,
is another party. What a call does before it looks at the lock touches no shared data
but `partial_entry->size` and is one step, the locked region is one step, and so is
every test, taking and release of the mutex. -/
namespace Aesd
open FixedWidth Memory Interleaving

/-- Where a call is: `prepared` before the first test of the mutex, `admitted` before
`mutex_lock`, `locked` before the second test, `entered` before the locked region,
`written` behind it, `released` before the last test, `checked` before the return. -/
inductive WritePhase
  | called
  | prepared (c : WriteCall)
  | admitted (c : WriteCall)
  | locked (c : WriteCall)
  | entered (c : WriteCall)
  | written (c : WriteCall)
  | released (c : WriteCall)
  | checked (c : WriteCall)
  | returned (ret : Int)
  deriving DecidableEq

structure Driver (ι : Type) where
  kernel : Kernel
  log : List ι

section Steps
variable {ι : Type} (env : ι → WriteEnv) (buf : ι → List UInt8)

/-- `mutex_lock` waits while the mutex is locked; a locked region that hangs has no end. -/
def writeStep (i : ι) (s : Driver ι) : WritePhase → Option (Driver ι × WritePhase)
  | .called =>
      let p := writeProlog (env i) s.kernel (buf i)
      some (⟨p.2, s.log⟩, .prepared p.1)
  | .prepared c => some (s, if s.kernel.dev.mutex then .returned (-ENOMEM) else .admitted c)
  | .admitted c =>
      if s.kernel.dev.mutex then none else some (⟨s.kernel.mutexLock, s.log⟩, .locked c)
  | .locked c => some (s, if s.kernel.dev.mutex then .entered c else .returned (-ENOMEM))
  | .entered c =>
      (writeSection (env i) c s.kernel).map fun r => (⟨r.1, s.log ++ [i]⟩, .written c)
  | .written c => some (⟨s.kernel.mutexUnlock, s.log⟩, .released c)
  | .released c => some (s, if s.kernel.dev.mutex then .returned (-ENOMEM) else .checked c)
  | .checked c =>
      some (⟨{ s.kernel with heap := s.kernel.heap.free c.tmp }, s.log⟩,
        .returned (toSsize c.count))
  | .returned _ => none

def Driver.start (k : Kernel) : State ι (Driver ι) WritePhase := ⟨⟨k, []⟩, fun _ => .called⟩

end Steps

namespace WritePhase

def Holds : WritePhase → Prop
  | locked _ => True
  | entered _ => True
  | written _ => True
  | _ => False

def ready : WritePhase → Option WriteCall
  | prepared c => some c
  | admitted c => some c
  | locked c => some c
  | entered c => some c
  | _ => none

end WritePhase

theorem alone_aesdWrite {ι : Type} [DecidableEq ι] (env : ι → WriteEnv) (buf : ι → List UInt8)
    (i : ι) {k : Kernel} {res : WriteResult} (hcall : aesdWrite (env i) k (buf i) = some res) :
    ∃ n log, alone (writeStep env buf) i n (⟨k, []⟩, .called) =
      some (⟨res.kernel, log⟩, .returned res.ret) := by
  cases hlock : k.dev.mutex
  · have hfree : (writeProlog (env i) k (buf i)).2.dev.mutex = false := hlock
    have hlocked : (writeProlog (env i) k (buf i)).2.mutexLock.dev.mutex = true := rfl
    rw [aesdWrite_of_unlocked _ _ hlock] at hcall
    obtain ⟨r, hsection, rfl⟩ := Option.map_eq_some_iff.mp hcall
    have hreleased : r.1.mutexUnlock.dev.mutex = false := rfl
    refine ⟨8, [i], ?_⟩
    simp only [alone, writeStep, hfree, hlocked, hsection, hreleased, Bool.false_eq_true, if_true,
      if_false, Option.bind_some, Option.map_some, List.nil_append]
    rfl
  · have hbusy : (writeProlog (env i) k (buf i)).2.dev.mutex = true := hlock
    have hres : res = ⟨(writeProlog (env i) k (buf i)).2, -ENOMEM, none⟩ := by
      simpa [aesdWrite, hbusy] using hcall.symm
    subst hres
    exact ⟨2, [], by simp [alone, writeStep, hbusy]⟩

/-- A call that no other one comes between is `aesd_write`. -/
theorem run_aesdWrite {ι : Type} [DecidableEq ι] (env : ι → WriteEnv) (buf : ι → List UInt8)
    (i : ι) {k : Kernel} {res : WriteResult} (hcall : aesdWrite (env i) k (buf i) = some res) :
    ∃ n s, run (writeStep env buf) (Driver.start k) (List.replicate n i) = some s ∧
      s.shared.kernel = res.kernel ∧ s.party i = .returned res.ret := by
  obtain ⟨n, log, halone⟩ := alone_aesdWrite env buf i hcall
  have hrun := run_replicate (writeStep env buf) i n ⟨k, []⟩ (fun _ => .called) .called
  rw [Function.update_eq_self_iff.mpr rfl, halone] at hrun
  exact ⟨n, _, hrun, rfl, by simp⟩

end Aesd

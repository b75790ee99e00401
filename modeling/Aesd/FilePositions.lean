import Aesd.DeviceRuns
import Aesd.ReadDelivery

/-! Where reads start when several files are open on the device. Every file has a position of
its own, which its reads and `llseek` calls move; a seek command is kept in the device and
taken by the next read of any file that gets past the end-of-data test. -/
namespace Aesd
open FixedWidth Memory

structure OpenFiles (F : Type) where
  kernel : Kernel
  fPos : F → Int

inductive FileOp (F : Type)
  | read (file : F) (env : ReadEnv) (ubuf : List UInt8) (count : Nat)
  | llseek (file : F) (offset whence : Int)
  | seekto (file : F) (target : AesdSeekto)

inductive FileEvent (F : Type)
  | read (file : F) (passed : Bool) (stop : Int)
  | llseek (file : F) (ret : Int)
  | seekto (file : F) (position : Int)

section Files
variable {F : Type} [DecidableEq F] (generic : GenericFileLlseekSize)

namespace FileOp

def apply (s : OpenFiles F) : FileOp F → Option (OpenFiles F × FileEvent F)
  | read file env ubuf count => (aesdRead env s.kernel ubuf count (s.fPos file)).map fun res =>
      (⟨res.kernel, Function.update s.fPos file res.fPos⟩,
        .read file (decide (s.fPos file < s.kernel.dev.buffer.totalSize)) res.fPos)
  | llseek file offset whence =>
      let r := aesdLlseek generic s.kernel (s.fPos file) offset whence
      some (⟨s.kernel, Function.update s.fPos file r.2⟩, .llseek file r.1)
  | seekto file target =>
      let r := aesdIoctl s.kernel iocSeekto (some target)
      some (⟨r.1, s.fPos⟩, .seekto file r.1.dev.seektoPosition)

def run (k : Kernel) (ops : List (FileOp F)) : Option (OpenFiles F × List (FileEvent F)) :=
  ops.foldlM (fun s op => (apply generic s.1 op).map fun r => (r.1, s.2 ++ [r.2]))
    (⟨k, fun _ => 0⟩, [])

theorem run_append_singleton (k : Kernel) (ops : List (FileOp F)) (op : FileOp F) :
    run generic k (ops ++ [op]) = (run generic k ops).bind fun s =>
      (apply generic s.1 op).map fun r => (r.1, s.2 ++ [r.2]) := by
  simp [run]

end FileOp

/-- A file's own position: where its last successful `llseek` or its last read left it. -/
def ownPosition (file : F) (events : List (FileEvent F)) : Int :=
  events.foldl (fun pos event => match event with
    | .read f _ stop => if f = file then stop else pos
    | .llseek f ret => if f = file ∧ 0 ≤ ret then ret else pos
    | .seekto _ _ => pos) 0

/-- The most recent seek command, on whichever file, that no read has taken. -/
def pendingSeek (events : List (FileEvent F)) : Option Int :=
  events.foldl (fun pending event => match event with
    | .read _ passed _ => if passed then none else pending
    | .llseek _ _ => pending
    | .seekto _ position => some position) none

omit [DecidableEq F] in
@[simp] theorem pendingSeek_append (events : List (FileEvent F)) (event : FileEvent F) :
    pendingSeek (events ++ [event]) = match event with
      | .read _ passed _ => if passed then none else pendingSeek events
      | .llseek _ _ => pendingSeek events
      | .seekto _ position => some position := by
  simp [pendingSeek]

@[simp] theorem ownPosition_append (file : F) (events : List (FileEvent F)) (event : FileEvent F) :
    ownPosition file (events ++ [event]) = match event with
      | .read f _ stop => if f = file then stop else ownPosition file events
      | .llseek f ret => if f = file ∧ 0 ≤ ret then ret else ownPosition file events
      | .seekto _ _ => ownPosition file events := by
  simp [ownPosition]

structure Tracks (s : OpenFiles F) (events : List (FileEvent F)) : Prop where
  unlocked : s.kernel.dev.mutex = false
  pending : (if s.kernel.dev.seek then some s.kernel.dev.seektoPosition else none) =
    pendingSeek events
  own : ∀ file, s.fPos file = ownPosition file events

variable {generic}

theorem Tracks.readPosition {s : OpenFiles F} {events : List (FileEvent F)} (t : Tracks s events)
    (file : F) : readPosition s.kernel.dev (s.fPos file) =
      (pendingSeek events).getD (ownPosition file events) := by
  rw [Aesd.readPosition, ← t.pending, t.own]
  split <;> rfl

theorem Tracks.apply {s s' : OpenFiles F} {events : List (FileEvent F)} {op : FileOp F}
    {event : FileEvent F} (t : Tracks s events)
    (happly : FileOp.apply generic s op = some (s', event)) : Tracks s' (events ++ [event]) := by
  cases op with
  | read file env ubuf count =>
      obtain ⟨res, hcall, heq⟩ := Option.map_eq_some_iff.mp happly
      cases heq
      obtain ⟨-, hdev⟩ := aesdRead_dev t.unlocked hcall
      refine ⟨by rw [hdev]; exact t.unlocked, ?_, fun f => ?_⟩
      · have hpending := t.pending
        rw [hdev, pendingSeek_append]
        dsimp only
        by_cases hin : s.fPos file < s.kernel.dev.buffer.totalSize
        · rw [decide_eq_true hin, decide_eq_false (by omega), Bool.and_false]
          rfl
        · rw [decide_eq_false hin, decide_eq_true (by omega), Bool.and_true]
          exact hpending
      · rw [ownPosition_append]
        dsimp only
        rw [Function.update_apply, t.own]
        simp only [eq_comm]
  | llseek file offset whence =>
      cases happly
      refine ⟨t.unlocked, by rw [pendingSeek_append]; exact t.pending, fun f => ?_⟩
      rw [ownPosition_append]
      dsimp only
      rw [Function.update_apply]
      by_cases hf : f = file
      · subst hf
        simp only [if_true, true_and]
        unfold aesdLlseek
        split
        · dsimp only
          rw [t.own]
        · rw [if_neg (by simp [EINVAL]), t.own]
      · rw [if_neg hf, if_neg (fun h => hf h.1.symm), t.own]
  | seekto file target =>
      cases happly
      exact ⟨t.unlocked, by rw [pendingSeek_append]; rfl, fun f => by
        rw [ownPosition_append]; exact t.own f⟩

end Files
end Aesd

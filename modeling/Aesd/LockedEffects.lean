import Aesd.ControlEffects
import Aesd.MutexUse
import Aesd.ReadContents

/-! What each step of interleaved reads and writes does to the contents of the device. The blocks that a
call has yet to copy from or to are its own: the device does not refer to them, and only the steps
of that call change what they contain. -/
namespace Aesd
open FixedWidth Memory Interleaving

def LockingCall.fops : LockingCall → FopsCall
  | read env ubuf count fPos => .read env ubuf count fPos
  | write env buf => .write env buf

def ReadPhase.block : ReadPhase → Option Nat
  | prepared tmpBuf => some tmpBuf
  | admitted tmpBuf => some tmpBuf
  | locked tmpBuf => some tmpBuf
  | entered tmpBuf => some tmpBuf
  | copied c => some c.tmpBuf
  | released c => some c.tmpBuf
  | checked c => some c.tmpBuf
  | _ => none

def LockingPhase.Owns : LockingPhase → Nat → Prop
  | read p, q => p.block = some q
  | write p, q => ∃ c, p.ready = some c ∧ (q = c.data ∨ q = c.tmp)

/-- One step: only the locked region changes the contents, and a block changes only by a step of the
call that owns it. -/
structure LockEffect (call : LockingCall) (k : Kernel) (p : LockingPhase) (k' : Kernel)
    (p' : LockingPhase) : Prop where
  placed : Placed k'.mutexUnlock
  contents : k'.contents = if p.enters then call.fops.act k.contents else k.contents
  next_le : k.heap.next ≤ k'.heap.next
  load : ∀ q < k.heap.next, ¬ p.Owns q → ∀ j, k'.heap.load q j = k.heap.load q j
  pointsAt : ∀ q, PointsAt k'.dev q → PointsAt k.dev q ∨ p.Owns q
  owns : ∀ q, p'.Owns q → q < k'.heap.next ∧ ¬ PointsAt k'.dev q ∧ (p.Owns q ∨ k.heap.next ≤ q)

section Step
variable {call : LockingCall} {k k' : Kernel} {p p' : LockingPhase}

theorem LockEffect.of_retains (pl : Placed k.mutexUnlock) (hp : p.enters = false)
    (howned : ∀ q, p.Owns q → q < k.heap.next ∧ ¬ PointsAt k.dev q)
    (hdev : k'.mutexUnlock.dev = k.mutexUnlock.dev) (r : k.heap.Retains k'.heap)
    (hp' : ∀ q, p'.Owns q → p.Owns q ∨ k.heap.next ≤ q ∧ q < k'.heap.next) :
    LockEffect call k p k' p' := by
  have hpoints : ∀ q, PointsAt k'.dev q ↔ PointsAt k.dev q := by
    intro q
    have hsame : PointsAt k'.mutexUnlock.dev q ↔ PointsAt k.mutexUnlock.dev q := by rw [hdev]
    exact hsame
  refine ⟨pl.of_next_le k.dev.seek hdev r.next_le, ?_, r.next_le, fun q hq _ => r.load q hq,
    fun q hq => Or.inl ((hpoints q).mp hq), fun q hq => ?_⟩
  · rw [hp, if_neg Bool.false_ne_true]
    have hsame : k'.mutexUnlock.contents = k.mutexUnlock.contents :=
      pl.contents_of_retains hdev r
    exact hsame
  · rw [hpoints]
    rcases hp' q hq with hold | ⟨hge, hlt⟩
    · exact ⟨(howned q hold).1.trans_le r.next_le, (howned q hold).2, Or.inl hold⟩
    · refine ⟨hlt, fun hq => ?_, Or.inr hge⟩
      exact absurd (pl.pointsAt_lt hq) (Nat.not_lt.mpr hge)

theorem LockEffect.read (pl : Placed k.mutexUnlock) {env : ReadEnv} {ubuf : List UInt8}
    {count : Nat} {fPos : Int} (hv : (FopsCall.read env ubuf count fPos).Valid) {p : ReadPhase}
    (howned : ∀ q, (LockingPhase.read p).Owns q → q < k.heap.next ∧ ¬ PointsAt k.dev q)
    {r : Kernel × ReadPhase} (hstep : readStep env ubuf count fPos k p = some r) :
    LockEffect (.read env ubuf count fPos) k (.read p) r.1 (.read r.2) := by
  obtain ⟨ha, hcount, h0⟩ := hv
  cases p with
  | called =>
      obtain ⟨init, hinit⟩ := Option.isSome_iff_exists.mp ha.tmpBuf
      cases hstep
      refine .of_retains pl rfl howned rfl ?_ fun q hq => Or.inr ?_
      · rw [hinit]
        exact .of_extends ((Heap.Extends.refl _).alloc _ _)
      · obtain rfl := Option.some.inj hq
        rw [hinit]
        exact ⟨Nat.le_refl _, Nat.lt_succ_self _⟩
  | prepared tmpBuf =>
      cases hstep
      refine .of_retains pl rfl howned rfl (.refl _) fun q hq => Or.inl ?_
      cases hmutex : k.dev.mutex <;> rw [hmutex] at hq
      · exact hq
      · cases hq
  | admitted tmpBuf =>
      rw [readStep] at hstep
      split at hstep
      · cases hstep
      · cases hstep
        exact .of_retains pl rfl howned rfl (.refl _) fun q hq => Or.inl hq
  | locked tmpBuf =>
      cases hstep
      refine .of_retains pl rfl howned rfl (.refl _) fun q hq => Or.inl ?_
      cases hmutex : k.dev.mutex <;> rw [hmutex] at hq
      · cases hq
      · exact hq
  | entered tmpBuf =>
      obtain ⟨hdata, hapart⟩ := howned tmpBuf rfl
      by_cases hin : fPos < k.dev.buffer.totalSize
      · obtain ⟨index, off, heap, byteOffset, -, hsection, hnext, hload, -⟩ :=
          readSection_answers pl ha hcount h0 hin hdata hapart
        rw [readStep, hsection] at hstep
        cases hstep
        have hpoints : ∀ q, PointsAt { k.dev with seek := false } q ↔ PointsAt k.dev q :=
          fun _ => Iff.rfl
        refine ⟨pl.of_next_le false rfl hnext, ?_, hnext, fun q hq hnot => ?_,
          fun q hq => Or.inl ((hpoints q).mp hq), fun q hq => ?_⟩
        · have hsame : Kernel.contents ⟨k.dev, heap⟩ = k.contents := by
            refine contents_of_load rfl (fun i hi j => ?_) fun hset j => ?_
            · exact hload _ (pl.slot i hi).1 (fun heq => hapart (Or.inl ⟨i, hi, heq⟩)) j
            · exact hload _ (pl.pending hset) (fun heq => hapart (Or.inr ⟨hset, heq⟩)) j
          have hend : (k.dev.seek && decide (k.dev.buffer.totalSize ≤ fPos)) = false := by
            rw [decide_eq_false (Int.not_le.mpr hin), Bool.and_false]
          have hread : Kernel.contents ⟨{ k.dev with seek := false }, heap⟩ =
              k.contents.read fPos := by
            rw [← hsame]
            simp only [Contents.read, Kernel.contents, hend]
          exact hread.trans (if_pos rfl).symm
        · exact hload q hq fun heq => hnot (congrArg some heq.symm)
        · obtain rfl := Option.some.inj hq
          exact ⟨hdata.trans_le hnext, fun hq => hapart ((hpoints _).mp hq), Or.inl rfl⟩
      · have hend : k.dev.buffer.totalSize ≤ fPos := Int.not_lt.mp hin
        rw [readStep, readSection, if_pos hend] at hstep
        cases hstep
        refine ⟨pl, ?_, Nat.le_refl _, fun _ _ _ _ => rfl, fun q hq => Or.inl hq,
          fun q hq => by cases hq⟩
        have hread : k.contents = k.contents.read fPos := by
          have hset : decide (k.contents.lines.totalSize ≤ fPos) = true := decide_eq_true hend
          rw [Contents.read, hset, Bool.and_true]
        exact hread.trans (if_pos rfl).symm
  | pastEnd =>
      cases hstep
      exact .of_retains pl rfl howned rfl (.refl _) fun q hq => by cases hq
  | dismissed =>
      cases hstep
      exact .of_retains pl rfl howned rfl (.refl _) fun q hq => by cases hq
  | copied c =>
      cases hstep
      exact .of_retains pl rfl howned rfl (.refl _) fun q hq => Or.inl hq
  | released c =>
      cases hstep
      refine .of_retains pl rfl howned rfl (.refl _) fun q hq => Or.inl ?_
      cases hmutex : k.dev.mutex <;> rw [hmutex] at hq
      · exact hq
      · cases hq
  | checked c =>
      cases hstep
      have hsame : (readReturn env k c count ubuf).kernel = ⟨k.dev,
          ((k.heap.checkRange c.tmpBuf 0 count).free c.byteOffset).free c.tmpBuf⟩ := by
        rw [readReturn]
        dsimp only
        split <;> rfl
      dsimp only
      rw [hsame]
      refine .of_retains pl rfl howned rfl ?_ fun q hq => by cases hq
      exact ((Heap.Retains.of_extends ((Heap.Extends.refl k.heap).checkRange _ _ _)).free _).free _
  | returned pos ret ubuf' => cases hstep

theorem LockEffect.writeSection (pl : Placed k.mutexUnlock) (hlocked : k.dev.mutex = true)
    {env : WriteEnv} {buf : List UInt8} (hv : (FopsCall.write env buf).Valid) {c : WriteCall}
    (prep : Prepared k.heap c buf)
    (howned : ∀ q, (LockingPhase.write (.entered c)).Owns q → q < k.heap.next ∧ ¬ PointsAt k.dev q)
    (hfits : k.dev.pendingSize + buf.length < kmallocBound) :
    ∃ s, writeSection env c k = some s ∧
      LockEffect (.write env buf) k (.write (.entered c)) s.1 (.write (.written c)) := by
  have hk : k.mutexUnlock.mutexLock = k := by
    obtain ⟨⟨mutex, buffer, entry, isPartial, seekto, seek⟩, heap⟩ := k
    cases hlocked
    rfl
  have hapart : ∀ q, PointsAt k.mutexUnlock.dev q → q ≠ c.data ∧ q ≠ c.tmp := by
    intro q hq
    refine ⟨fun heq => ?_, fun heq => ?_⟩
    · exact (howned q ⟨c, rfl, Or.inl heq⟩).2 hq
    · exact (howned q ⟨c, rfl, Or.inr heq⟩).2 hq
  have hpends : Pends k (k.contents.lines.pending.getD []) :=
    pl.pends.of_load rfl rfl (Nat.le_refl _) fun _ _ => rfl
  have hlen := pendingSize_contents k
  have hlt := hfits
  unfold kmallocBound at hlt
  obtain ⟨s, ends, hsection, app⟩ := writeSection_appends hv.1 prep hpends
    (fun hset => hapart _ (Or.inr ⟨hset, rfl⟩)) (by omega) (fun _ => by omega)
  rw [← hk] at app
  have wrote := Wrote.of_appends pl prep hapart (Or.inl hv.2) hfits app
  have hheap : ∀ q j, (s.1.heap.free c.tmp).load q j = s.1.heap.load q j :=
    fun q j => Heap.load_free _ _ _ _
  have hnext : (s.1.heap.free c.tmp).next = s.1.heap.next := Heap.next_free _ _
  refine ⟨s, hsection, wrote.placed.of_next_le s.1.dev.seek rfl hnext.le, ?_, ?_,
    fun q hq hnot j => ?_, fun q hq => ?_, fun q hq => ?_⟩
  · have hsame : s.1.mutexUnlock.contents =
        Kernel.contents ⟨s.1.mutexUnlock.dev, s.1.heap.free c.tmp⟩ :=
      contents_of_load rfl (fun i _ j => (hheap _ j).symm) fun _ j => (hheap _ j).symm
    exact (hsame.trans wrote.contents).trans (if_pos rfl).symm
  · exact wrote.next_le.trans hnext.le
  · rw [← hheap]
    refine wrote.others q hq (fun heq => hnot ⟨c, rfl, Or.inl heq⟩) (fun heq => ?_) j
    exact hnot ⟨c, rfl, Or.inr heq⟩
  · exact (wrote.pointsAt q hq).imp_right fun heq => ⟨c, rfl, Or.inl heq⟩
  · obtain ⟨_, h, -⟩ := hq
    cases h

theorem LockEffect.write (pl : Placed k.mutexUnlock) {env : WriteEnv} {buf : List UInt8}
    (hv : (FopsCall.write env buf).Valid) {p : WritePhase}
    (hlocked : (LockingPhase.write p).enters = true → k.dev.mutex = true)
    (hready : ∀ c, p.ready = some c → Prepared k.heap c buf)
    (howned : ∀ q, (LockingPhase.write p).Owns q → q < k.heap.next ∧ ¬ PointsAt k.dev q)
    (hfits : (LockingPhase.write p).enters = true →
      k.dev.pendingSize + buf.length < kmallocBound)
    {r : Driver Unit × WritePhase}
    (hstep : writeStep (fun _ => env) (fun _ => buf) () ⟨k, []⟩ p = some r) :
    LockEffect (.write env buf) k (.write p) r.1.kernel (.write r.2) := by
  have hnone : ∀ {p : WritePhase} {q}, p.ready = none → ¬ (LockingPhase.write p).Owns q := by
    rintro p q hp ⟨c, hc, -⟩
    rw [hp] at hc
    cases hc
  cases p with
  | called =>
      cases hstep
      have ext := writeProlog_extends hv.1 k buf
      refine .of_retains pl rfl howned rfl (.of_extends ext) fun q hq => Or.inr ?_
      obtain ⟨c, hc, hq⟩ := hq
      obtain rfl := Option.some.inj hc
      have hnext := writeProlog_next hv.1 k buf
      rw [writeProlog_call hv.1] at hq
      dsimp only at hq ⊢
      omega
  | prepared c =>
      cases hstep
      refine .of_retains pl rfl howned rfl (.refl _) fun q hq => Or.inl ?_
      cases hmutex : k.dev.mutex <;> simp only [hmutex] at hq
      · exact hq
      · exact absurd hq (hnone rfl)
  | admitted c =>
      rw [writeStep] at hstep
      split at hstep
      · cases hstep
      · cases hstep
        exact .of_retains pl rfl howned rfl (.refl _) fun q hq => Or.inl hq
  | locked c =>
      cases hstep
      refine .of_retains pl rfl howned rfl (.refl _) fun q hq => Or.inl ?_
      cases hmutex : k.dev.mutex <;> simp only [hmutex] at hq
      · exact absurd hq (hnone rfl)
      · exact hq
  | entered c =>
      obtain ⟨s, hsection, effect⟩ :=
        LockEffect.writeSection pl (hlocked rfl) hv (hready c rfl) howned (hfits rfl)
      rw [writeStep] at hstep
      rw [hsection] at hstep
      cases hstep
      exact effect
  | written c =>
      cases hstep
      exact .of_retains pl rfl howned rfl (.refl _) fun q hq => absurd hq (hnone rfl)
  | released c =>
      cases hstep
      refine .of_retains pl rfl howned rfl (.refl _) fun q hq => ?_
      cases hmutex : k.dev.mutex <;> simp only [hmutex] at hq <;> exact absurd hq (hnone rfl)
  | checked c =>
      cases hstep
      exact .of_retains pl rfl howned rfl ((Heap.Retains.refl _).free _) fun q hq =>
        absurd hq (hnone rfl)
  | returned ret => cases hstep

end Step

end Aesd

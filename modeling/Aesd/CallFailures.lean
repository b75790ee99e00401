import Aesd.FlushEquivalence

/-! What calls make of requests that they cannot serve: seek commands without a target among the
live entries, copies that stop short and allocations that fail. -/
namespace Aesd
open FixedWidth Memory

/-- `write_cmd` counts a live entry, from the oldest on, and `write_cmd_offset` is inside it. -/
def CircularBuffer.HasTarget (b : CircularBuffer) (target : AesdSeekto) : Prop :=
  ∃ h : target.writeCmd < b.live.length, target.writeCmdOffset < b.live[target.writeCmd].size

def seektoSlots (target : AesdSeekto) : List Nat := List.range target.writeCmd

/-- No slot outside the array is read, and a command without a target is refused and changes
nothing. -/
structure RefusesInvalid (k : Kernel) (target : AesdSeekto) : Prop where
  inside : ∀ i ∈ seektoSlots target, i < maxWriteOperationsSupported
  refused : ¬ k.dev.buffer.HasTarget target →
    (aesdIoctl k iocSeekto (some target)).2 < 0 ∧ (aesdIoctl k iocSeekto (some target)).1 = k

theorem rounds_seektoSlots (d : AesdDev) (c : Nat) :
    rounds (fun i pos => toSsize (pos + d.sizeAt i)) c 0 =
      (List.range c).foldl (fun pos i => toSsize (pos + d.sizeAt i)) 0 := by
  induction c with
  | zero => rfl
  | succ c ih =>
      rw [rounds, ih, List.range_succ, List.foldl_append, List.foldl_cons, List.foldl_nil]

theorem seektoTarget_eq_slots (d : AesdDev) (target : AesdSeekto) :
    seektoTarget d target =
      toSsize ((seektoSlots target).foldl (fun pos i => toSsize (pos + d.sizeAt i)) 0 +
        target.writeCmdOffset) := by
  rw [seektoTarget, rounds_seektoSlots, seektoSlots]

theorem length_live_le {b : CircularBuffer} (hin : b.inOffs < 10) : b.live.length ≤ 10 := by
  unfold CircularBuffer.live maxWriteOperationsSupported
  rw [List.length_map, List.length_range]
  split <;> omega

/-- Seek commands are never refused, so they meet the rule exactly when they have a target. -/
theorem refusesInvalid_iff (slots : Vector BufferEntry 10) (unset : Unset) (k : Kernel)
    (reached : Reached (initModule slots unset) k) (target : AesdSeekto) :
    RefusesInvalid k target ↔ k.dev.buffer.HasTarget target := by
  constructor
  · intro h
    by_contra hnone
    have hret := (h.refused hnone).1
    rw [aesdIoctl_seekto] at hret
    exact Int.lt_irrefl 0 hret
  · intro htarget
    refine ⟨fun i hi => ?_, fun hnone => absurd htarget hnone⟩
    obtain ⟨hlt, -⟩ := htarget
    have hle := length_live_le reached.settled.inOffs_lt
    have hi' := List.mem_range.mp hi
    unfold maxWriteOperationsSupported
    omega

theorem refusesInvalid_oneLine : RefusesInvalid oneLine ⟨0, 1⟩ :=
  (refusesInvalid_iff _ .zeroed oneLine oneLine_reached ⟨0, 1⟩).mpr (by
    have hlive : oneLine.dev.buffer.live.map BufferEntry.size = [3] := by decide +kernel
    obtain ⟨e, he, hsize⟩ := List.map_eq_singleton_iff.mp hlive
    simp only [CircularBuffer.HasTarget, he]
    exact ⟨Nat.succ_pos 0, by simp [hsize]⟩)

/-- On an empty device slot 10 is read, behind the array. -/
theorem not_refusesInvalid_eleven :
    ¬ RefusesInvalid (initModule CircularBuffer.init.entry .zeroed) ⟨11, 0⟩ := by
  intro h
  exact absurd (h.inside 10 (by decide)) (by decide)

def WriteFails (env : WriteEnv) (k : Kernel) (buf : List UInt8) : Prop :=
  env.addEntry = none ∨ env.data = none ∨ env.tmp = none ∨
    (k.dev.isPartial = true ∧ env.joined = none) ∨ (0 < env.uncopied ∧ env.uncopied ≤ buf.length)

def ReadFails (env : ReadEnv) (k : Kernel) (count : Nat) (fPos : Int) : Prop :=
  env.tmpBuf = none ∨ (fPos < k.dev.buffer.totalSize ∧
    (env.byteOffset = none ∨ env.tmp = none ∨ (0 < env.uncopied ∧ env.uncopied ≤ count)))

structure WriteUndone (env : WriteEnv) (k : Kernel) (buf : List UInt8) (res : WriteResult) :
    Prop where
  call : aesdWrite env k buf = some res
  negative : res.ret < 0
  buffer : res.kernel.dev.buffer = k.dev.buffer
  isPartial : res.kernel.dev.isPartial = k.dev.isPartial
  partialEntry : res.kernel.dev.partialEntry = k.dev.partialEntry
  unlocked : res.kernel.dev.mutex = false

structure ReadUndone (env : ReadEnv) (k : Kernel) (ubuf : List UInt8) (count : Nat) (fPos : Int)
    (res : ReadResult) : Prop where
  call : aesdRead env k ubuf count fPos = some res
  negative : res.ret < 0
  fPos : res.fPos = fPos
  seek : res.kernel.dev.seek = k.dev.seek
  seektoPosition : res.kernel.dev.seektoPosition = k.dev.seektoPosition
  buffer : res.kernel.dev.buffer = k.dev.buffer
  unlocked : res.kernel.dev.mutex = false

theorem aesdWrite_ret {env : WriteEnv} {k : Kernel} {buf : List UInt8} {res : WriteResult}
    (hunlocked : k.dev.mutex = false) (hlen : buf.length < 2 ^ 63)
    (hcall : aesdWrite env k buf = some res) : res.ret = buf.length := by
  rw [aesdWrite_of_unlocked env buf hunlocked] at hcall
  obtain ⟨s, -, rfl⟩ := Option.map_eq_some_iff.mp hcall
  exact toSsize_of_lt hlen

theorem readCount_helperLoop_le (b : CircularBuffer) (tmp data count byteOffset n i : Nat)
    (s : HelperState) :
    (helperLoop b tmp data count byteOffset n i s).readCount ≤ s.readCount + n * 2 ^ 32 := by
  induction n generalizing i s with
  | zero => simp [helperLoop]
  | succ n ih =>
      rw [helperLoop]
      split
      · omega
      · refine (ih (i + 1) _).trans ?_
        have hend : helperEnd (b.slot i).size count s.readCount byteOffset < 2 ^ 32 := by
          unfold helperEnd
          split <;> exact toUint_lt _
        dsimp only
        unfold toSize
        omega

theorem aesdRead_ret {env : ReadEnv} {k : Kernel} {ubuf : List UInt8} {count : Nat} {fPos : Int}
    {res : ReadResult} (s : Settled k) (hcall : aesdRead env k ubuf count fPos = some res) :
    0 ≤ res.ret := by
  simp only [aesdRead, s.unlocked, Bool.false_eq_true, if_false, Kernel.mutexLock, Bool.not_true,
    Option.bind_eq_bind, Option.bind_eq_some_iff] at hcall
  obtain ⟨⟨k', sec⟩, hsection, hres⟩ := hcall
  cases sec with
  | pastEnd =>
      cases hres
      exact Int.le_refl 0
  | copied pos byteOffset readCount =>
      have hclear : k'.mutexUnlock.dev.mutex = false := rfl
      have hcount : readCount < 2 ^ 63 := by
        rw [readSection] at hsection
        split at hsection
        · cases hsection
        · simp only [Option.bind_eq_bind, Option.bind_eq_some_iff] at hsection
          obtain ⟨start, -, heq⟩ := hsection
          cases heq
          have hstop : readStop k.dev.buffer start.1 ≤ 10 := by
            have hin := s.inOffs_lt
            have hout := s.outOffs_lt
            unfold readStop maxWriteOperationsSupported
            split
            · omega
            · split <;> omega
          refine (readCount_helperLoop_le _ _ _ _ _ _ _ _).trans_lt ?_
          dsimp only
          omega
      dsimp only at hres
      rw [readEpilog, hclear, if_neg (by simp)] at hres
      dsimp only at hres
      split at hres <;> cases hres
      · dsimp only
        rw [toSsize_of_lt hcount]
        exact Int.natCast_nonneg _
      · exact Int.le_refl 0

/-- No failed call is undone: behind any failing kernel call a write returns its count and a read
the number of bytes it has copied. -/
theorem failed_calls_not_undone (slots : Vector BufferEntry 10) (unset : Unset) (k : Kernel)
    (reached : Reached (initModule slots unset) k) :
    (∀ env buf, buf.length < 2 ^ 63 → WriteFails env k buf → ¬ ∃ res, WriteUndone env k buf res) ∧
    ∀ env ubuf count fPos, ReadFails env k count fPos →
      ¬ ∃ res, ReadUndone env k ubuf count fPos res := by
  refine ⟨fun env buf hlen _ h => ?_, fun env ubuf count fPos _ h => ?_⟩
  · obtain ⟨res, undone⟩ := h
    have hret := aesdWrite_ret reached.settled.unlocked hlen undone.call
    have hneg := undone.negative
    omega
  · obtain ⟨res, undone⟩ := h
    have hret := aesdRead_ret reached.settled undone.call
    have hneg := undone.negative
    omega

theorem failed_calls_not_undone_newline : ¬ ∃ res,
    WriteUndone { WriteEnv.zeroed with uncopied := 1 } (initModule CircularBuffer.init.entry .zeroed)
      [97, 10] res :=
  (failed_calls_not_undone CircularBuffer.init.entry .zeroed _ .load).1 _ _ (by decide)
    (Or.inr (Or.inr (Or.inr (Or.inr ⟨by decide, by decide⟩))))

/-- The write of the line `a` with a newline that cannot be copied returns 2 and leaves a pending
line. -/
theorem failed_write_kept : ¬ (∀ env buf,
    WriteFails env (initModule CircularBuffer.init.entry .zeroed) buf →
    ∃ res, WriteUndone env (initModule CircularBuffer.init.entry .zeroed) buf res) := by
  intro h
  obtain ⟨res, undone⟩ := h { WriteEnv.zeroed with uncopied := 1 } [97, 10]
    (Or.inr (Or.inr (Or.inr (Or.inr ⟨by decide, by decide⟩))))
  have hresult : (aesdWrite { WriteEnv.zeroed with uncopied := 1 }
      (initModule CircularBuffer.init.entry .zeroed) [97, 10]).map
      (fun res => (res.ret, res.kernel.dev.isPartial)) = some (2, true) := by decide +kernel
  rw [undone.call, Option.map_some, Option.some.injEq, Prod.mk.injEq] at hresult
  have hneg := undone.negative
  omega

end Aesd

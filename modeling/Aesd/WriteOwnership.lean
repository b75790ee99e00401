import Aesd.BufferRefinement
import Aesd.WriteSteps

/-! Which blocks `aesd_write` touches. A write that finds no pending line and brings at
least one byte stays inside blocks that it owns; one that joins a pending line frees its
data block and goes on writing to it, and an empty one reads the byte before its block. -/
namespace Aesd
open FixedWidth Memory

def Backed (h : Heap) (e : BufferEntry) : Prop :=
  (h.block e.buffptr).live = true ∧ e.size ≤ (h.block e.buffptr).len

/-- Nothing has been touched outside a live block, and the live entries and the pending one
are backed. -/
structure SoundHeap (k : Kernel) : Prop where
  faultless : k.heap.fault = false
  live : ∀ e ∈ k.dev.buffer.live, Backed k.heap e
  pending : k.dev.isPartial = true → Backed k.heap k.dev.partialEntry

/-- The call returns, and leaves a sound heap. -/
def WriteSafe (env : WriteEnv) (k : Kernel) (buf : List UInt8) : Prop :=
  ∃ res, aesdWrite env k buf = some res ∧ SoundHeap res.kernel

/-- No line is pending and there is something to write. -/
def StartsLine (k : Kernel) (buf : List UInt8) : Prop := k.dev.isPartial = false ∧ buf ≠ []

inductive LineStarts (k₀ : Kernel) : Kernel → Prop
  | init : LineStarts k₀ k₀
  | write {k : Kernel} {env : WriteEnv} {buf : List UInt8} {res : WriteResult}
      (reached : LineStarts k₀ k) (succeeds : env.Succeeds) (size : buf.length < 2 ^ 63)
      (starts : StartsLine k buf) (call : aesdWrite env k buf = some res) :
      LineStarts k₀ res.kernel

theorem Backed.of_extends {h h' : Heap} {e : BufferEntry} (b : Backed h e) (ext : h.Extends h') :
    Backed h' e := by
  have hsame := ext.same _ (h.lt_next_of_live _ b.1)
  rw [Backed, hsame]
  exact b

section Safe
variable {env : WriteEnv} (k : Kernel) (buf : List UInt8)

theorem aesdWrite_startsLine (hs : env.Succeeds) (hunlocked : k.dev.mutex = false)
    (starts : StartsLine k buf) (hlen : buf.length < 2 ^ 63) (hfault : k.heap.fault = false) :
    ∃ res, aesdWrite env k buf = some res ∧ res.kernel.heap.fault = false ∧
      k.heap.Extends res.kernel.heap ∧ res.kernel.dev.mutex = false ∧
      Backed res.kernel.heap ⟨k.heap.next + 1, buf.length⟩ ∧
      (res.kernel.dev.isPartial = true →
        res.kernel.dev.partialEntry = ⟨k.heap.next + 1, buf.length⟩) ∧
      (res.kernel.dev.buffer = k.dev.buffer ∨
        res.kernel.dev.buffer = k.dev.buffer.addEntry ⟨k.heap.next + 1, buf.length⟩) := by
  obtain ⟨res, hcall, -, hsame, ext, holds, hends⟩ :=
    aesdWrite_single hs hunlocked starts.1 starts.2 hlen
  have hbacked : Backed res.kernel.heap ⟨k.heap.next + 1, buf.length⟩ :=
    ⟨holds.live, Nat.le_of_eq holds.len.symm⟩
  rcases hends with ⟨-, -, hdev⟩ | ⟨-, -, hdev⟩
  · refine ⟨res, hcall, hsame.trans hfault, ext, by rw [hdev], hbacked, fun hset => ?_,
      Or.inr (by rw [hdev])⟩
    rw [hdev] at hset
    cases hset
  · exact ⟨res, hcall, hsame.trans hfault, ext, by rw [hdev], hbacked, fun _ => by rw [hdev],
      Or.inl (by rw [hdev])⟩

variable {k} {buf} {r : RingBuffer BufferEntry 10}

theorem soundHeap_write (m : Mirrors k.dev.buffer r) (sound : SoundHeap k) (hs : env.Succeeds)
    (hunlocked : k.dev.mutex = false) (starts : StartsLine k buf) (hlen : buf.length < 2 ^ 63) :
    ∃ res r', aesdWrite env k buf = some res ∧ Mirrors res.kernel.dev.buffer r' ∧
      SoundHeap res.kernel ∧ res.kernel.dev.mutex = false := by
  obtain ⟨res, hcall, hfault, ext, hlock, hnew, hpart, hbuf⟩ :=
    aesdWrite_startsLine k buf hs hunlocked starts hlen sound.faultless
  have hpending : res.kernel.dev.isPartial = true →
      Backed res.kernel.heap res.kernel.dev.partialEntry := by
    intro h
    rw [hpart h]
    exact hnew
  rcases hbuf with hbuf | hbuf
  · refine ⟨res, r, hcall, by rw [hbuf]; exact m, ⟨hfault, fun e he => ?_, hpending⟩, hlock⟩
    rw [hbuf] at he
    exact (sound.live e he).of_extends ext
  · have m' := m.addEntry ⟨k.heap.next + 1, buf.length⟩
    refine ⟨res, r.push _, hcall, by rw [hbuf]; exact m', ⟨hfault, fun e he => ?_, hpending⟩, hlock⟩
    rw [hbuf, m'.live, r.live_push] at he
    rcases List.mem_append.mp (List.mem_of_mem_drop he) with hold | hone
    · exact (sound.live e (by rw [m.live]; exact hold)).of_extends ext
    · rw [List.mem_singleton.mp hone]
      exact hnew

theorem joinedHeap_fault (hs : env.Succeeds) {c : WriteCall} (entry : BufferEntry) {h : Heap}
    (hd : c.data < h.next) : (joinedHeap env c entry h).fault = true := by
  obtain ⟨a, d, t, j, low, rfl⟩ := hs.eq
  have hne : c.data ≠ h.next := by omega
  simp only [joinedHeap, kmalloc_some]
  rw [← Bool.not_eq_false, Heap.fault_moves]
  rintro ⟨hfault, -⟩
  rw [Heap.fault_store, Bool.or_eq_false_iff, Bool.not_eq_false', Heap.ok_iff,
    Heap.block_alloc_of_ne _ _ _ _ (by simpa using hne), Heap.live_free] at hfault
  simp at hfault

theorem fault_writeSection {c : WriteCall} {w : Int × Heap} {s : Kernel × Option BufferEntry}
    (hgather : gatherLine env c k = some w) (hsection : writeSection env c k = some s)
    (hfault : (w.2.check c.data (w.1 - 1)).fault = true) : s.1.heap.fault = true := by
  obtain ⟨w', hgather', hcases⟩ := writeSection_cases hsection
  rw [hgather, Option.some.injEq] at hgather'
  subst hgather'
  rcases hcases with ⟨-, rfl⟩ | ⟨-, rfl⟩
  · rw [Heap.fault_free, hfault, Bool.true_or]
  · rw [Heap.fault_check, hfault, Bool.true_or]

theorem not_writeSafe (hs : env.Succeeds) (hunlocked : k.dev.mutex = false)
    (hstarts : ¬ StartsLine k buf) : ¬ WriteSafe env k buf := by
  rintro ⟨res, hcall, sound⟩
  have hfault := sound.faultless
  have hprolog := writeProlog_call hs k buf
  have hnext := writeProlog_next hs k buf
  rw [aesdWrite_of_unlocked env buf hunlocked] at hcall
  obtain ⟨s, hsection, rfl⟩ := Option.map_eq_some_iff.mp hcall
  rw [Heap.fault_free, Bool.or_eq_false_iff] at hfault
  refine Bool.false_ne_true (hfault.1.symm.trans ?_)
  cases hpart : k.dev.isPartial
  · have hempty : buf = [] := by
      by_contra hne
      exact hstarts ⟨hpart, hne⟩
    subst hempty
    refine fault_writeSection (w := (toSsize (0 : Nat),
      (writeProlog env k []).2.mutexLock.heap)) ?_ hsection ?_
    · rw [gatherLine, hprolog, if_neg (by simp [Kernel.mutexLock, writeProlog_dev, hpart])]
      rfl
    · simp [Heap.fault_check, Heap.ok, toSsize]
  · by_cases hlt : (writeProlog env k buf).1.count +
        (writeProlog env k buf).2.mutexLock.dev.partialEntry.size < 2 ^ 32
    · refine fault_writeSection ((if_pos (by exact hpart)).trans (joinPartial_eq env _ _ hlt))
        hsection ?_
      rw [Heap.fault_check, joinedHeap_fault hs _ ?_, Bool.true_or]
      rw [hprolog]
      simp only [Kernel.mutexLock, hnext]
      omega
    · rw [writeSection, gatherLine, if_pos (by exact hpart),
        joinPartial_eq_none env _ _ (by omega)] at hsection
      cases hsection

end Safe

/-- `aesd_write` touches only bytes it owns exactly when it starts a line: in every state
reached by writes that each find no pending line and bring at least one byte the heap is
sound, and the next write is safe if and only if it is again of this kind. -/
theorem write_safe_iff_startsLine (slots : Vector BufferEntry 10) (unset : Unset) (k : Kernel)
    (reached : LineStarts (initModule slots unset) k) :
    SoundHeap k ∧ ∀ env buf, WriteEnv.Succeeds env → buf.length < 2 ^ 63 →
      (WriteSafe env k buf ↔ StartsLine k buf) := by
  have hinv : ∃ r, Mirrors k.dev.buffer r ∧ SoundHeap k ∧ k.dev.mutex = false := by
    induction reached with
    | init =>
        have m : Mirrors (initModule slots unset).dev.buffer (emptyRing slots) := .fresh slots
        refine ⟨_, m, ⟨rfl, ?_, fun hset => absurd hset Bool.false_ne_true⟩, rfl⟩
        rw [m.live, live_emptyRing]
        simp
    | write reached succeeds size starts call ih =>
        obtain ⟨r, m, sound, hlock⟩ := ih
        obtain ⟨res, r', hcall, h⟩ := soundHeap_write m sound succeeds hlock starts size
        rw [call, Option.some.injEq] at hcall
        rw [hcall]
        exact ⟨r', h⟩
  obtain ⟨r, m, sound, hlock⟩ := hinv
  refine ⟨sound, fun env buf hs hlen => ⟨fun hsafe => ?_, fun starts => ?_⟩⟩
  · by_contra hstarts
    exact not_writeSafe hs hlock hstarts hsafe
  · obtain ⟨res, r', hcall, -, hsound, -⟩ := soundHeap_write m sound hs hlock starts hlen
    exact ⟨res, hcall, hsound⟩

/-- A line in two writes: the second one writes to the block it has freed. -/
theorem write_unsafe_two_writes :
    ∃ res, aesdWrite .zeroed (initModule CircularBuffer.init.entry .zeroed) [97] = some res ∧
      ¬ WriteSafe .zeroed res.kernel [98, 10] := by
  have hpart : (aesdWrite .zeroed (initModule CircularBuffer.init.entry .zeroed) [97]).map
      (fun res => res.kernel.dev.isPartial) = some true := by decide +kernel
  obtain ⟨res, hcall, -, -, hlock, -⟩ := aesdWrite_startsLine
    (initModule CircularBuffer.init.entry .zeroed) [97] WriteEnv.zeroed_succeeds rfl ⟨rfl, by simp⟩
    (by simp) rfl
  rw [hcall, Option.map_some, Option.some.injEq] at hpart
  refine ⟨res, hcall, not_writeSafe WriteEnv.zeroed_succeeds hlock fun starts => ?_⟩
  rw [starts.1] at hpart
  cases hpart

theorem write_safe_after_one_line :
    ∃ res, aesdWrite .zeroed (initModule CircularBuffer.init.entry .zeroed) [97, 10] = some res ∧
      (WriteSafe .zeroed res.kernel [98, 10] ↔ StartsLine res.kernel [98, 10]) := by
  have starts : StartsLine (initModule CircularBuffer.init.entry .zeroed) [97, 10] := ⟨rfl, by simp⟩
  obtain ⟨res, hcall, -⟩ := aesdWrite_startsLine (initModule CircularBuffer.init.entry .zeroed) [97, 10]
    WriteEnv.zeroed_succeeds rfl starts (by simp) rfl
  have reached : LineStarts (initModule CircularBuffer.init.entry .zeroed) res.kernel :=
    .write .init WriteEnv.zeroed_succeeds (by simp) starts hcall
  exact ⟨res, hcall, (write_safe_iff_startsLine CircularBuffer.init.entry .zeroed res.kernel reached).2
    .zeroed [98, 10] WriteEnv.zeroed_succeeds (by simp)⟩

end Aesd

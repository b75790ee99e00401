import Aesd.BufferRefinement
import Aesd.WriteSteps

/-! Runs of calls, one after the other and with any outcome of their kernel calls, and
what holds of the device in every state they reach: the slots in use and the pending
line refer to blocks that have been handed out, of sizes that an allocation can have. -/
namespace Aesd
open FixedWidth Memory

/-- The device states reached from `k₀`. No line is longer than an allocation can be. -/
inductive Reached (k₀ : Kernel) : Kernel → Prop
  | load : Reached k₀ k₀
  | write {k : Kernel} {env : WriteEnv} {buf : List UInt8} {res : WriteResult}
      (reached : Reached k₀ k)
      (size : buf.length + (if k.dev.isPartial then k.dev.partialEntry.size else 0) < kmallocBound)
      (call : aesdWrite env k buf = some res) : Reached k₀ res.kernel
  | read {k : Kernel} {env : ReadEnv} {ubuf : List UInt8} {count : Nat} {fPos : Int}
      {res : ReadResult} (reached : Reached k₀ k)
      (call : aesdRead env k ubuf count fPos = some res) : Reached k₀ res.kernel
  | ioctl {k : Kernel} (reached : Reached k₀ k) (cmd : Nat) (arg : Option AesdSeekto) :
      Reached k₀ (aesdIoctl k cmd arg).1

def Handed (h : Heap) (e : BufferEntry) : Prop := e.buffptr < h.next ∧ e.size < kmallocBound

structure SameEntry (h h' : Heap) (e e' : BufferEntry) : Prop where
  size : e'.size = e.size
  lt_next : e.buffptr < h.next
  lt_next' : e'.buffptr < h'.next
  alike : Heap.Alike h h' e.buffptr e'.buffptr

structure Settled (k : Kernel) : Prop where
  unlocked : k.dev.mutex = false
  inOffs_lt : k.dev.buffer.inOffs < 10
  outOffs_lt : k.dev.buffer.outOffs < 10
  slots : ∀ i < 10, k.dev.buffer.full = true ∨ i < k.dev.buffer.inOffs →
    Handed k.heap (k.dev.buffer.slot i)
  totalSize_lt : k.dev.buffer.totalSize < 2 ^ 63
  seekto : -2 ^ 63 ≤ k.dev.seektoPosition ∧ k.dev.seektoPosition < 2 ^ 63

theorem Handed.of_next_le {h h' : Heap} {e : BufferEntry} (o : Handed h e)
    (hle : h.next ≤ h'.next) :
    Handed h' e :=
  ⟨o.1.trans_le hle, o.2⟩

theorem Handed.sameEntry {h : Heap} {e : BufferEntry} (o : Handed h e) : SameEntry h h e e :=
  ⟨rfl, o.1, o.1, fun _ => rfl⟩

theorem next_le_kmalloc (h : Heap) (n : Nat) (m : Kmalloc) : h.next ≤ (kmalloc h n m).2.next := by
  cases m with
  | none => exact Nat.le_refl _
  | some init => exact Nat.le_succ _

theorem kmalloc_lt_next (h : Heap) (n : Nat) (m : Kmalloc) :
    (kmalloc h n m).1 < (kmalloc h n m).2.next := by
  cases m with
  | none => exact h.next_pos
  | some init => exact Nat.lt_succ_self _

theorem toSsize_lt (n : Int) : toSsize n < 2 ^ 63 := by
  unfold toSsize
  omega

theorem le_toSsize (n : Int) : -2 ^ 63 ≤ toSsize n := by
  unfold toSsize
  omega

theorem zero_mem_range : -2 ^ 63 ≤ (0 : Int) ∧ (0 : Int) < 2 ^ 63 := by norm_num

theorem next_le_joinedHeap (env : WriteEnv) (c : WriteCall) (entry : BufferEntry) (h : Heap) :
    h.next ≤ (joinedHeap env c entry h).next := by
  have hle := next_le_kmalloc (((Heap.moves c.data 0 c.tmp entry.size c.count
    (Heap.moves entry.buffptr 0 c.tmp 0 entry.size h)).free c.data))
    (toSize (c.count + entry.size : Nat)) env.joined
  simp only [Heap.next_free, Heap.next_moves] at hle
  simpa [joinedHeap] using hle

theorem writeSection_dev {env : WriteEnv} {c : WriteCall} {k : Kernel}
    {s : Kernel × Option BufferEntry} (hsection : writeSection env c k = some s)
    (hsize : c.count + (if k.dev.isPartial then k.dev.partialEntry.size else 0) < kmallocBound) :
    k.heap.next ≤ s.1.heap.next ∧ ∃ n < kmallocBound,
      s.1.dev = { k.dev with isPartial := true, partialEntry := ⟨c.data, n⟩ } ∨
      s.1.dev = { k.dev with
        isPartial := false, buffer := k.dev.buffer.addEntry ⟨c.data, n⟩ } := by
  unfold kmallocBound at hsize ⊢
  obtain ⟨w, hgather, hcases⟩ := writeSection_cases hsection
  obtain ⟨hn, hnext⟩ : toSize w.1 < 2 ^ 31 ∧ k.heap.next ≤ w.2.next := by
    rcases gatherLine_cases hgather with ⟨hclear, rfl⟩ | ⟨hset, -, rfl⟩
    · rw [hclear, if_neg Bool.false_ne_true, Nat.add_zero] at hsize
      rw [toSize_toSsize]
      exact ⟨(Nat.mod_le _ _).trans_lt hsize, Nat.le_refl _⟩
    · rw [hset, if_pos rfl] at hsize
      rw [toSize_of_lt (by omega)]
      exact ⟨hsize, next_le_joinedHeap _ _ _ _⟩
  rcases hcases with ⟨-, rfl⟩ | ⟨-, rfl⟩
  · exact ⟨by rw [Heap.next_free]; exact hnext, _, hn, Or.inl rfl⟩
  · exact ⟨hnext, _, hn, Or.inr rfl⟩

theorem writeProlog_handed (env : WriteEnv) (k : Kernel) (buf : List UInt8) :
    k.heap.next ≤ (writeProlog env k buf).2.heap.next ∧
      (writeProlog env k buf).1.data < (writeProlog env k buf).2.heap.next := by
  have ha := next_le_kmalloc k.heap 16 env.addEntry
  have hd := next_le_kmalloc (kmalloc k.heap 16 env.addEntry).2 buf.length env.data
  have hdlt := kmalloc_lt_next (kmalloc k.heap 16 env.addEntry).2 buf.length env.data
  have ht := next_le_kmalloc (kmalloc (kmalloc k.heap 16 env.addEntry).2 buf.length env.data).2
    (toSize (buf.length + k.dev.partialEntry.size : Nat)) env.tmp
  simp only [writeProlog, copyFromUser, Heap.next_storeList]
  exact ⟨(ha.trans hd).trans ht, hdlt.trans_le ht⟩

theorem next_le_readHelper (h : Heap) (b : CircularBuffer)
    (index1 index2 data count byteOffset : Nat) (tmp : Kmalloc) :
    h.next ≤ (readHelper h b index1 index2 data count byteOffset tmp).1.next := by
  rw [readHelper, next_helperLoop]
  exact next_le_kmalloc _ _ _

theorem readSection_dev {env : ReadEnv} {k : Kernel} {tmpBuf count : Nat} {fPos : Int}
    {s : Kernel × ReadSection} (hsection : readSection env k tmpBuf count fPos = some s) :
    k.heap.next ≤ s.1.heap.next ∧
      s.1.dev = { k.dev with seek := k.dev.seek && decide (k.dev.buffer.totalSize ≤ fPos) } := by
  rw [readSection] at hsection
  split at hsection
  · rename_i hend
    cases hsection
    refine ⟨Nat.le_refl _, ?_⟩
    rw [decide_eq_true hend, Bool.and_true]
  · rename_i hin
    rw [decide_eq_false hin, Bool.and_false]
    simp only [Option.bind_eq_bind, Option.bind_eq_some_iff] at hsection
    obtain ⟨start, -, heq⟩ := hsection
    cases heq
    have hcopy := next_le_readHelper ((kmalloc k.heap 8 env.byteOffset).2.check
      (kmalloc k.heap 8 env.byteOffset).1 0) k.dev.buffer start.1
      (readStop k.dev.buffer start.1) tmpBuf count start.2 env.tmp
    exact ⟨(next_le_kmalloc k.heap 8 env.byteOffset).trans hcopy, rfl⟩

theorem aesdRead_dev {env : ReadEnv} {k : Kernel} {ubuf : List UInt8} {count : Nat} {fPos : Int}
    {res : ReadResult} (hunlocked : k.dev.mutex = false)
    (hcall : aesdRead env k ubuf count fPos = some res) :
    k.heap.next ≤ res.kernel.heap.next ∧ res.kernel.dev =
      { k.dev with seek := k.dev.seek && decide (k.dev.buffer.totalSize ≤ fPos) } := by
  have htmp := next_le_kmalloc k.heap count env.tmpBuf
  simp only [aesdRead, hunlocked, Bool.false_eq_true, if_false, Kernel.mutexLock, Bool.not_true,
    Option.bind_eq_bind, Option.bind_eq_some_iff] at hcall
  obtain ⟨⟨k', sec⟩, hsection, hres⟩ := hcall
  obtain ⟨hnext, hdev⟩ := readSection_dev hsection
  have hunlock : k'.mutexUnlock.dev =
      { k.dev with seek := k.dev.seek && decide (k.dev.buffer.totalSize ≤ fPos) } := by
    rw [Kernel.mutexUnlock, hdev]
    dsimp only
    rw [hunlocked]
  cases sec with
  | pastEnd =>
      cases hres
      exact ⟨htmp.trans hnext, hunlock⟩
  | copied pos byteOffset readCount =>
      have hclear : k'.mutexUnlock.dev.mutex = false := rfl
      dsimp only at hres
      rw [readEpilog, hclear, if_neg (by simp)] at hres
      dsimp only at hres
      split at hres <;> cases hres
      · refine ⟨?_, hunlock⟩
        simp only [Heap.next_free, Heap.next_checkRange]
        exact htmp.trans hnext
      · refine ⟨?_, hunlock⟩
        simp only [Heap.next_free, Heap.next_checkRange]
        exact htmp.trans hnext

theorem aesdFlush_dev {k : Kernel} (hunlocked : k.dev.mutex = false) :
    (aesdFlush k).1.dev = (initModule k.dev.buffer.entry k.dev.unset).dev := by
  simp only [aesdFlush, hunlocked]
  rfl

namespace Settled
variable {k : Kernel}

theorem addEntry_slots {b : CircularBuffer} {h : Heap} {e : BufferEntry} (hin : b.inOffs < 10)
    (hslots : ∀ i < 10, b.full = true ∨ i < b.inOffs → Handed h (b.slot i)) (he : Handed h e) :
    ∀ i < 10, (b.addEntry e).full = true ∨ i < (b.addEntry e).inOffs →
      Handed h ((b.addEntry e).slot i) := by
  intro i hi hused
  rw [b.slot_addEntry e hin]
  split
  · exact he
  · rename_i hne
    exact hslots i hi ((CircularBuffer.used_of_addEntry hin hi hused).resolve_left hne)

theorem write (s : Settled k) {env : WriteEnv} {buf : List UInt8} {res : WriteResult}
    (hsize : buf.length + (if k.dev.isPartial then k.dev.partialEntry.size else 0) < kmallocBound)
    (hcall : aesdWrite env k buf = some res) : Settled res.kernel := by
  rw [aesdWrite_of_unlocked env buf s.unlocked] at hcall
  obtain ⟨sec, hsection, rfl⟩ := Option.map_eq_some_iff.mp hcall
  obtain ⟨hnext, n, hn, hdev⟩ := writeSection_dev hsection hsize
  have hprolog := writeProlog_handed env k buf
  have hle : k.heap.next ≤ (sec.1.heap.free (writeProlog env k buf).1.tmp).next := by
    rw [Heap.next_free]
    exact hprolog.1.trans hnext
  have hold : ∀ i < 10, k.dev.buffer.full = true ∨ i < k.dev.buffer.inOffs →
      Handed (sec.1.heap.free (writeProlog env k buf).1.tmp) (k.dev.buffer.slot i) :=
    fun i hi hused => (s.slots i hi hused).of_next_le hle
  have hnew : Handed (sec.1.heap.free (writeProlog env k buf).1.tmp)
      ⟨(writeProlog env k buf).1.data, n⟩ := by
    refine ⟨?_, hn⟩
    rw [Heap.next_free]
    exact hprolog.2.trans_le hnext
  rcases hdev with hdev | hdev
  · have hbuf : sec.1.mutexUnlock.dev.buffer = k.dev.buffer := by rw [Kernel.mutexUnlock, hdev]; rfl
    refine ⟨rfl, by rw [hbuf]; exact s.inOffs_lt, by rw [hbuf]; exact s.outOffs_lt,
      by rw [hbuf]; exact hold, by rw [hbuf]; exact s.totalSize_lt, ?_⟩
    simp only [Kernel.mutexUnlock, hdev]
    exact s.seekto
  · have hbuf : sec.1.mutexUnlock.dev.buffer =
        k.dev.buffer.addEntry ⟨(writeProlog env k buf).1.data, n⟩ := by
      rw [Kernel.mutexUnlock, hdev]
      rfl
    refine ⟨rfl, ?_, ?_, by rw [hbuf]; exact addEntry_slots s.inOffs_lt hold hnew, ?_, ?_⟩
    · rw [hbuf, CircularBuffer.addEntry]
      split <;> exact CircularBuffer.advance_lt s.inOffs_lt
    · rw [hbuf, CircularBuffer.addEntry]
      split
      · exact CircularBuffer.advance_lt s.outOffs_lt
      · exact s.outOffs_lt
    · rw [hbuf, CircularBuffer.addEntry]
      split <;> exact toSsize_lt _
    · simp only [Kernel.mutexUnlock, hdev]
      exact s.seekto

theorem read (s : Settled k) {env : ReadEnv} {ubuf : List UInt8} {count : Nat} {fPos : Int}
    {res : ReadResult} (hcall : aesdRead env k ubuf count fPos = some res) :
    Settled res.kernel := by
  obtain ⟨hnext, hdev⟩ := aesdRead_dev s.unlocked hcall
  refine ⟨by rw [hdev]; exact s.unlocked, by rw [hdev]; exact s.inOffs_lt,
    by rw [hdev]; exact s.outOffs_lt, fun i hi hused => ?_, by rw [hdev]; exact s.totalSize_lt,
    by rw [hdev]; exact s.seekto⟩
  rw [hdev] at hused ⊢
  exact (s.slots i hi hused).of_next_le hnext

theorem loaded (slots : Vector BufferEntry 10) (unset : Unset) (heap : Heap) :
    Settled ⟨(initModule slots unset).dev, heap⟩ := by
  refine ⟨rfl, Nat.succ_pos _, Nat.succ_pos _, fun i hi hused => ?_,
    (by norm_num : (0 : Int) < 2 ^ 63), zero_mem_range⟩
  rcases hused with hfull | hlt
  · cases hfull
  · cases hlt

theorem ioctl (s : Settled k) (cmd : Nat) (arg : Option AesdSeekto) :
    Settled (aesdIoctl k cmd arg).1 := by
  unfold aesdIoctl
  split
  · exact s
  · split
    · exact s
    · split
      · cases arg with
        | none => exact s
        | some seekto =>
            exact ⟨s.unlocked, s.inOffs_lt, s.outOffs_lt, s.slots, s.totalSize_lt,
              le_toSsize _, toSsize_lt _⟩
      · split
        · have loaded := Settled.loaded k.dev.buffer.entry k.dev.unset (aesdFlush k).1.heap
          rw [← aesdFlush_dev s.unlocked] at loaded
          exact loaded
        · exact s

end Settled

theorem Reached.settled {slots : Vector BufferEntry 10} {unset : Unset} {k : Kernel}
    (reached : Reached (initModule slots unset) k) : Settled k := by
  induction reached with
  | load => exact .loaded slots unset Heap.empty
  | write reached size call ih => exact ih.write size call
  | read reached call ih => exact ih.read call
  | ioctl reached cmd arg ih => exact ih.ioctl cmd arg

theorem ioctl_pending (k : Kernel) (cmd : Nat) (arg : Option AesdSeekto) :
    (aesdIoctl k cmd arg).1.dev.isPartial = false ∨
      (aesdIoctl k cmd arg).1.dev.isPartial = k.dev.isPartial ∧
        (aesdIoctl k cmd arg).1.dev.partialEntry = k.dev.partialEntry ∧
        (aesdIoctl k cmd arg).1.heap.next = k.heap.next := by
  unfold aesdIoctl
  split
  · exact Or.inr ⟨rfl, rfl, rfl⟩
  · split
    · exact Or.inr ⟨rfl, rfl, rfl⟩
    · split
      · cases arg <;> exact Or.inr ⟨rfl, rfl, rfl⟩
      · split
        · exact Or.inl rfl
        · exact Or.inr ⟨rfl, rfl, rfl⟩

theorem Reached.pending {slots : Vector BufferEntry 10} {unset : Unset} {k : Kernel}
    (reached : Reached (initModule slots unset) k) (hset : k.dev.isPartial = true) :
    k.dev.partialEntry.buffptr < k.heap.next := by
  induction reached with
  | load => cases hset
  | write reached size call ih =>
      rename_i k env buf res
      rw [aesdWrite_of_unlocked _ _ reached.settled.unlocked] at call
      obtain ⟨sec, hsection, rfl⟩ := Option.map_eq_some_iff.mp call
      obtain ⟨hnext, n, -, hdev | hdev⟩ := writeSection_dev hsection size
      · have hdata := (writeProlog_handed env k buf).2
        simp only [Kernel.mutexUnlock, hdev, Heap.next_free]
        exact hdata.trans_le hnext
      · simp only [Kernel.mutexUnlock, hdev] at hset
        cases hset
  | read reached call ih =>
      obtain ⟨hnext, hdev⟩ := aesdRead_dev reached.settled.unlocked call
      rw [hdev] at hset ⊢
      exact (ih hset).trans_le hnext
  | ioctl reached cmd arg ih =>
      rcases ioctl_pending _ cmd arg with hclear | ⟨hpart, hentry, hnext⟩
      · exact absurd (hclear.symm.trans hset) Bool.false_ne_true
      · rw [hentry, hnext]
        exact ih (hpart.symm.trans hset)

def CircularBuffer.reset (b : CircularBuffer) : CircularBuffer :=
  { b with full := false, inOffs := 0, outOffs := 0, totalSize := 0 }

theorem ioctl_buffer (k : Kernel) (cmd : Nat) (arg : Option AesdSeekto) :
    (aesdIoctl k cmd arg).1.dev.buffer = k.dev.buffer ∨
      (aesdIoctl k cmd arg).1.dev.buffer = k.dev.buffer.reset := by
  unfold aesdIoctl
  split
  · exact Or.inl rfl
  · split
    · exact Or.inl rfl
    · split
      · cases arg <;> exact Or.inl rfl
      · split
        · exact Or.inr rfl
        · exact Or.inl rfl

theorem Reached.buffer {P : CircularBuffer → Prop} {slots : Vector BufferEntry 10} {unset : Unset}
    {k : Kernel} (reached : Reached (initModule slots unset) k)
    (hload : P { CircularBuffer.init with entry := slots })
    (hadd : ∀ b e, b.inOffs < 10 → e.size < kmallocBound → P b → P (b.addEntry e))
    (hreset : ∀ b, P b → P b.reset) : P k.dev.buffer := by
  induction reached with
  | load => exact hload
  | write reached size call ih =>
      have s := reached.settled
      rw [aesdWrite_of_unlocked _ _ s.unlocked] at call
      obtain ⟨sec, hsection, rfl⟩ := Option.map_eq_some_iff.mp call
      obtain ⟨-, n, hn, hdev | hdev⟩ := writeSection_dev hsection size
      · simp only [Kernel.mutexUnlock, hdev]
        exact ih
      · simp only [Kernel.mutexUnlock, hdev]
        exact hadd _ _ s.inOffs_lt hn ih
  | read reached call ih =>
      rw [(aesdRead_dev reached.settled.unlocked call).2]
      exact ih
  | ioctl reached cmd arg ih =>
      rcases ioctl_buffer _ cmd arg with heq | heq <;> rw [heq]
      · exact ih
      · exact hreset _ ih

theorem Reached.mirrors {slots : Vector BufferEntry 10} {unset : Unset} {k : Kernel}
    (reached : Reached (initModule slots unset) k) : ∃ r, Mirrors k.dev.buffer r :=
  reached.buffer (P := fun b => ∃ r, Mirrors b r) ⟨_, Mirrors.fresh slots⟩
    (fun _ e _ _ ⟨r, hm⟩ => ⟨r.push e, hm.addEntry e⟩) fun _ ⟨r, hm⟩ => ⟨r.reset, hm.reset⟩

end Aesd

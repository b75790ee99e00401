import Aesd.Lib.Replay
import Aesd.DeviceRuns
import Aesd.ReadDelivery

/-! The driver's allocations. The ledger has the blocks that `kmalloc` has handed out since
the module was loaded and `kfree` has not been given; a request of no bytes gets no
block. -/
namespace Aesd
open FixedWidth Memory Replay

/-- `aesd_cleanup_module`; the driver's own structures are not in the ledger. -/
def cleanupModule (k : Kernel) : Kernel :=
  let b := k.dev.buffer
  { k with heap := rounds (fun index h => if index < b.inOffs then h.free (b.slot index).buffptr
      else h) maxWriteOperationsSupported k.heap }

def InLedger (h : Heap) (p : Nat) : Prop := (h.block p).live = true ∧ 0 < (h.block p).len

inductive DeviceCall
  | read (env : ReadEnv) (ubuf : List UInt8) (count : Nat) (fPos : Int)
  | write (env : WriteEnv) (buf : List UInt8)
  | seekto (target : AesdSeekto)
  | flush
  | cleanup

namespace DeviceCall

def apply (k : Kernel) : DeviceCall → Option (Kernel × Int)
  | read env ubuf count fPos => (aesdRead env k ubuf count fPos).map fun res => (res.kernel, res.ret)
  | write env buf => (aesdWrite env k buf).map fun res => (res.kernel, res.ret)
  | seekto target => some (aesdIoctl k iocSeekto (some target))
  | flush => some (aesdIoctl k iocFlush none)
  | cleanup => some (cleanupModule k, 0)

end DeviceCall

def kmalloced (h : Heap) (n : Nat) (m : Kmalloc) : List Nat :=
  if m.isSome ∧ 0 < n then [h.next] else []

namespace DeviceCall

def kmallocs (k : Kernel) : DeviceCall → List Nat
  | read env _ count fPos =>
      let t := kmalloc k.heap count env.tmpBuf
      let o := kmalloc t.2 8 env.byteOffset
      kmalloced k.heap count env.tmpBuf ++
        if k.dev.buffer.totalSize ≤ fPos then []
        else kmalloced t.2 8 env.byteOffset ++ kmalloced o.2 count env.tmp
  | write env buf =>
      let size := toSize (buf.length + k.dev.partialEntry.size : Nat)
      let a := kmalloc k.heap 16 env.addEntry
      let d := kmalloc a.2 buf.length env.data
      let t := kmalloc d.2 size env.tmp
      kmalloced k.heap 16 env.addEntry ++ kmalloced a.2 buf.length env.data ++
        kmalloced d.2 size env.tmp ++
        if k.dev.isPartial then kmalloced t.2 size env.joined else []
  | _ => []

/-- The slots that `aesd_flush` and `aesd_cleanup_module` release. -/
def released (b : CircularBuffer) : List Nat :=
  ((List.range maxWriteOperationsSupported).filter (· < b.inOffs)).map fun i => (b.slot i).buffptr

def kfrees (k : Kernel) : DeviceCall → List Nat
  | read env _ count fPos =>
      let t := kmalloc k.heap count env.tmpBuf
      if k.dev.buffer.totalSize ≤ fPos then [] else [(kmalloc t.2 8 env.byteOffset).1, t.1]
  | write env buf =>
      let p := writeProlog env k buf
      match gatherLine env p.1 p.2 with
      | none => []
      | some w =>
          (if k.dev.isPartial then [p.1.data] else []) ++
            (if w.2.load p.1.data (w.1 - 1) ≠ newline then [p.1.addEntry] else []) ++ [p.1.tmp]
  | flush => released k.dev.buffer
  | cleanup => released k.dev.buffer
  | seekto _ => []

end DeviceCall

section Ledger
variable (h : Heap) (p q : Nat) (i j : Int) (b : UInt8) (n : Nat)

@[simp] theorem inLedger_check : InLedger (h.check p i) q ↔ InLedger h q := Iff.rfl

@[simp] theorem inLedger_checkRange : InLedger (h.checkRange p i n) q ↔ InLedger h q := Iff.rfl

@[simp] theorem inLedger_store : InLedger (h.store p i b) q ↔ InLedger h q := by
  simp [InLedger]

@[simp] theorem inLedger_moves (src dst : Nat) :
    InLedger (Heap.moves src i dst j n h) q ↔ InLedger h q := by
  simp [InLedger]

@[simp] theorem inLedger_storeList (l : List UInt8) :
    InLedger (Heap.storeList p i l h) q ↔ InLedger h q := by
  simp [InLedger, Heap.live_storeList, Heap.len_storeList]

theorem inLedger_free : InLedger (h.free p) q ↔ InLedger h q ∧ q ≠ p := by
  rw [InLedger, InLedger, Heap.live_free, Heap.len_free, Bool.and_eq_true, decide_eq_true_eq]
  tauto

variable {h} {p}

theorem InLedger.lt_next (hp : InLedger h p) : p < h.next := h.lt_next_of_live p hp.1

theorem InLedger.ne_zero (hp : InLedger h p) : p ≠ 0 := h.ne_zero_of_live p hp.1

variable (h) (p)

theorem inLedger_kmalloc (m : Kmalloc) :
    InLedger (kmalloc h n m).2 p ↔ InLedger h p ∨ p ∈ kmalloced h n m := by
  cases m with
  | none => simp [kmalloc, kmalloced]
  | some init =>
      by_cases hp : p = h.next
      · subst hp
        have hnot : ¬ InLedger h h.next := fun hin => Nat.lt_irrefl _ hin.lt_next
        rw [kmalloc_some, InLedger, Heap.block_alloc_self]
        simp [hnot, kmalloced]
      · rw [kmalloc_some, InLedger, Heap.block_alloc_of_ne _ _ _ _ hp]
        simp [kmalloced, hp, InLedger]

theorem kmalloced_congr {h h' : Heap} (hnext : h'.next = h.next) (n : Nat) (m : Kmalloc) :
    kmalloced h' n m = kmalloced h n m := by
  rw [kmalloced, hnext, kmalloced]

theorem mem_kmalloced {h : Heap} {n p : Nat} {m : Kmalloc} (hp : p ∈ kmalloced h n m) :
    p = h.next ∧ (kmalloc h n m).1 = h.next := by
  rw [kmalloced] at hp
  split at hp
  · rename_i hsome
    obtain ⟨init, rfl⟩ := Option.isSome_iff_exists.mp hsome.1
    exact ⟨List.mem_singleton.mp hp, rfl⟩
  · cases hp

theorem kmalloc_mem {h : Heap} {n : Nat} {m : Kmalloc} (hn : 0 < n) (hne : (kmalloc h n m).1 ≠ 0) :
    (kmalloc h n m).1 ∈ kmalloced h n m := by
  cases m with
  | none => exact absurd rfl hne
  | some init => simp [kmalloced, hn]

@[simp] theorem freed_kmalloc (h : Heap) (n : Nat) (m : Kmalloc) :
    (kmalloc h n m).2.freed = h.freed := by
  cases m <;> rfl

theorem allocated_kmalloc (h : Heap) (n : Nat) (m : Kmalloc) :
    (kmalloc h n m).2.allocated = h.allocated ++ kmalloced h n m := by
  cases m with
  | none => simp [kmalloc, kmalloced]
  | some init =>
      rw [kmalloc_some, Heap.allocated_alloc, kmalloced]
      by_cases hn : 0 < n <;> simp [hn]

theorem kmalloc_fst (h : Heap) (n : Nat) (m : Kmalloc) :
    (kmalloc h n m).1 = 0 ∨ (kmalloc h n m).1 = h.next := by
  cases m with
  | none => exact Or.inl rfl
  | some init => exact Or.inr rfl

theorem inLedger_readHelper (h : Heap) (b : CircularBuffer)
    (index1 index2 data count byteOffset p : Nat) (tmp : Kmalloc) :
    InLedger (readHelper h b index1 index2 data count byteOffset tmp).1 p ↔
      InLedger h p ∨ p ∈ kmalloced h count tmp := by
  rw [← inLedger_kmalloc, readHelper, InLedger, live_helperLoop, len_helperLoop]
  rfl

theorem log_readHelper (h : Heap) (b : CircularBuffer)
    (index1 index2 data count byteOffset : Nat) (tmp : Kmalloc) :
    (readHelper h b index1 index2 data count byteOffset tmp).1.allocated =
        h.allocated ++ kmalloced h count tmp ∧
      (readHelper h b index1 index2 data count byteOffset tmp).1.freed = h.freed := by
  obtain ⟨hallocated, hfreed⟩ := log_helperLoop (kmalloc h count tmp).1 data byteOffset
    (index2 - index1) index1 ⟨(kmalloc h count tmp).2, toUint byteOffset, 0⟩
  exact ⟨hallocated.trans (allocated_kmalloc h count tmp), hfreed.trans (freed_kmalloc h count tmp)⟩

theorem inLedger_released (b : CircularBuffer) (n : Nat) (h : Heap) (p : Nat) :
    InLedger (rounds (fun index h => if index < b.inOffs then h.free (b.slot index).buffptr else h)
      n h) p ↔
      InLedger h p ∧ p ∉ ((List.range n).filter (· < b.inOffs)).map fun i => (b.slot i).buffptr := by
  induction n with
  | zero => simp [rounds]
  | succ n ih =>
      rw [rounds, List.range_succ, List.filter_append, List.map_append, List.mem_append, not_or]
      by_cases hn : n < b.inOffs
      · simp only [hn, if_true, inLedger_free, ih]
        simp [hn, and_assoc]
      · simp only [hn, if_false, ih]
        simp [hn]

theorem next_released (b : CircularBuffer) (n : Nat) (h : Heap) :
    (rounds (fun index h => if index < b.inOffs then h.free (b.slot index).buffptr else h) n h).next =
      h.next := by
  induction n with
  | zero => rfl
  | succ n ih =>
      rw [rounds]
      split
      · rw [Heap.next_free, ih]
      · exact ih

theorem log_released (b : CircularBuffer) (n : Nat) (h : Heap) :
    let h' := rounds (fun index h => if index < b.inOffs then h.free (b.slot index).buffptr else h) n h
    h'.allocated = h.allocated ∧ h'.freed = h.freed ++
      (((List.range n).filter (· < b.inOffs)).map fun i => (b.slot i).buffptr).filter (· ≠ 0) := by
  induction n with
  | zero => simp [rounds]
  | succ n ih =>
      dsimp only at ih ⊢
      rw [rounds, List.range_succ, List.filter_append, List.map_append, List.filter_append]
      by_cases hn : n < b.inOffs
      · rw [if_pos hn, Heap.allocated_free, Heap.freed_free, ih.1, ih.2, List.append_assoc]
        by_cases hp : (b.slot n).buffptr = 0 <;> simp [hn, hp]
      · rw [if_neg hn, ih.1, ih.2]
        simp [hn]

theorem log_gatherLine {env : WriteEnv} {c : WriteCall} {k : Kernel} {w : Int × Heap}
    (hgather : gatherLine env c k = some w) :
    w.2.allocated = k.heap.allocated ++ (if k.dev.isPartial then
        kmalloced k.heap (toSize (c.count + k.dev.partialEntry.size : Nat)) env.joined else []) ∧
      w.2.freed = k.heap.freed ++
        (if k.dev.isPartial then [c.data] else []).filter (· ≠ 0) := by
  rcases gatherLine_cases hgather with ⟨hclear, rfl⟩ | ⟨hset, -, rfl⟩
  · simp [hclear]
  · have hnext : ((Heap.moves c.data 0 c.tmp k.dev.partialEntry.size c.count
        (Heap.moves k.dev.partialEntry.buffptr 0 c.tmp 0 k.dev.partialEntry.size k.heap)).free
        c.data).next = k.heap.next := by simp
    simp only [joinedHeap, Heap.allocated_moves, Heap.allocated_store, allocated_kmalloc,
      Heap.allocated_free, Heap.freed_moves, Heap.freed_store, freed_kmalloc, Heap.freed_free,
      kmalloced_congr hnext, hset, if_true, true_and]
    by_cases hd : c.data = 0 <;> simp [hd]

theorem inLedger_gatherLine {env : WriteEnv} {c : WriteCall} {k : Kernel} {w : Int × Heap}
    (hgather : gatherLine env c k = some w) (p : Nat) :
    InLedger w.2 p ↔
      (InLedger k.heap p ∧ p ∉ if k.dev.isPartial then [c.data] else []) ∨
        p ∈ if k.dev.isPartial then
          kmalloced k.heap (toSize (c.count + k.dev.partialEntry.size : Nat)) env.joined else [] := by
  rcases gatherLine_cases hgather with ⟨hclear, rfl⟩ | ⟨hset, -, rfl⟩
  · simp [hclear]
  · have hnext : ((Heap.moves c.data 0 c.tmp k.dev.partialEntry.size c.count
        (Heap.moves k.dev.partialEntry.buffptr 0 c.tmp 0 k.dev.partialEntry.size k.heap)).free
        c.data).next = k.heap.next := by simp
    simp only [joinedHeap, inLedger_moves, inLedger_store, inLedger_kmalloc, inLedger_free, hset,
      if_true, List.mem_singleton, kmalloced_congr hnext]

end Ledger

theorem load_writeProlog_last (env : WriteEnv) (k : Kernel) {buf : List UInt8} (hne : buf ≠ []) :
    (writeProlog env k buf).2.heap.load (writeProlog env k buf).1.data ((buf.length : Int) - 1) ≠
      newline ↔ env.uncopied ≠ 0 ∨ buf.getLast? ≠ some newline := by
  have hpos : 0 < buf.length := List.length_pos_iff.mpr hne
  obtain ⟨copied, hcopied⟩ : ∃ l, l = buf.take (buf.length - env.uncopied) ++
      List.replicate (buf.length - (buf.length - env.uncopied)) (0 : UInt8) := ⟨_, rfl⟩
  have hlen : copied.length = buf.length := by
    rw [hcopied, List.length_append, List.length_take, List.length_replicate]
    omega
  have hne' : copied ≠ [] := List.ne_nil_of_length_pos (by omega)
  have hload := load_last (Heap.bytesAt_storeList (kmalloc (kmalloc (kmalloc k.heap 16
    env.addEntry).2 buf.length env.data).2 (toSize (buf.length + k.dev.partialEntry.size : Nat))
    env.tmp).2 (writeProlog env k buf).1.data 0 copied) hne'
  rw [hlen] at hload
  have hheap : (writeProlog env k buf).2.heap = Heap.storeList (writeProlog env k buf).1.data 0
    copied (kmalloc (kmalloc (kmalloc k.heap 16 env.addEntry).2 buf.length env.data).2
      (toSize (buf.length + k.dev.partialEntry.size : Nat)) env.tmp).2 := by
    rw [hcopied]
    rfl
  rw [hheap, hload]
  by_cases hall : env.uncopied = 0
  · have hself : copied = buf := by rw [hcopied, hall]; simp
    subst hself
    simp [hall, List.getLast?_eq_getLast_of_ne_nil hne']
  · have hzero : copied.getLast hne' = 0 := by
      have hrep : List.replicate (buf.length - (buf.length - env.uncopied)) (0 : UInt8) ≠ [] := by
        refine List.ne_nil_of_length_pos ?_
        rw [List.length_replicate]
        omega
      simp only [hcopied, List.getLast_append_of_ne_nil _ hrep, List.getLast_replicate]
    rw [hzero]
    simp [hall, newline]

theorem inLedger_writeProlog (env : WriteEnv) (k : Kernel) (buf : List UInt8) (p : Nat) :
    InLedger (writeProlog env k buf).2.heap p ↔ InLedger k.heap p ∨
      p ∈ kmalloced k.heap 16 env.addEntry ++
        kmalloced (kmalloc k.heap 16 env.addEntry).2 buf.length env.data ++
        kmalloced (kmalloc (kmalloc k.heap 16 env.addEntry).2 buf.length env.data).2
          (toSize (buf.length + k.dev.partialEntry.size : Nat)) env.tmp := by
  simp only [writeProlog, copyFromUser, inLedger_storeList, inLedger_kmalloc, List.mem_append]
  tauto

theorem writeProlog_fresh (env : WriteEnv) (k : Kernel) (buf : List UInt8) :
    ((writeProlog env k buf).1.addEntry ≠ 0 → k.heap.next ≤ (writeProlog env k buf).1.addEntry) ∧
      ((writeProlog env k buf).1.data ≠ 0 → k.heap.next ≤ (writeProlog env k buf).1.data ∧
        (writeProlog env k buf).1.addEntry < (writeProlog env k buf).1.data) ∧
      ((writeProlog env k buf).1.tmp ≠ 0 → k.heap.next ≤ (writeProlog env k buf).1.tmp ∧
        (writeProlog env k buf).1.addEntry < (writeProlog env k buf).1.tmp ∧
        (writeProlog env k buf).1.data < (writeProlog env k buf).1.tmp) := by
  have ha := kmalloc_fst k.heap 16 env.addEntry
  have ha' := kmalloc_lt_next k.heap 16 env.addEntry
  have hale := next_le_kmalloc k.heap 16 env.addEntry
  have hd := kmalloc_fst (kmalloc k.heap 16 env.addEntry).2 buf.length env.data
  have hd' := kmalloc_lt_next (kmalloc k.heap 16 env.addEntry).2 buf.length env.data
  have hdle := next_le_kmalloc (kmalloc k.heap 16 env.addEntry).2 buf.length env.data
  have ht := kmalloc_fst (kmalloc (kmalloc k.heap 16 env.addEntry).2 buf.length env.data).2
    (toSize (buf.length + k.dev.partialEntry.size : Nat)) env.tmp
  dsimp only [writeProlog]
  omega

theorem writeProlog_lt_next (env : WriteEnv) (k : Kernel) (buf : List UInt8) :
    (writeProlog env k buf).1.addEntry < (writeProlog env k buf).2.heap.next ∧
      (writeProlog env k buf).1.data < (writeProlog env k buf).2.heap.next ∧
      (writeProlog env k buf).1.tmp < (writeProlog env k buf).2.heap.next := by
  have ha := kmalloc_lt_next k.heap 16 env.addEntry
  have hd := kmalloc_lt_next (kmalloc k.heap 16 env.addEntry).2 buf.length env.data
  have ht := kmalloc_lt_next (kmalloc (kmalloc k.heap 16 env.addEntry).2 buf.length env.data).2
    (toSize (buf.length + k.dev.partialEntry.size : Nat)) env.tmp
  have hd' := next_le_kmalloc (kmalloc k.heap 16 env.addEntry).2 buf.length env.data
  have ht' := next_le_kmalloc (kmalloc (kmalloc k.heap 16 env.addEntry).2 buf.length env.data).2
    (toSize (buf.length + k.dev.partialEntry.size : Nat)) env.tmp
  simp only [writeProlog, copyFromUser, Heap.next_storeList]
  exact ⟨(ha.trans_le hd').trans_le ht', hd.trans_le ht', ht⟩

theorem notMem_kmalloced {h : Heap} {n p : Nat} {m : Kmalloc} (hp : p < h.next) :
    p ∉ kmalloced h n m := by
  rw [kmalloced]
  split
  · exact List.not_mem_cons_of_ne_of_not_mem (Nat.ne_of_lt hp) List.not_mem_nil
  · exact List.not_mem_nil

theorem writeSection_eq_some {env : WriteEnv} {c : WriteCall} {k : Kernel}
    {sec : Kernel × Option BufferEntry} (hsection : writeSection env c k = some sec) :
    ∃ w, gatherLine env c k = some w ∧
      (∀ p, InLedger sec.1.heap p ↔ InLedger w.2 p ∧
        p ∉ if w.2.load c.data (w.1 - 1) ≠ newline then [c.addEntry] else []) ∧
      sec.1.dev = if w.2.load c.data (w.1 - 1) ≠ newline then
          { k.dev with isPartial := true, partialEntry := ⟨c.data, toSize w.1⟩ }
        else { k.dev with isPartial := false, buffer := k.dev.buffer.addEntry ⟨c.data, toSize w.1⟩ } := by
  obtain ⟨w, hgather, ⟨hopen, rfl⟩ | ⟨hends, rfl⟩⟩ := writeSection_cases hsection
  · refine ⟨w, hgather, ?_⟩
    rw [if_pos hopen, if_pos hopen]
    refine ⟨fun p => ?_, rfl⟩
    rw [inLedger_free, inLedger_check, List.mem_singleton]
  · refine ⟨w, hgather, ?_⟩
    rw [if_neg (not_not_intro hends), if_neg (not_not_intro hends)]
    refine ⟨fun p => ?_, rfl⟩
    rw [inLedger_check, inLedger_check]
    simp

theorem inLedger_readEpilog (env : ReadEnv) (k : Kernel) (tmpBuf byteOffset count readCount : Nat)
    (fPos : Int) (ubuf : List UInt8) (hunlocked : k.dev.mutex = false) (p : Nat) :
    InLedger (readEpilog env k tmpBuf byteOffset count readCount fPos ubuf).kernel.heap p ↔
      (InLedger k.heap p ∧ p ≠ byteOffset) ∧ p ≠ tmpBuf := by
  rw [readEpilog, hunlocked, if_neg Bool.false_ne_true]
  dsimp only
  split <;> simp only [inLedger_free, inLedger_checkRange]

theorem next_readEpilog (env : ReadEnv) (k : Kernel) (tmpBuf byteOffset count readCount : Nat)
    (fPos : Int) (ubuf : List UInt8) (hunlocked : k.dev.mutex = false) :
    (readEpilog env k tmpBuf byteOffset count readCount fPos ubuf).kernel.heap.next =
      k.heap.next := by
  rw [readEpilog, hunlocked, if_neg Bool.false_ne_true]
  dsimp only
  split <;> simp

theorem log_readEpilog (env : ReadEnv) (k : Kernel) (tmpBuf byteOffset count readCount : Nat)
    (fPos : Int) (ubuf : List UInt8) (hunlocked : k.dev.mutex = false) :
    (readEpilog env k tmpBuf byteOffset count readCount fPos ubuf).kernel.heap.allocated =
        k.heap.allocated ∧
      (readEpilog env k tmpBuf byteOffset count readCount fPos ubuf).kernel.heap.freed =
        k.heap.freed ++ [byteOffset, tmpBuf].filter (· ≠ 0) := by
  have hlog : ((((k.heap.checkRange tmpBuf 0 count).free byteOffset).free tmpBuf).allocated =
      k.heap.allocated) ∧ (((k.heap.checkRange tmpBuf 0 count).free byteOffset).free tmpBuf).freed =
      k.heap.freed ++ [byteOffset, tmpBuf].filter (· ≠ 0) := by
    rw [Heap.allocated_free, Heap.allocated_free, Heap.freed_free, Heap.freed_free]
    by_cases ho : byteOffset = 0 <;> by_cases ht : tmpBuf = 0 <;> simp [ho, ht]
  rw [readEpilog, hunlocked, if_neg Bool.false_ne_true]
  dsimp only
  split <;> exact hlog

namespace DeviceCall
variable {k : Kernel} {r : Kernel × Int}

theorem ledger_write {env : WriteEnv} {buf : List UInt8} (hunlocked : k.dev.mutex = false)
    (hcall : (write env buf).apply k = some r) (p : Nat) :
    InLedger r.1.heap p ↔ (InLedger k.heap p ∨ p ∈ kmallocs k (write env buf)) ∧
      p ∉ kfrees k (write env buf) := by
  obtain ⟨res, hwrite, rfl⟩ := Option.map_eq_some_iff.mp hcall
  rw [aesdWrite_of_unlocked env buf hunlocked] at hwrite
  obtain ⟨sec, hsection, rfl⟩ := Option.map_eq_some_iff.mp hwrite
  obtain ⟨w, hgather, hheap, -⟩ := writeSection_eq_some hsection
  have hgather' : gatherLine env (writeProlog env k buf).1 (writeProlog env k buf).2 = some w :=
    hgather
  obtain ⟨-, hd, -⟩ := writeProlog_lt_next env k buf
  have hnext : (writeProlog env k buf).2.heap.next = (kmalloc (kmalloc (kmalloc k.heap 16
      env.addEntry).2 buf.length env.data).2 (toSize (buf.length + k.dev.partialEntry.size : Nat))
      env.tmp).2.next := by
    simp only [writeProlog, copyFromUser, Heap.next_storeList]
  have hjoined : (writeProlog env k buf).1.data ∉ kmalloced (writeProlog env k buf).2.heap
      (toSize (buf.length + k.dev.partialEntry.size : Nat)) env.joined := notMem_kmalloced hd
  rw [inLedger_free, hheap, inLedger_gatherLine hgather' p, inLedger_writeProlog]
  simp only [kmallocs, kfrees, hgather', List.mem_append, List.mem_singleton]
  rw [← kmalloced_congr hnext]
  have hcount : (writeProlog env k buf).1.count = buf.length := rfl
  have hdev : (writeProlog env k buf).2.dev = k.dev := rfl
  rw [hcount, hdev]
  cases k.dev.isPartial
  · simp only [Bool.false_eq_true, if_false, List.not_mem_nil, not_false_eq_true, and_true,
      or_false, false_or, not_or, and_assoc]
  · simp only [if_true, List.mem_singleton, not_or]
    by_cases hp : p = (writeProlog env k buf).1.data
    · subst hp
      simp only [hjoined, not_true_eq_false, and_false, false_and, or_false]
    · simp only [hp, not_false_eq_true, and_true, true_and, or_assoc, and_assoc]

theorem ledger_read {env : ReadEnv} {ubuf : List UInt8} {count : Nat} {fPos : Int}
    (hunlocked : k.dev.mutex = false) (hcall : (read env ubuf count fPos).apply k = some r)
    (p : Nat) :
    InLedger r.1.heap p ↔ (InLedger k.heap p ∨ p ∈ kmallocs k (read env ubuf count fPos)) ∧
      p ∉ kfrees k (read env ubuf count fPos) := by
  obtain ⟨res, hread, rfl⟩ := Option.map_eq_some_iff.mp hcall
  by_cases hpos : k.dev.buffer.totalSize ≤ fPos
  · rw [aesdRead_pastEnd env count ubuf hunlocked hpos] at hread
    obtain rfl := Option.some.inj hread
    simp only [kmallocs, kfrees, hpos, if_true, inLedger_kmalloc]
    simp
  · simp only [aesdRead, hunlocked, Bool.false_eq_true, if_false, Kernel.mutexLock, Bool.not_true,
      readSection, ge_iff_le, hpos, Option.bind_eq_bind, Option.bind_eq_some_iff] at hread
    obtain ⟨⟨k', sec⟩, ⟨start, -, heq⟩, hread⟩ := hread
    obtain ⟨rfl, rfl⟩ := Prod.mk.inj (Option.some.inj heq)
    obtain rfl := Option.some.inj hread
    dsimp only
    rw [inLedger_readEpilog _ _ _ _ _ _ _ _ rfl]
    simp only [Kernel.mutexUnlock, inLedger_readHelper, inLedger_check, inLedger_kmalloc, kmallocs,
      kfrees, hpos, if_false, List.mem_append, List.mem_cons, List.not_mem_nil, or_false, not_or]
    rw [kmalloced_congr (Heap.next_check _ _ _)]
    tauto

theorem log_write {env : WriteEnv} {buf : List UInt8} (hunlocked : k.dev.mutex = false)
    (hcall : (write env buf).apply k = some r) :
    r.1.heap.allocated = k.heap.allocated ++ kmallocs k (write env buf) ∧
      r.1.heap.freed = k.heap.freed ++ (kfrees k (write env buf)).filter (· ≠ 0) ∧
      k.heap.next ≤ r.1.heap.next ∧ ∀ p ∈ kfrees k (write env buf), p < r.1.heap.next := by
  obtain ⟨res, hwrite, rfl⟩ := Option.map_eq_some_iff.mp hcall
  rw [aesdWrite_of_unlocked env buf hunlocked] at hwrite
  obtain ⟨sec, hsection, rfl⟩ := Option.map_eq_some_iff.mp hwrite
  obtain ⟨w, hgather, hcases⟩ := writeSection_cases hsection
  have hgather' : gatherLine env (writeProlog env k buf).1 (writeProlog env k buf).2 = some w :=
    hgather
  obtain ⟨hallocated, hfreed⟩ := log_gatherLine hgather'
  have hcount : (writeProlog env k buf).1.count = buf.length := rfl
  have hdev : (writeProlog env k buf).2.dev = k.dev := rfl
  have hnext : (writeProlog env k buf).2.heap.next = (kmalloc (kmalloc (kmalloc k.heap 16
      env.addEntry).2 buf.length env.data).2 (toSize (buf.length + k.dev.partialEntry.size : Nat))
      env.tmp).2.next := by
    simp only [writeProlog, copyFromUser, Heap.next_storeList]
  have hallocated' : (writeProlog env k buf).2.heap.allocated = k.heap.allocated ++
      kmalloced k.heap 16 env.addEntry ++
      kmalloced (kmalloc k.heap 16 env.addEntry).2 buf.length env.data ++
      kmalloced (kmalloc (kmalloc k.heap 16 env.addEntry).2 buf.length env.data).2
        (toSize (buf.length + k.dev.partialEntry.size : Nat)) env.tmp := by
    simp only [writeProlog, copyFromUser, Heap.allocated_storeList, allocated_kmalloc]
  have hfreed' : (writeProlog env k buf).2.heap.freed = k.heap.freed := by
    simp only [writeProlog, copyFromUser, Heap.freed_storeList, freed_kmalloc]
  rw [hcount, hdev, hallocated', kmalloced_congr hnext] at hallocated
  rw [hdev, hfreed'] at hfreed
  have hsec : sec.1.heap.allocated = w.2.allocated ∧ sec.1.heap.freed = w.2.freed ++
      (if w.2.load (writeProlog env k buf).1.data (w.1 - 1) ≠ newline then
        [(writeProlog env k buf).1.addEntry] else []).filter (· ≠ 0) ∧
      sec.1.heap.next = w.2.next := by
    rcases hcases with ⟨hopen, rfl⟩ | ⟨hends, rfl⟩
    · rw [if_pos hopen, Heap.allocated_free, Heap.freed_free]
      by_cases ha : (writeProlog env k buf).1.addEntry = 0 <;> simp [ha]
    · rw [if_neg (not_not_intro hends)]
      simp
  have hle : (writeProlog env k buf).2.heap.next ≤ w.2.next := by
    rcases gatherLine_cases hgather' with ⟨-, rfl⟩ | ⟨-, -, rfl⟩
    · exact Nat.le_refl _
    · exact next_le_joinedHeap _ _ _ _
  refine ⟨?_, ?_, ?_, fun p hp => ?_⟩
  · rw [Heap.allocated_free, hsec.1, hallocated]
    simp only [kmallocs, List.append_assoc]
  · rw [Heap.freed_free, hsec.2.1, hfreed]
    simp only [kfrees, hgather', List.filter_append, List.append_assoc]
    by_cases ht : (writeProlog env k buf).1.tmp = 0 <;> simp [ht]
  · rw [Heap.next_free, hsec.2.2]
    exact (writeProlog_handed env k buf).1.trans hle
  · obtain ⟨ha, hd, ht⟩ := writeProlog_lt_next env k buf
    rw [Heap.next_free, hsec.2.2]
    refine lt_of_lt_of_le ?_ hle
    simp only [kfrees, hgather', List.mem_append, List.mem_singleton] at hp
    rcases hp with (hp | hp) | rfl
    · split at hp
      · rw [List.mem_singleton.mp hp]
        exact hd
      · cases hp
    · split at hp
      · rw [List.mem_singleton.mp hp]
        exact ha
      · cases hp
    · exact ht

theorem log_read {env : ReadEnv} {ubuf : List UInt8} {count : Nat} {fPos : Int}
    (hunlocked : k.dev.mutex = false) (hcall : (read env ubuf count fPos).apply k = some r) :
    r.1.heap.allocated = k.heap.allocated ++ kmallocs k (read env ubuf count fPos) ∧
      r.1.heap.freed = k.heap.freed ++ (kfrees k (read env ubuf count fPos)).filter (· ≠ 0) ∧
      ∀ p ∈ kfrees k (read env ubuf count fPos), p < r.1.heap.next := by
  obtain ⟨res, hread, rfl⟩ := Option.map_eq_some_iff.mp hcall
  by_cases hpos : k.dev.buffer.totalSize ≤ fPos
  · rw [aesdRead_pastEnd env count ubuf hunlocked hpos] at hread
    obtain rfl := Option.some.inj hread
    simp [kmallocs, kfrees, hpos, allocated_kmalloc]
  · simp only [aesdRead, hunlocked, Bool.false_eq_true, if_false, Kernel.mutexLock, Bool.not_true,
      readSection, ge_iff_le, hpos, Option.bind_eq_bind, Option.bind_eq_some_iff] at hread
    obtain ⟨⟨k', sec⟩, ⟨start, -, heq⟩, hread⟩ := hread
    obtain ⟨rfl, rfl⟩ := Prod.mk.inj (Option.some.inj heq)
    obtain rfl := Option.some.inj hread
    dsimp only
    rw [(log_readEpilog _ _ _ _ _ _ _ _ rfl).1, (log_readEpilog _ _ _ _ _ _ _ _ rfl).2]
    simp only [Kernel.mutexUnlock, (log_readHelper _ _ _ _ _ _ _ _).1,
      (log_readHelper _ _ _ _ _ _ _ _).2, Heap.allocated_check, Heap.freed_check,
      allocated_kmalloc, freed_kmalloc, kmallocs, kfrees, hpos, if_false, List.append_assoc]
    rw [kmalloced_congr (Heap.next_check _ _ _)]
    refine ⟨rfl, trivial, fun p hp => ?_⟩
    have hle := next_le_readHelper ((kmalloc (kmalloc k.heap count env.tmpBuf).2 8
      env.byteOffset).2.check (kmalloc (kmalloc k.heap count env.tmpBuf).2 8 env.byteOffset).1 0)
      k.dev.buffer start.1 (readStop k.dev.buffer start.1) (kmalloc k.heap count env.tmpBuf).1 count
      start.2 env.tmp
    rw [next_readEpilog _ _ _ _ _ _ _ _ rfl]
    refine lt_of_lt_of_le ?_ hle
    have ht := kmalloc_lt_next k.heap count env.tmpBuf
    have ho := kmalloc_lt_next (kmalloc k.heap count env.tmpBuf).2 8 env.byteOffset
    have hto := next_le_kmalloc (kmalloc k.heap count env.tmpBuf).2 8 env.byteOffset
    rw [Heap.next_check]
    rcases List.mem_pair.mp hp with rfl | rfl
    · exact ho
    · exact ht.trans_le hto

/-- The two lists of a call are what the heap logs of it; freeing `NULL` is not logged. -/
theorem log {call : DeviceCall} (hunlocked : k.dev.mutex = false) (hcall : call.apply k = some r) :
    r.1.heap.allocated = k.heap.allocated ++ kmallocs k call ∧
      r.1.heap.freed = k.heap.freed ++ (kfrees k call).filter (· ≠ 0) := by
  cases call with
  | read env ubuf count fPos => exact ⟨(log_read hunlocked hcall).1, (log_read hunlocked hcall).2.1⟩
  | write env buf => exact ⟨(log_write hunlocked hcall).1, (log_write hunlocked hcall).2.1⟩
  | seekto target =>
      rw [apply, aesdIoctl_seekto] at hcall
      obtain rfl := Option.some.inj hcall
      simp [kmallocs, kfrees, adjustFileOffset]
  | flush =>
      rw [apply, aesdIoctl_flush] at hcall
      obtain rfl := Option.some.inj hcall
      simp only [kmallocs, List.append_nil]
      exact log_released k.dev.buffer _ k.heap
  | cleanup =>
      obtain rfl := Option.some.inj hcall
      simp only [kmallocs, List.append_nil]
      exact log_released k.dev.buffer _ k.heap

/-- The ledger gains what a call is handed out and loses what it frees. -/
theorem ledger {call : DeviceCall} (hunlocked : k.dev.mutex = false) (hcall : call.apply k = some r)
    (p : Nat) :
    InLedger r.1.heap p ↔ (InLedger k.heap p ∨ p ∈ kmallocs k call) ∧ p ∉ kfrees k call := by
  cases call with
  | read env ubuf count fPos => exact ledger_read hunlocked hcall p
  | write env buf => exact ledger_write hunlocked hcall p
  | seekto target =>
      rw [apply, aesdIoctl_seekto] at hcall
      obtain rfl := Option.some.inj hcall
      simp [kmallocs, kfrees, adjustFileOffset, InLedger]
  | flush =>
      rw [apply, aesdIoctl_flush] at hcall
      obtain rfl := Option.some.inj hcall
      simp only [kmallocs, kfrees, List.not_mem_nil, or_false]
      exact inLedger_released k.dev.buffer _ k.heap p
  | cleanup =>
      obtain rfl := Option.some.inj hcall
      simp only [kmallocs, kfrees, List.not_mem_nil, or_false]
      exact inLedger_released k.dev.buffer _ k.heap p

end DeviceCall

def Refers (d : AesdDev) (p : Nat) : Prop :=
  p ≠ 0 ∧ ((∃ e ∈ d.buffer.live, e.buffptr = p) ∨ d.isPartial = true ∧ d.partialEntry.buffptr = p)

/-- After the call the ledger has the blocks that the device refers to and no other ones; of all
blocks freed since the module was loaded none has been freed twice; and a flush, or the end of
the module, has left none. -/
structure Accounted (_ : Kernel) (call : DeviceCall) (k' : Kernel) : Prop where
  exact : call ≠ .cleanup → ∀ p, InLedger k'.heap p ↔ Refers k'.dev p
  freed_once : k'.heap.freed.Nodup
  released : call = .flush ∨ call = .cleanup → ∀ p, ¬ InLedger k'.heap p

namespace DeviceCall

def Valid : DeviceCall → Prop
  | write _ buf => buf ≠ [] ∧ buf.length < 2 ^ 63
  | _ => True

def Allocates : DeviceCall → Prop
  | read env _ _ _ => env.Allocates
  | write env _ => env.addEntry.isSome ∧ env.data.isSome ∧ env.tmp.isSome ∧ env.joined.isSome
  | _ => True

/-- A seek command, a read of no bytes, the first part of a line, or a flush or the end of the
module while no line is pending. -/
def Balanced (k : Kernel) : DeviceCall → Prop
  | read _ _ count _ => count = 0
  | write env buf => k.dev.isPartial = false ∧ (env.uncopied ≠ 0 ∨ buf.getLast? ≠ some newline)
  | seekto _ => True
  | flush => k.dev.isPartial = false
  | cleanup => k.dev.isPartial = false

end DeviceCall

structure Unfilled (k : Kernel) : Prop where
  unlocked : k.dev.mutex = false
  inOffs : k.dev.buffer.inOffs = 0
  outOffs : k.dev.buffer.outOffs = 0
  full : k.dev.buffer.full = false
  ledger : ∀ p, InLedger k.heap p ↔
    p ≠ 0 ∧ k.dev.isPartial = true ∧ k.dev.partialEntry.buffptr = p
  freed_nodup : k.heap.freed.Nodup
  freed_lt : ∀ p ∈ k.heap.freed, p < k.heap.next

namespace Unfilled
variable {k : Kernel}

theorem live (u : Unfilled k) : k.dev.buffer.live = [] := by
  rw [CircularBuffer.live, u.full, u.inOffs]
  rfl

theorem refers_iff (u : Unfilled k) (p : Nat) :
    Refers k.dev p ↔ p ≠ 0 ∧ k.dev.isPartial = true ∧ k.dev.partialEntry.buffptr = p := by
  rw [Refers, u.live]
  simp

theorem released (u : Unfilled k) : DeviceCall.released k.dev.buffer = [] := by
  rw [DeviceCall.released, u.inOffs]
  simp

theorem start (slots : Vector BufferEntry 10) (unset : Unset) :
    Unfilled (initModule slots unset) where
  unlocked := rfl
  inOffs := rfl
  outOffs := rfl
  full := rfl
  ledger p := by simp [initModule, InLedger, Heap.empty]
  freed_nodup := List.nodup_nil
  freed_lt p hp := by cases hp

theorem of_ledger (u : Unfilled k) {call : DeviceCall} {r : Kernel × Int}
    (hcall : call.apply k = some r) (hunlocked : r.1.dev.mutex = false)
    (hin : r.1.dev.buffer.inOffs = 0) (hout : r.1.dev.buffer.outOffs = 0)
    (hfull : r.1.dev.buffer.full = false)
    (hledger : ∀ p, InLedger r.1.heap p ↔
      p ≠ 0 ∧ r.1.dev.isPartial = true ∧ r.1.dev.partialEntry.buffptr = p)
    (hown : ((call.kfrees k).filter (· ≠ 0)).Nodup ∧
      ∀ p ∈ call.kfrees k, p ≠ 0 → k.heap.next ≤ p ∧ p < r.1.heap.next)
    (hnext : k.heap.next ≤ r.1.heap.next)
    (hreleased : call = .flush ∨ call = .cleanup → r.1.dev.isPartial = false) :
    Accounted k call r.1 ∧ Unfilled r.1 := by
  have hfreed := (DeviceCall.log u.unlocked hcall).2
  have hmine : ∀ p ∈ (call.kfrees k).filter (· ≠ 0), k.heap.next ≤ p ∧ p < r.1.heap.next := by
    intro p hp
    rw [List.mem_filter, decide_eq_true_eq] at hp
    exact hown.2 p hp.1 hp.2
  have hnodup : r.1.heap.freed.Nodup := by
    rw [hfreed, List.nodup_append]
    refine ⟨u.freed_nodup, hown.1, fun p hp q hq heq => ?_⟩
    have hold := u.freed_lt p hp
    have hnew := (hmine q hq).1
    omega
  have hlt : ∀ p ∈ r.1.heap.freed, p < r.1.heap.next := by
    rw [hfreed]
    intro p hp
    rcases List.mem_append.mp hp with hp | hp
    · exact (u.freed_lt p hp).trans_le hnext
    · exact (hmine p hp).2
  have u' : Unfilled r.1 := ⟨hunlocked, hin, hout, hfull, hledger, hnodup, hlt⟩
  refine ⟨⟨fun _ p => (hledger p).trans (u'.refers_iff p).symm, hnodup, fun hends p hp => ?_⟩, u'⟩
  have hpart := ((hledger p).mp hp).2.1
  rw [hreleased hends] at hpart
  cases hpart

theorem nodup_filter_pair {a b : Nat} (h : a ≠ 0 → a ≠ b) : ([a, b].filter (· ≠ 0)).Nodup := by
  by_cases ha : a = 0 <;> by_cases hb : b = 0 <;> simp [ha, hb]
  exact h ha

theorem read_empty (u : Unfilled k) {env : ReadEnv} {ubuf : List UInt8} {fPos : Int}
    {r : Kernel × Int} (hcall : (DeviceCall.read env ubuf 0 fPos).apply k = some r) :
    Accounted k (.read env ubuf 0 fPos) r.1 ∧ Unfilled r.1 := by
  have hledger := DeviceCall.ledger u.unlocked hcall
  have hlog := DeviceCall.log_read u.unlocked hcall
  obtain ⟨res, hread, rfl⟩ := Option.map_eq_some_iff.mp hcall
  obtain ⟨hnext, hdev⟩ := aesdRead_dev u.unlocked hread
  have hpos := k.heap.next_pos
  have ht := kmalloc_fst k.heap 0 env.tmpBuf
  have hlt := kmalloc_lt_next k.heap 0 env.tmpBuf
  have hle := next_le_kmalloc k.heap 0 env.tmpBuf
  have ho := kmalloc_fst (kmalloc k.heap 0 env.tmpBuf).2 8 env.byteOffset
  have hsame : ∀ p, InLedger res.kernel.heap p ↔ InLedger k.heap p := by
    intro p
    rw [hledger p]
    by_cases hend : k.dev.buffer.totalSize ≤ fPos
    · simp [DeviceCall.kmallocs, DeviceCall.kfrees, hend, kmalloced]
    · have hempty : ∀ h m, kmalloced h 0 m = [] := fun h m => by simp [kmalloced]
      simp only [DeviceCall.kmallocs, DeviceCall.kfrees, hend, if_false, hempty, List.nil_append,
        List.append_nil, List.mem_cons, List.not_mem_nil, or_false, not_or]
      constructor
      · rintro ⟨hin | hfresh, hne, -⟩
        · exact hin
        · obtain ⟨heq, hptr⟩ := mem_kmalloced hfresh
          exact absurd (heq.trans hptr.symm) hne
      · intro hin
        have hold := hin.lt_next
        have hne := hin.ne_zero
        exact ⟨Or.inl hin, by omega, by omega⟩
  refine u.of_ledger hcall (by rw [hdev]; exact u.unlocked) (by rw [hdev]; exact u.inOffs)
    (by rw [hdev]; exact u.outOffs) (by rw [hdev]; exact u.full) (fun p => ?_) ⟨?_, fun p hp hne => ?_⟩
    hnext (fun h => by rcases h with h | h <;> cases h)
  · rw [hsame, u.ledger, hdev]
  · rw [DeviceCall.kfrees]
    split
    · exact List.nodup_nil
    · exact nodup_filter_pair (by omega)
  · refine ⟨?_, hlog.2.2 p hp⟩
    rw [DeviceCall.kfrees] at hp
    split at hp
    · cases hp
    · rcases List.mem_pair.mp hp with rfl | rfl <;> omega

theorem write_first (u : Unfilled k) {env : WriteEnv} {buf : List UInt8} {r : Kernel × Int}
    (hne : buf ≠ []) (hlen : buf.length < 2 ^ 63) (hpart : k.dev.isPartial = false)
    (hlast : env.uncopied ≠ 0 ∨ buf.getLast? ≠ some newline)
    (hcall : (DeviceCall.write env buf).apply k = some r) :
    Accounted k (.write env buf) r.1 ∧ Unfilled r.1 := by
  have hledger := DeviceCall.ledger u.unlocked hcall
  have hlog := DeviceCall.log_write u.unlocked hcall
  have hnext := hlog.2.2.1
  obtain ⟨res, hwrite, rfl⟩ := Option.map_eq_some_iff.mp hcall
  rw [aesdWrite_of_unlocked env buf u.unlocked] at hwrite
  obtain ⟨sec, hsection, rfl⟩ := Option.map_eq_some_iff.mp hwrite
  obtain ⟨w, hgather, -, hdev⟩ := writeSection_eq_some hsection
  have hsingle : w = (toSsize buf.length, (writeProlog env k buf).2.heap) := by
    rw [← show (writeProlog env k buf).1.count = buf.length from rfl]
    exact gatherLine_of_clear hpart hgather
  have hkept : w.2.load (writeProlog env k buf).1.data (w.1 - 1) ≠ newline := by
    rw [hsingle, toSsize_of_lt hlen]
    exact (load_writeProlog_last env k hne).mpr hlast
  rw [if_pos hkept] at hdev
  have hfrees : DeviceCall.kfrees k (.write env buf) =
      [(writeProlog env k buf).1.addEntry, (writeProlog env k buf).1.tmp] := by
    have hgather' : gatherLine env (writeProlog env k buf).1 (writeProlog env k buf).2 = some w :=
      hgather
    rw [DeviceCall.kfrees, hgather', hpart]
    simp [hkept]
  have hpos := k.heap.next_pos
  obtain ⟨ha, hd, ht⟩ := writeProlog_fresh env k buf
  refine u.of_ledger hcall rfl (by simp only [Kernel.mutexUnlock, hdev]; exact u.inOffs)
    (by simp only [Kernel.mutexUnlock, hdev]; exact u.outOffs)
    (by simp only [Kernel.mutexUnlock, hdev]; exact u.full) (fun p => ?_) ⟨?_, fun p hp hne => ?_⟩
    hnext (fun h => by rcases h with h | h <;> cases h)
  · rw [hledger p, hfrees]
    simp only [DeviceCall.kmallocs, hpart, Bool.false_eq_true, if_false, List.append_nil,
      u.ledger, Kernel.mutexUnlock, hdev, List.mem_append, List.mem_cons, List.not_mem_nil,
      or_false, not_or, false_and, and_false, false_or, true_and]
    show _ ↔ p ≠ 0 ∧ (writeProlog env k buf).1.data = p
    constructor
    · rintro ⟨(hin | hin) | hin, hna, hnt⟩
      · obtain ⟨heq, hptr⟩ := mem_kmalloced hin
        exact absurd (heq.trans hptr.symm) hna
      · obtain ⟨heq, hptr⟩ := mem_kmalloced hin
        have hle := next_le_kmalloc k.heap 16 env.addEntry
        exact ⟨by omega, hptr.trans heq.symm⟩
      · obtain ⟨heq, hptr⟩ := mem_kmalloced hin
        exact absurd (heq.trans hptr.symm) hnt
    · rintro ⟨hp, rfl⟩
      have hapart := (hd hp).2
      refine ⟨Or.inl (Or.inr (kmalloc_mem (List.length_pos_iff.mpr hne) hp)), hapart.ne', fun heq => ?_⟩
      have hbehind := (ht (by rw [← heq]; exact hp)).2.2
      exact hbehind.ne heq
  · rw [hfrees]
    exact nodup_filter_pair (by omega)
  · refine ⟨?_, hlog.2.2.2 p hp⟩
    rw [hfrees] at hp
    rcases List.mem_pair.mp hp with rfl | rfl <;> omega

theorem accounted (u : Unfilled k) {call : DeviceCall} {r : Kernel × Int} (hvalid : call.Valid)
    (hcall : call.apply k = some r) (hbalanced : call.Balanced k) :
    Accounted k call r.1 ∧ Unfilled r.1 := by
  cases call with
  | read env ubuf count fPos =>
      obtain rfl : count = 0 := hbalanced
      exact u.read_empty hcall
  | write env buf => exact u.write_first hvalid.1 hvalid.2 hbalanced.1 hbalanced.2 hcall
  | seekto target =>
      rw [DeviceCall.apply, aesdIoctl_seekto] at hcall
      obtain rfl := Option.some.inj hcall
      have hcall : DeviceCall.apply k (.seekto target) = some _ := rfl
      exact u.of_ledger hcall u.unlocked u.inOffs u.outOffs u.full u.ledger
        ⟨List.nodup_nil, fun p hp => by cases hp⟩ (Nat.le_refl _)
        (fun h => by rcases h with h | h <;> cases h)
  | flush =>
      have hledger := DeviceCall.ledger u.unlocked hcall
      rw [DeviceCall.apply, aesdIoctl_flush] at hcall
      obtain rfl := Option.some.inj hcall
      refine u.of_ledger hcall u.unlocked rfl rfl rfl (fun p => ?_) ⟨?_, fun p hp => ?_⟩
        (next_released _ _ _).ge (fun _ => rfl)
      · rw [hledger p, DeviceCall.kfrees, u.released, u.ledger, show k.dev.isPartial = false from
          hbalanced]
        simp [DeviceCall.kmallocs, aesdFlush]
      · rw [DeviceCall.kfrees, u.released]
        exact List.nodup_nil
      · rw [DeviceCall.kfrees, u.released] at hp
        cases hp
  | cleanup =>
      have hledger := DeviceCall.ledger u.unlocked hcall
      obtain rfl := Option.some.inj hcall
      refine u.of_ledger hcall u.unlocked u.inOffs u.outOffs u.full (fun p => ?_)
        ⟨?_, fun p hp => ?_⟩ (next_released _ _ _).ge (fun _ => hbalanced)
      · rw [hledger p, DeviceCall.kfrees, u.released, u.ledger]
        simp [DeviceCall.kmallocs, cleanupModule]
      · rw [DeviceCall.kfrees, u.released]
        exact List.nodup_nil
      · rw [DeviceCall.kfrees, u.released] at hp
        cases hp

theorem refers_of_kmalloc (u : Unfilled k) {call : DeviceCall} {r : Kernel × Int}
    (hcall : call.apply k = some r) (hacc : Accounted k call r.1) (hend : call ≠ .cleanup) {p : Nat}
    (hnew : p ∈ call.kmallocs k) (hfree : p ∉ call.kfrees k) : Refers r.1.dev p :=
  (hacc.exact hend p).mp ((DeviceCall.ledger u.unlocked hcall p).mpr ⟨Or.inr hnew, hfree⟩)

theorem live_addEntry (u : Unfilled k) (e : BufferEntry) :
    (k.dev.buffer.addEntry e).live = [e] := by
  have hslot := k.dev.buffer.slot_setIfInBounds e (Nat.succ_pos 9) 0
    (c := k.dev.buffer.addEntry e) (by simp [CircularBuffer.addEntry, u.full, u.inOffs])
  have hin : (k.dev.buffer.addEntry e).inOffs = 1 := by
    simp [CircularBuffer.addEntry, u.full, u.inOffs, CircularBuffer.advance]
  have hout : (k.dev.buffer.addEntry e).outOffs = 0 := by
    simp [CircularBuffer.addEntry, u.full, u.outOffs]
  have hfull : (k.dev.buffer.addEntry e).full = false := by
    simp [CircularBuffer.addEntry, u.full, u.inOffs]
  rw [CircularBuffer.live, hfull, hin, hout]
  simpa using hslot

theorem writeProlog_blocks {env : WriteEnv} {buf : List UInt8}
    (halloc : (DeviceCall.write env buf).Allocates) (k : Kernel) :
    (writeProlog env k buf).1.addEntry = k.heap.next ∧
      (writeProlog env k buf).1.data = k.heap.next + 1 ∧
      (writeProlog env k buf).1.tmp = k.heap.next + 2 := by
  obtain ⟨a, ha⟩ := Option.isSome_iff_exists.mp halloc.1
  obtain ⟨d, hd⟩ := Option.isSome_iff_exists.mp halloc.2.1
  obtain ⟨t, ht⟩ := Option.isSome_iff_exists.mp halloc.2.2.1
  simp [writeProlog, ha, hd, ht]

theorem not_refers (u : Unfilled k) {p : Nat} (hp : k.heap.next ≤ p) : ¬ Refers k.dev p := by
  rw [u.refers_iff, ← u.ledger]
  exact fun hin => Nat.not_lt.mpr hp hin.lt_next

theorem count_eq_zero (u : Unfilled k) {env : ReadEnv} {ubuf : List UInt8} {count : Nat}
    {fPos : Int} {r : Kernel × Int} (halloc : env.Allocates)
    (hcall : (DeviceCall.read env ubuf count fPos).apply k = some r)
    (hacc : Accounted k (.read env ubuf count fPos) r.1) : count = 0 := by
  by_contra hcount
  have hpos := Nat.pos_of_ne_zero hcount
  obtain ⟨tmpBuf, byteOffset, stale, tmp, uncopied⟩ := env
  obtain ⟨a, rfl⟩ := Option.isSome_iff_exists.mp (show tmpBuf.isSome from halloc.tmpBuf)
  obtain ⟨o, rfl⟩ := Option.isSome_iff_exists.mp (show byteOffset.isSome from halloc.byteOffset)
  obtain ⟨t, rfl⟩ := Option.isSome_iff_exists.mp (show tmp.isSome from halloc.tmp)
  have hrefers := fun p => u.refers_of_kmalloc (p := p) hcall hacc (fun h => by cases h)
  obtain ⟨res, hread, rfl⟩ := Option.map_eq_some_iff.mp hcall
  obtain ⟨-, hdev⟩ := aesdRead_dev u.unlocked hread
  have hnot : ∀ p, k.heap.next ≤ p → ¬ Refers res.kernel.dev p := by
    intro p hp
    rw [hdev]
    exact u.not_refers hp
  by_cases hend : k.dev.buffer.totalSize ≤ fPos
  · refine hnot _ (Nat.le_refl _) (hrefers k.heap.next ?_ ?_)
    · simp [DeviceCall.kmallocs, kmalloced, hpos]
    · simp [DeviceCall.kfrees, hend]
  · refine hnot _ (Nat.le_add_right _ 2) (hrefers (k.heap.next + 2) ?_ ?_)
    · simp [DeviceCall.kmallocs, kmalloced, hpos, hend]
    · simp [DeviceCall.kfrees, hend]

theorem first_part (u : Unfilled k) {env : WriteEnv} {buf : List UInt8} {r : Kernel × Int}
    (hvalid : (DeviceCall.write env buf).Valid) (halloc : (DeviceCall.write env buf).Allocates)
    (hcall : (DeviceCall.write env buf).apply k = some r)
    (hacc : Accounted k (.write env buf) r.1) : (DeviceCall.write env buf).Balanced k := by
  have hledger := DeviceCall.ledger u.unlocked hcall
  have hptrs := writeProlog_blocks halloc k
  obtain ⟨res, hwrite, rfl⟩ := Option.map_eq_some_iff.mp hcall
  rw [aesdWrite_of_unlocked env buf u.unlocked] at hwrite
  obtain ⟨sec, hsection, rfl⟩ := Option.map_eq_some_iff.mp hwrite
  obtain ⟨w, hgather, -, hdev⟩ := writeSection_eq_some hsection
  have hgather' : gatherLine env (writeProlog env k buf).1 (writeProlog env k buf).2 = some w :=
    hgather
  obtain ⟨hadd, hdat, htmp⟩ := hptrs
  by_contra hnot
  cases hpart : k.dev.isPartial
  · have hcomplete : ¬ (env.uncopied ≠ 0 ∨ buf.getLast? ≠ some newline) := fun h => hnot ⟨hpart, h⟩
    have hsingle : w = (toSsize buf.length, (writeProlog env k buf).2.heap) := by
      rw [← show (writeProlog env k buf).1.count = buf.length from rfl]
      exact gatherLine_of_clear hpart hgather'
    have hline : ¬ w.2.load (writeProlog env k buf).1.data (w.1 - 1) ≠ newline := by
      rw [hsingle, toSsize_of_lt hvalid.2]
      exact fun h => hcomplete ((load_writeProlog_last env k hvalid.1).mp h)
    rw [if_neg hline] at hdev
    have hrefers := u.refers_of_kmalloc hcall hacc (fun h => by cases h)
      (show k.heap.next ∈ _ by simp [DeviceCall.kmallocs, kmalloced, halloc.1])
      (by
        rw [DeviceCall.kfrees, hgather', hpart]
        simp [hline, htmp])
    rw [Refers, Kernel.mutexUnlock, hdev] at hrefers
    rcases hrefers.2 with ⟨e, he, heq⟩ | ⟨h, -⟩
    · dsimp only at he
      rw [show (writeProlog env k buf).2.mutexLock.dev.buffer = k.dev.buffer from rfl,
        u.live_addEntry, List.mem_singleton] at he
      rw [he] at heq
      dsimp only at heq
      omega
    · cases h
  · have hfreed : (writeProlog env k buf).1.data ∈ DeviceCall.kfrees k (.write env buf) := by
      rw [DeviceCall.kfrees, hgather', hpart]
      simp
    refine ((hledger _).mp ((hacc.exact (fun h => by cases h) _).mpr ⟨by omega, ?_⟩)).2 hfreed
    rw [Kernel.mutexUnlock, hdev]
    split
    · exact Or.inr ⟨rfl, rfl⟩
    · refine Or.inl ⟨⟨(writeProlog env k buf).1.data, toSize w.1⟩, ?_, rfl⟩
      dsimp only
      rw [show (writeProlog env k buf).2.mutexLock.dev.buffer = k.dev.buffer from rfl,
        u.live_addEntry]
      exact List.mem_singleton_self _

theorem balanced (u : Unfilled k) (hptr : k.dev.isPartial = true → k.dev.partialEntry.buffptr ≠ 0)
    {call : DeviceCall} {r : Kernel × Int} (hvalid : call.Valid) (halloc : call.Allocates)
    (hcall : call.apply k = some r) (hacc : Accounted k call r.1) : call.Balanced k := by
  have hkept : k.dev.isPartial = true → InLedger k.heap k.dev.partialEntry.buffptr := fun hpart =>
    (u.ledger _).mpr ⟨hptr hpart, hpart, rfl⟩
  have hledger := DeviceCall.ledger u.unlocked hcall
  cases call with
  | read env ubuf count fPos => exact u.count_eq_zero halloc hcall hacc
  | write env buf => exact u.first_part hvalid halloc hcall hacc
  | seekto target => trivial
  | flush =>
      refine Bool.eq_false_iff.mpr fun hpart => ?_
      refine hacc.released (Or.inl rfl) _ ((hledger _).mpr ⟨Or.inl (hkept hpart), ?_⟩)
      rw [DeviceCall.kfrees, u.released]
      exact List.not_mem_nil
  | cleanup =>
      refine Bool.eq_false_iff.mpr fun hpart => ?_
      refine hacc.released (Or.inr rfl) _ ((hledger _).mpr ⟨Or.inl (hkept hpart), ?_⟩)
      rw [DeviceCall.kfrees, u.released]
      exact List.not_mem_nil

theorem partial_ne_zero (u : Unfilled k)
    (hptr : k.dev.isPartial = true → k.dev.partialEntry.buffptr ≠ 0) {call : DeviceCall}
    {r : Kernel × Int} (halloc : call.Allocates) (hcall : call.apply k = some r)
    (hpart : r.1.dev.isPartial = true) : r.1.dev.partialEntry.buffptr ≠ 0 := by
  cases call with
  | read env ubuf count fPos =>
      obtain ⟨res, hread, rfl⟩ := Option.map_eq_some_iff.mp hcall
      obtain ⟨-, hdev⟩ := aesdRead_dev u.unlocked hread
      rw [hdev] at hpart ⊢
      exact hptr hpart
  | write env buf =>
      obtain ⟨-, hdat, -⟩ := writeProlog_blocks halloc k
      obtain ⟨res, hwrite, rfl⟩ := Option.map_eq_some_iff.mp hcall
      rw [aesdWrite_of_unlocked env buf u.unlocked] at hwrite
      obtain ⟨sec, hsection, rfl⟩ := Option.map_eq_some_iff.mp hwrite
      obtain ⟨w, -, -, hdev⟩ := writeSection_eq_some hsection
      rw [Kernel.mutexUnlock, hdev] at hpart ⊢
      split at hpart
      · rename_i hkept
        rw [if_pos hkept, hdat]
        exact Nat.succ_ne_zero _
      · cases hpart
  | seekto target =>
      rw [DeviceCall.apply, aesdIoctl_seekto] at hcall
      obtain rfl := Option.some.inj hcall
      exact hptr hpart
  | flush =>
      rw [DeviceCall.apply, aesdIoctl_flush] at hcall
      obtain rfl := Option.some.inj hcall
      cases hpart
  | cleanup =>
      obtain rfl := Option.some.inj hcall
      exact hptr hpart

end Unfilled

/-- The driver's allocations. In a run of calls from the load of the module, with any outcome of
their kernel calls, every block is accounted for after every call if all the calls are
balanced; with allocations that succeed, only then. -/
theorem blocks_accounted (slots : Vector BufferEntry 10) (unset : Unset) (calls : List DeviceCall)
    (hvalid : ∀ call ∈ calls, call.Valid) :
    (Always DeviceCall.apply (fun k call _ => call.Balanced k) (initModule slots unset) calls →
      Always DeviceCall.apply Accounted (initModule slots unset) calls) ∧
    ((∀ call ∈ calls, call.Allocates) →
      Always DeviceCall.apply Accounted (initModule slots unset) calls →
      Always DeviceCall.apply (fun k call _ => call.Balanced k) (initModule slots unset) calls) := by
  have hstart := Unfilled.start slots unset
  refine ⟨Always.imp Unfilled DeviceCall.Valid (fun k call r u hv hcall hb =>
    u.accounted hv hcall hb) hstart hvalid, fun halloc => ?_⟩
  refine Always.imp (fun k => Unfilled k ∧
      (k.dev.isPartial = true → k.dev.partialEntry.buffptr ≠ 0))
    (fun call => call.Valid ∧ call.Allocates) ?_ ⟨hstart, fun h => by cases h⟩
    fun call hcall => ⟨hvalid call hcall, halloc call hcall⟩
  rintro k call r ⟨u, hptr⟩ ⟨hv, ha⟩ hcall hacc
  have hb := u.balanced hptr hv ha hcall hacc
  exact ⟨hb, (u.accounted hv hcall hb).2, u.partial_ne_zero hptr ha hcall⟩

theorem blocks_accounted_first_part :
    Always DeviceCall.apply Accounted (initModule CircularBuffer.init.entry .zeroed)
      [.flush, .seekto ⟨0, 0⟩, .write .zeroed [97]] := by
  refine (blocks_accounted CircularBuffer.init.entry .zeroed _ (by simp [DeviceCall.Valid])).1
    fun r hr => ⟨rfl, ?_⟩
  rw [DeviceCall.apply, aesdIoctl_flush] at hr
  obtain rfl := Option.some.inj hr
  refine fun r hr => ⟨trivial, ?_⟩
  rw [DeviceCall.apply, aesdIoctl_seekto] at hr
  obtain rfl := Option.some.inj hr
  exact fun r hr => ⟨⟨rfl, Or.inr (by decide)⟩, trivial⟩

/-- One complete line leaves its `add_entry` behind. -/
theorem not_accounted_line :
    ¬ Always DeviceCall.apply Accounted (initModule CircularBuffer.init.entry .zeroed)
      [.write .zeroed [97, 10]] := by
  intro h
  have hreturns : ((DeviceCall.write .zeroed [97, 10]).apply
      (initModule CircularBuffer.init.entry .zeroed)).isSome = true := by decide +kernel
  obtain ⟨r, hr⟩ := Option.isSome_iff_exists.mp hreturns
  have hbalanced := (Unfilled.start CircularBuffer.init.entry .zeroed).balanced (fun h => by cases h)
    (by simp [DeviceCall.Valid]) (by simp [DeviceCall.Allocates, WriteEnv.zeroed]) hr (h r hr).1
  exact hbalanced.2.elim (fun h => h rfl) (fun h => h (by decide))

end Aesd

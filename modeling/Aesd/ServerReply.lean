import Aesd.DeviceRuns
import Aesd.ReadDelivery
import Aesd.SocketServer

/-! The server's answer. `return_socket_data` takes a block that is not full for the last one;
the driver also hands over such a block where the lines in front of the slot array's end
run out. -/
namespace Aesd
open FixedWidth Memory Concat

/-- Outcomes of the kernel calls of the `n`-th call that reaches the driver. -/
structure DeviceEnv where
  read : Nat → ReadEnv
  write : Nat → WriteEnv

structure DeviceWorld where
  kernel : Kernel
  fPos : Int
  calls : Nat
  incoming : List (List UInt8)
  sent : List UInt8

/-- Opening and sending succeed, and `recv` hands over one chunk after the other. -/
def deviceSyscalls (env : DeviceEnv) : Syscalls DeviceWorld where
  openAppend w := (3, w)
  openRead w := (3, { w with fPos := 0 })
  close _ w := w
  read _ buf count w := (aesdRead (env.read w.calls) w.kernel buf count w.fPos).map fun res =>
    (res.ret, res.ubuf, { w with kernel := res.kernel, fPos := res.fPos, calls := w.calls + 1 })
  write _ buf w := (aesdWrite (env.write w.calls) w.kernel buf).map fun res =>
    (res.ret, { w with kernel := res.kernel, calls := w.calls + 1 })
  ioctlSeekto _ seekto w :=
    let r := aesdIoctl w.kernel iocSeekto (some seekto)
    (r.2, { w with kernel := r.1 })
  recv _ w := match w.incoming with
    | [] => none
    | chunk :: chunks => some (chunk.length, chunk, { w with incoming := chunks })
  send bytes w := some (bytes.length, { w with sent := w.sent ++ bytes })

def backBytes (b : CircularBuffer) (lines : List (List UInt8)) : Nat :=
  ((lines.map List.length).take (10 - b.outOffs)).sum

def stretchEnd (b : CircularBuffer) (lines : List (List UInt8)) (p : Nat) : Nat :=
  if p < backBytes b lines then backBytes b lines else (contents lines).length

/-- A block read from position `p` starts with a line, or lies within one, or starts in a line
shorter than a block and is the last one of its stretch. -/
def BlockFits (b : CircularBuffer) (lines : List (List UInt8)) (p : Nat) : Prop :=
  ∀ j off, (hj : j < lines.length) → off < lines[j].length →
    ((lines.map List.length).take j).sum + off = p →
    off = 0 ∨ off + bufSize ≤ lines[j].length ∨
      lines[j].length < bufSize ∧ stretchEnd b lines p < p + bufSize

/-- Blocks from position `n * BUF_SIZE` on end where the log does, and each of them fits. -/
structure BlocksFrom (b : CircularBuffer) (lines : List (List UInt8)) (n : Nat) : Prop where
  wrap : n * bufSize < backBytes b lines →
    bufSize ∣ backBytes b lines ∨ backBytes b lines = (contents lines).length
  fits : ∀ i, n ≤ i → BlockFits b lines (i * bufSize)

/-- The server answers with the log and returns 0, and no access is out of bounds. -/
def RepliesWithLog (env : DeviceEnv) (lines : List (List UInt8)) (buf : List UInt8)
    (w : DeviceWorld) : Prop :=
  ∃ fuel w', returnSocketData (deviceSyscalls env) fuel buf w = some (0, w') ∧
    w'.sent = w.sent ++ contents lines ∧ w'.kernel.heap.fault = false

section Blocks
variable {b : CircularBuffer} {lines : List (List UInt8)} {n p : Nat}

theorem backBytes_le (b : CircularBuffer) (lines : List (List UInt8)) :
    backBytes b lines ≤ (contents lines).length := by
  rw [backBytes, length_contents]
  exact (List.take_sublist _ _).sum_le_sum fun _ _ => Nat.zero_le _

theorem stretchEnd_le (b : CircularBuffer) (lines : List (List UInt8)) (p : Nat) :
    stretchEnd b lines p ≤ (contents lines).length := by
  have hle := backBytes_le b lines
  rw [stretchEnd]
  split <;> omega

theorem blockFits_of_le (h : (contents lines).length ≤ p) : BlockFits b lines p := by
  intro j off hj hoff hp
  have hsum : ((lines.map List.length).take (j + 1)).sum ≤ (lines.map List.length).sum :=
    (List.take_sublist _ _).sum_le_sum fun _ _ => Nat.zero_le _
  rw [List.sum_take_succ _ _ (by simpa using hj), List.getElem_map, ← length_contents] at hsum
  omega

theorem blocksFrom_of_le (h : (contents lines).length ≤ n * bufSize) : BlocksFrom b lines n := by
  have hback := backBytes_le b lines
  refine ⟨fun hlt => by omega, fun i hi => blockFits_of_le ?_⟩
  exact h.trans (Nat.mul_le_mul_right _ hi)

theorem blocksFrom_succ (hfits : BlockFits b lines (n * bufSize))
    (hfull : n * bufSize + bufSize ≤ stretchEnd b lines (n * bufSize)) :
    BlocksFrom b lines n ↔ BlocksFrom b lines (n + 1) := by
  have hmul : (n + 1) * bufSize = n * bufSize + bufSize := Nat.succ_mul _ _
  refine ⟨fun h => ⟨fun hlt => h.wrap (by omega), fun i hi => h.fits i (by omega)⟩,
    fun h => ⟨fun hlt => ?_, fun i hi => ?_⟩⟩
  · rw [stretchEnd, if_pos hlt, ← hmul] at hfull
    rcases hfull.lt_or_eq with hmore | heq
    · exact h.wrap hmore
    · exact Or.inl ⟨n + 1, by rw [← heq, Nat.mul_comm]⟩
  · rcases hi.lt_or_eq with hmore | rfl
    · exact h.fits i hmore
    · exact hfits

theorem blocksFrom_last (hfits : BlockFits b lines (n * bufSize))
    (hshort : stretchEnd b lines (n * bufSize) < n * bufSize + bufSize) :
    BlocksFrom b lines n ↔ stretchEnd b lines (n * bufSize) = (contents lines).length := by
  constructor
  · intro h
    by_cases hlt : n * bufSize < backBytes b lines
    · rw [stretchEnd, if_pos hlt] at hshort ⊢
      refine (h.wrap hlt).resolve_left ?_
      rintro ⟨m, hm⟩
      rw [hm, Nat.mul_comm bufSize] at hlt hshort
      have hge := Nat.lt_of_mul_lt_mul_right hlt
      rw [← Nat.succ_mul] at hshort
      have hle := Nat.lt_of_mul_lt_mul_right hshort
      omega
    · rw [stretchEnd, if_neg hlt]
  · intro heq
    refine ⟨fun hlt => Or.inr ?_, fun i hi => ?_⟩
    · rwa [stretchEnd, if_pos hlt] at heq
    · rcases hi.lt_or_eq with hmore | rfl
      · refine blockFits_of_le ?_
        have hle : (n + 1) * bufSize ≤ i * bufSize := Nat.mul_le_mul_right _ hmore
        rw [Nat.succ_mul] at hle
        omega
      · exact hfits

end Blocks

theorem bufSize_pos : 0 < bufSize := by
  unfold bufSize
  omega

theorem faulty_aesdRead {env : ReadEnv} (ha : env.Allocates) {k : Kernel} {ubuf : List UInt8}
    {count : Nat} {fPos : Int} {res : ReadResult} (hunlocked : k.dev.mutex = false)
    (hcall : aesdRead env k ubuf count fPos = some res) (hfault : k.heap.fault = true) :
    res.kernel.heap.fault = true := by
  obtain ⟨init, hinit⟩ := Option.isSome_iff_exists.mp ha.tmpBuf
  obtain ⟨scratch, hscratch⟩ := Option.isSome_iff_exists.mp ha.tmp
  by_cases hpos : fPos < k.dev.buffer.totalSize
  · rw [aesdRead_within ha count ubuf hunlocked hpos] at hcall
    obtain ⟨start, -, rfl⟩ := Option.map_eq_some_iff.mp hcall
    dsimp only
    rw [fault_readFreed ha, readHelper]
    apply faulty_helperLoop
    rw [hscratch, kmalloc_some, Heap.fault_alloc, readBlocks_fault ha, hfault]
  · rw [aesdRead_pastEnd env count ubuf hunlocked (by omega), hinit] at hcall
    cases hcall
    exact hfault

namespace Stores
variable {k : Kernel} {r : RingBuffer BufferEntry 10} {lines : List (List UInt8)}

theorem backBytes_eq (s : Stores k r lines) :
    backBytes k.dev.buffer lines = ((lines.map List.length).take (backCount r)).sum := by
  have hlen := s.length_eq
  have hin := r.inOffs_lt
  rw [backBytes, backCount, s.mirrors.outOffs]
  cases hf : r.full
  · rw [if_neg Bool.false_ne_true, r.outOffs_zero hf, List.take_of_length_le, List.take_of_length_le]
    · rw [List.length_map, hlen]
    · rw [List.length_map, hlen, count_of_not_full hf]
      omega
  · rw [if_pos rfl]

theorem add_segment (s : Stores k r lines) {count p j off : Nat} {res : ReadResult}
    (ra : ReadAt k r lines count p j off res) :
    off < ((segment r lines j).map List.length).sum ∧
      p + (((segment r lines j).map List.length).sum - off) = stretchEnd k.dev.buffer lines p := by
  have hj : j < r.count := by
    rw [← s.length_eq]
    exact ra.line
  have hin := ra.inside
  have hstart := ra.start
  have hpass : ((lines.map List.length).take j).sum + ((segment r lines j).map List.length).sum =
      ((lines.map List.length).take (segmentEnd r j)).sum := by
    have hsplit := List.sum_take_add_sum_drop ((lines.map List.length).take (segmentEnd r j)) j
    rw [List.take_take, Nat.min_eq_left (lt_segmentEnd hj).le] at hsplit
    rw [segment, List.map_drop, List.map_take]
    exact hsplit
  have hoff : off < ((segment r lines j).map List.length).sum := by
    rw [s.segment_cons hj] at hin ⊢
    rw [List.headD_cons] at hin
    rw [List.sum_cons]
    omega
  refine ⟨hoff, ?_⟩
  have hback := s.backBytes_eq
  rw [stretchEnd]
  by_cases hfront : j < backCount r
  · rw [segmentEnd, if_pos hfront, ← hback] at hpass
    rw [if_pos (by omega)]
    omega
  · have hall : ((lines.map List.length).take r.count).sum = (contents lines).length := by
      rw [List.take_of_length_le (by rw [List.length_map, s.length_eq]), length_contents]
    rw [segmentEnd, if_neg hfront, hall] at hpass
    have hmono : ((lines.map List.length).take (backCount r)).sum ≤
        ((lines.map List.length).take j).sum :=
      (List.take_sublist_take_left (by omega)).sum_le_sum fun _ _ => Nat.zero_le _
    rw [if_neg (by omega)]
    omega

theorem fault_iff_blockFits (s : Stores k r lines) {p j off : Nat} {res : ReadResult}
    (ra : ReadAt k r lines bufSize p j off res) :
    res.kernel.heap.fault = false ↔ BlockFits k.dev.buffer lines p := by
  obtain ⟨hoff, hend⟩ := s.add_segment ra
  have hhead := s.segment_head ra.line
  have hin := ra.inside
  rw [hhead] at hin
  rw [ra.fault, ReadFits, hhead]
  constructor
  · intro h j' off' hj hoff' hp
    obtain ⟨rfl, rfl⟩ := s.readAt_unique ra hj hoff' hp
    omega
  · intro h
    have hfits := h j off ra.line hin ra.start
    omega

end Stores

structure Serving (w : DeviceWorld) (r : RingBuffer BufferEntry 10) (lines : List (List UInt8))
    (before : List UInt8) (p : Nat) : Prop where
  stores : Stores w.kernel r lines
  slots : SmallSlots w.kernel.dev.buffer.entry
  seek : w.kernel.dev.seek = false
  fPos : w.fPos = p
  le : p ≤ (contents lines).length
  sent : w.sent = before ++ (contents lines).take p

section Loop
variable {env : DeviceEnv} {w w' : DeviceWorld} {fd : Int} {fuel : Nat} {buf : List UInt8}
  {res : ReadResult}

def DeviceWorld.answered (w : DeviceWorld) (res : ReadResult) (n : Nat) : DeviceWorld :=
  { w with
    kernel := res.kernel
    fPos := res.fPos
    calls := w.calls + 1
    sent := w.sent ++ bytesFrom res.ubuf n }

theorem returnLoop_device (fd : Int) (fuel : Nat)
    (hcall : aesdRead (env.read w.calls) w.kernel buf bufSize w.fPos = some res)
    {n : Nat} (hret : res.ret = n) :
    returnLoop (deviceSyscalls env) fd (fuel + 1) buf w =
      if n = bufSize then returnLoop (deviceSyscalls env) fd fuel res.ubuf (w.answered res n)
      else some (0, w.answered res n) := by
  have hpos : ¬ (n : Int) < 0 := by omega
  rw [returnLoop, DeviceWorld.answered]
  simp only [deviceSyscalls, hcall, hret, hpos, Option.map_some, Option.bind_eq_bind,
    Option.bind_some, Int.toNat_natCast, if_false, length_bytesFrom, Nat.cast_inj]

theorem faulty_round (ih : ∀ (buf : List UInt8) (w : DeviceWorld), w.kernel.dev.mutex = false →
      w.kernel.heap.fault = true → ∀ ret w',
      returnLoop (deviceSyscalls env) fd fuel buf w = some (ret, w') → w'.kernel.heap.fault = true)
    (hunlocked : w.kernel.dev.mutex = false)
    (hcall : aesdRead (env.read w.calls) w.kernel buf bufSize w.fPos = some res)
    (hfault : res.kernel.heap.fault = true) {ret : Int}
    (hloop : returnLoop (deviceSyscalls env) fd (fuel + 1) buf w = some (ret, w')) :
    w'.kernel.heap.fault = true := by
  have hunlocked' : res.kernel.dev.mutex = false := by
    rw [(aesdRead_dev hunlocked hcall).2]
    exact hunlocked
  rw [returnLoop] at hloop
  obtain ⟨⟨nread, buf', w₁⟩, hread, hloop⟩ := Option.bind_eq_some_iff.mp hloop
  obtain ⟨res', hcall', heq⟩ := Option.map_eq_some_iff.mp hread
  cases heq
  rw [hcall, Option.some.injEq] at hcall'
  subst hcall'
  dsimp only at hloop
  split at hloop
  · cases hloop
    exact hfault
  · obtain ⟨⟨nsend, w₂⟩, hsend, hloop⟩ := Option.bind_eq_some_iff.mp hloop
    cases hsend
    dsimp only at hloop
    split at hloop
    · cases hloop
      exact hfault
    · split at hloop
      · exact ih _ _ hunlocked' hfault _ _ hloop
      · cases hloop
        exact hfault

theorem faulty_returnLoop (henv : ∀ i, (env.read i).Succeeds) (fd : Int) (fuel : Nat) :
    ∀ (buf : List UInt8) (w : DeviceWorld), w.kernel.dev.mutex = false →
      w.kernel.heap.fault = true → ∀ ret w',
      returnLoop (deviceSyscalls env) fd fuel buf w = some (ret, w') →
      w'.kernel.heap.fault = true := by
  induction fuel with
  | zero =>
      intro buf w hunlocked hfault ret w' hloop
      cases hloop
  | succ fuel ih =>
      intro buf w hunlocked hfault ret w' hloop
      cases hcall : aesdRead (env.read w.calls) w.kernel buf bufSize w.fPos with
      | none => simp [returnLoop, deviceSyscalls, hcall] at hloop
      | some res =>
          have hfault' := faulty_aesdRead (henv w.calls).toAllocates hunlocked hcall hfault
          exact faulty_round ih hunlocked hcall hfault' hloop

end Loop

section Reply
variable {env : DeviceEnv} (henv : ∀ i, (env.read i).Succeeds)
include henv

variable {w : DeviceWorld} {r : RingBuffer BufferEntry 10} {lines : List (List UInt8)}
  {before : List UInt8} {p : Nat}

theorem Serving.finish (sv : Serving w r lines before p) (hp : p = (contents lines).length)
    (fd : Int) (fuel : Nat) (buf : List UInt8) :
    ∃ w', returnLoop (deviceSyscalls env) fd (fuel + 1) buf w = some (0, w') ∧
      w'.sent = before ++ contents lines ∧ w'.kernel.heap.fault = false := by
  have htotal := sv.stores.totalSize
  rw [← length_contents] at htotal
  obtain ⟨res, hcall, hret, -, -, -, s'⟩ := sv.stores.read_pastEnd buf bufSize (henv w.calls)
    (show w.kernel.dev.buffer.totalSize ≤ w.fPos by rw [sv.fPos, htotal, hp])
  have hloop := returnLoop_device fd fuel hcall (n := 0) (by simpa using hret)
  rw [if_neg (Nat.ne_of_lt bufSize_pos)] at hloop
  refine ⟨_, hloop, ?_, s'.faultless⟩
  rw [DeviceWorld.answered, bytesFrom_of_le (Nat.zero_le _), List.take_zero, List.append_nil, sv.sent, hp, List.take_length]

/-- A block that is not the last one: it faults, or is full and the next one follows, or is
short and ends the answer. -/
theorem Serving.round (sv : Serving w r lines before p) (hp : p < (contents lines).length)
    (hsize : ∀ l ∈ lines, bufSize + l.length < 2 ^ 32) (fd : Int) (fuel : Nat) (buf : List UInt8) :
    (¬ BlockFits w.kernel.dev.buffer lines p ∧
      ∀ ret w', returnLoop (deviceSyscalls env) fd (fuel + 1) buf w = some (ret, w') →
        w'.kernel.heap.fault = true) ∨
    (BlockFits w.kernel.dev.buffer lines p ∧
      p + bufSize ≤ stretchEnd w.kernel.dev.buffer lines p ∧
      ∃ w' buf', Serving w' r lines before (p + bufSize) ∧
        w'.kernel.dev.buffer = w.kernel.dev.buffer ∧
        returnLoop (deviceSyscalls env) fd (fuel + 1) buf w =
          returnLoop (deviceSyscalls env) fd fuel buf' w') ∨
    (BlockFits w.kernel.dev.buffer lines p ∧
      stretchEnd w.kernel.dev.buffer lines p < p + bufSize ∧
      ∃ w', returnLoop (deviceSyscalls env) fd (fuel + 1) buf w = some (0, w') ∧
        w'.sent = before ++ (contents lines).take (stretchEnd w.kernel.dev.buffer lines p) ∧
        w'.kernel.heap.fault = false) := by
  have st := sv.stores
  have hB := bufSize_pos
  have htotal := st.totalSize
  rw [← length_contents] at htotal
  have hpos : readPosition w.kernel.dev w.fPos = p := by
    rw [readPosition, sv.seek, sv.fPos]
    rfl
  obtain ⟨j, off, res, hcall, ra⟩ := st.read_at buf (henv w.calls) hB hsize
    (by rw [sv.fPos, htotal]; exact_mod_cast hp) hpos (st.guard sv.slots hp) hp
  have hiff := st.fault_iff_blockFits ra
  obtain ⟨hoff, hend⟩ := st.add_segment ra
  cases hfault : res.kernel.heap.fault
  · obtain ⟨n, hn, hn1, hnB, hle, hret, hfp, hbytes⟩ := ra.delivered hfault
    have hlen : (res.ubuf.take n).length = n := by
      rw [hbytes, List.length_take, List.length_drop]
      omega
    have hsent : w.sent ++ bytesFrom res.ubuf n = before ++ (contents lines).take (p + n) := by
      rw [bytesFrom_of_le (by rw [← hlen]; exact List.length_take_le' ..), sv.sent, hbytes,
        List.append_assoc, ← List.take_add]
    have hloop := returnLoop_device fd fuel hcall hret
    refine Or.inr ?_
    by_cases hfull : p + bufSize ≤ stretchEnd w.kernel.dev.buffer lines p
    · have hnfull : n = bufSize := by omega
      rw [if_pos hnfull] at hloop
      refine Or.inl ⟨hiff.mp hfault, hfull, _, _, ⟨ra.stores hfault, ?_, ?_, ?_, ?_, ?_⟩, ?_, hloop⟩
      · show SmallSlots res.kernel.dev.buffer.entry
        rw [ra.dev]
        exact sv.slots
      · show res.kernel.dev.seek = false
        rw [ra.dev]
      · rw [← hnfull]
        exact hfp
      · omega
      · rw [← hnfull]
        exact hsent
      · show res.kernel.dev.buffer = _
        rw [ra.dev]
    · rw [if_neg (by omega)] at hloop
      refine Or.inr ⟨hiff.mp hfault, by omega, _, hloop, ?_, hfault⟩
      · show w.sent ++ bytesFrom res.ubuf n = _
        rw [hsent]
        congr 2
        omega
  · refine Or.inl ⟨fun hfits => ?_, fun ret w' hloop => ?_⟩
    · rw [hiff.mpr hfits] at hfault
      cases hfault
    · exact faulty_round (faulty_returnLoop henv fd fuel) st.unlocked hcall hfault hloop

theorem Serving.replies_iff (sv : Serving w r lines before p) (n : Nat) (hp : p = n * bufSize)
    (hsize : ∀ l ∈ lines, bufSize + l.length < 2 ^ 32) (fd : Int) (fuel : Nat)
    (hfuel : (contents lines).length - p < fuel) (buf : List UInt8) :
    (∃ w', returnLoop (deviceSyscalls env) fd fuel buf w = some (0, w') ∧
      w'.sent = before ++ contents lines ∧ w'.kernel.heap.fault = false) ↔
      BlocksFrom w.kernel.dev.buffer lines n := by
  induction fuel generalizing w n p buf with
  | zero => omega
  | succ fuel ih =>
      have hle := sv.le
      have hB := bufSize_pos
      by_cases hend : p = (contents lines).length
      · exact iff_of_true (sv.finish henv hend fd fuel buf) (blocksFrom_of_le (by omega))
      · rcases sv.round henv (by omega) hsize fd fuel buf with
          ⟨hbad, hfaulty⟩ | ⟨hfits, hfull, w', buf', sv', hbuffer, hloop⟩ |
          ⟨hfits, hshort, w', hloop, hsent, hok⟩
        · refine iff_of_false ?_ fun h => hbad (hp ▸ h.fits n (Nat.le_refl _))
          rintro ⟨w', hloop, -, hok⟩
          rw [hfaulty 0 w' hloop] at hok
          cases hok
        · rw [hp] at hfits hfull
          rw [hloop, ih sv' (n + 1) (by rw [hp, Nat.succ_mul]) (by omega) buf', hbuffer,
            blocksFrom_succ hfits hfull]
        · rw [hp] at hfits hshort hsent
          rw [blocksFrom_last hfits hshort]
          have hstretch := stretchEnd_le w.kernel.dev.buffer lines (n * bufSize)
          constructor
          · rintro ⟨w'', hloop', hsent', -⟩
            rw [hloop, Option.some.injEq, Prod.mk.injEq] at hloop'
            rw [← hloop'.2, hsent, List.append_cancel_left_eq, List.take_eq_self_iff] at hsent'
            omega
          · intro heq
            refine ⟨w', hloop, ?_, hok⟩
            rw [hsent, heq, List.take_length]

end Reply

/-- The server's answer. On a device that holds the log of any run of commits, complete writes
and flushes, `return_socket_data` answers with the whole log exactly when the lines behind
`out_offs` fill whole blocks or are all there are, and every block starts with a line,
lies within one, or starts in a line shorter than a block and is the last of its
stretch. -/
theorem replies_with_log_iff (slots : Vector BufferEntry 10) (hslots : SmallSlots slots)
    (unset : Unset) (ops : List LogOp)
    (hv : ∀ op ∈ ops, op.Valid) (hsize : ∀ l ∈ LogOp.log ops, l.length < kmallocBound)
    (env : DeviceEnv) (henv : ∀ i, (env.read i).Succeeds) (buf : List UInt8) (w : DeviceWorld) :
    let k := LogOp.run (initModule slots unset) ops
    RepliesWithLog env (LogOp.log ops) buf { w with kernel := k } ↔
      BlocksFrom k.dev.buffer (LogOp.log ops) 0 := by
  intro k
  obtain ⟨r, s, -, hseek, small⟩ := LogOp.run_stores slots unset ops hv
  have hfits : ∀ l ∈ LogOp.log ops, bufSize + l.length < 2 ^ 32 := by
    intro l hl
    have hlt := hsize l hl
    unfold kmallocBound at hlt
    unfold bufSize
    omega
  have sv : Serving { w with kernel := k, fPos := 0 } r (LogOp.log ops) w.sent 0 :=
    ⟨s, small hslots, hseek, rfl, Nat.zero_le _, by simp⟩
  have hopen : ∀ fuel, returnSocketData (deviceSyscalls env) fuel buf { w with kernel := k } =
      returnLoop (deviceSyscalls env) 3 fuel buf { w with kernel := k, fPos := 0 } := fun fuel => rfl
  have hiff : ∀ fuel, (contents (LogOp.log ops)).length - 0 < fuel → _ := fun fuel hfuel =>
    sv.replies_iff henv 0 (Nat.zero_mul _).symm hfits 3 fuel hfuel buf
  constructor
  · rintro ⟨fuel, w', hret, hdone⟩
    rw [hopen] at hret
    refine (hiff (fuel + ((contents (LogOp.log ops)).length + 1)) (by omega)).mp ⟨w', ?_, hdone⟩
    exact returnLoop_add _ _ _ _ _ _ hret
  · intro h
    obtain ⟨w', hret, hdone⟩ := (hiff ((contents (LogOp.log ops)).length + 1) (by omega)).mpr h
    exact ⟨_, w', by rw [hopen]; exact hret, hdone⟩

theorem replies_with_log_two_lines :
    RepliesWithLog ⟨fun _ => (ReadCall.zeroed 0).env, fun _ => .zeroed⟩ [[97, 10], [98, 10]] []
      ⟨LogOp.run (initModule CircularBuffer.init.entry .zeroed) [.commit [97, 10], .commit [98, 10]],
        0, 0, [], []⟩ := by
  refine (replies_with_log_iff CircularBuffer.init.entry smallSlots_init .zeroed
    [.commit [97, 10], .commit [98, 10]] (by simp [LogOp.Valid, lineBound])
    (by simp [LogOp.log, appendLine, List.rtake, kmallocBound])
    ⟨fun _ => (ReadCall.zeroed 0).env, fun _ => .zeroed⟩ (fun _ => ⟨⟨rfl, rfl, rfl⟩, rfl⟩) []
    ⟨initModule CircularBuffer.init.entry .zeroed, 0, 0, [], []⟩).mpr ⟨fun _ => Or.inr rfl, fun i _ => ?_⟩
  by_cases hzero : i = 0
  · intro j off hj hoff hp
    rw [hzero, Nat.zero_mul] at hp
    exact Or.inl (by omega)
  · apply blockFits_of_le
    calc
      (contents (LogOp.log [.commit [97, 10], .commit [98, 10]])).length = 4 := rfl
      _ ≤ 1 * bufSize := by decide
      _ ≤ i * bufSize := Nat.mul_le_mul_right _ (by omega)

def elevenLines : List LogOp := (List.range 11).map fun i => .commit [97 + i.toUInt8, 10]

/-- Eleven lines of two bytes: nine of them lie behind `out_offs`, and the answer stops there. -/
theorem reply_misses_newest_line :
    ¬ RepliesWithLog ⟨fun _ => (ReadCall.zeroed 0).env, fun _ => .zeroed⟩ (LogOp.log elevenLines) []
      ⟨LogOp.run (initModule CircularBuffer.init.entry .zeroed) elevenLines, 0, 0, [], []⟩ := by
  rintro ⟨fuel, w', hret, hsent, -⟩
  have hvalues : (returnSocketData
      (deviceSyscalls ⟨fun _ => (ReadCall.zeroed 0).env, fun _ => .zeroed⟩) 1 []
      ⟨LogOp.run (initModule CircularBuffer.init.entry .zeroed) elevenLines, 0, 0, [], []⟩).map
        (fun r => r.2.sent) = some ((contents (LogOp.log elevenLines)).take 18) := by decide +kernel
  obtain ⟨r, hone, hshort⟩ := Option.map_eq_some_iff.mp hvalues
  have hmore := returnLoop_add _ _ 1 fuel _ _ hone
  rw [Nat.add_comm, returnLoop_add _ _ fuel 1 _ _ hret, Option.some.injEq] at hmore
  rw [← hmore, hsent] at hshort
  exact absurd hshort (by decide +kernel)

end Aesd

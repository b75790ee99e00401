import Aesd.ReadHelper

/-! `main.c` of the driver. A call is a function of the device and the heap, with the
outcomes of its kernel calls in an environment record; `none` is a call that never
returns. The locked regions of read and write are functions of their own, so that the
sequential calls below and interleavings of their steps are built from the same code. -/
namespace Aesd
open FixedWidth Memory

/-- `struct aesd_dev`; `mutex` says whether it is locked. `behind i` is what the memory behind the
buffer's structure holds where a slot `i` would have its size. -/
structure AesdDev where
  mutex : Bool
  buffer : CircularBuffer
  behind : Nat → Nat
  partialEntry : BufferEntry
  isPartial : Bool
  seektoPosition : Int
  seek : Bool

structure Kernel where
  dev : AesdDev
  heap : Heap

namespace Kernel

def mutexLock (k : Kernel) : Kernel := { k with dev := { k.dev with mutex := true } }

def mutexUnlock (k : Kernel) : Kernel := { k with dev := { k.dev with mutex := false } }

end Kernel

/-- Outcomes of the kernel calls of one read; `stale` is what the fresh `*byte_offset` holds. -/
structure ReadEnv where
  tmpBuf : Kmalloc
  byteOffset : Kmalloc
  stale : Nat
  tmp : Kmalloc
  uncopied : Nat

structure ReadEnv.Allocates (env : ReadEnv) : Prop where
  tmpBuf : env.tmpBuf.isSome
  byteOffset : env.byteOffset.isSome
  tmp : env.tmp.isSome

structure ReadEnv.Succeeds (env : ReadEnv) : Prop extends env.Allocates where
  copied : env.uncopied = 0

/-- `start_entry_index` and `*byte_offset` for a position. -/
def readStart (stale : Nat) (b : CircularBuffer) (fPos : Int) : Option (Nat × Nat) :=
  if fPos ≠ 0 then
    match b.findEntryOffsetForFpos (toSize fPos) with
    | .null => some (0, 0)
    | .entry index byte => some (index, byte.getD stale)
    | .running => none
  else some (b.outOffs, 0)

/-- The slot the copy stops before: a full buffer is read up to the end of the array,
or, from a slot in front of `out_offs`, up to that. -/
def readStop (b : CircularBuffer) (start : Nat) : Nat :=
  if !b.full then b.inOffs
  else if b.outOffs ≤ start then maxWriteOperationsSupported
  else b.outOffs

def readPosition (dev : AesdDev) (fPos : Int) : Int :=
  if dev.seek then dev.seektoPosition else fPos

inductive ReadSection
  | pastEnd
  | copied (fPos : Int) (byteOffset readCount : Nat)

def readSection (env : ReadEnv) (k : Kernel) (tmpBuf count : Nat) (fPos : Int) :
    Option (Kernel × ReadSection) :=
  if fPos ≥ k.dev.buffer.totalSize then some (k, .pastEnd)
  else do
    let o := kmalloc k.heap 8 env.byteOffset
    let pos := readPosition k.dev fPos
    let dev := { k.dev with seek := false }
    let start ← readStart env.stale dev.buffer pos
    let r := readHelper (o.2.check o.1 0) dev.buffer start.1 (readStop dev.buffer start.1)
      tmpBuf count start.2 env.tmp
    some (⟨dev, r.1⟩, .copied pos o.1 r.2)

structure ReadResult where
  kernel : Kernel
  fPos : Int
  ret : Int
  ubuf : List UInt8

/-- From the release of the lock on; the copy to the user is of `count` bytes. -/
def readEpilog (env : ReadEnv) (k : Kernel) (tmpBuf byteOffset count readCount : Nat)
    (fPos : Int) (ubuf : List UInt8) : ReadResult :=
  if k.dev.mutex then ⟨k, fPos, -ENOMEM, ubuf⟩
  else
    let ubuf := copyToUser k.heap ubuf tmpBuf count env.uncopied
    let k := { k with heap := ((k.heap.checkRange tmpBuf 0 count).free byteOffset).free tmpBuf }
    if fPos < k.dev.buffer.totalSize then
      ⟨k, toSsize (fPos + readCount), toSsize readCount, ubuf⟩
    else ⟨k, fPos, 0, ubuf⟩

def aesdRead (env : ReadEnv) (k : Kernel) (ubuf : List UInt8) (count : Nat) (fPos : Int) :
    Option ReadResult :=
  let t := kmalloc k.heap count env.tmpBuf
  let k := { k with heap := t.2 }
  if k.dev.mutex then some ⟨k, fPos, -ENOMEM, ubuf⟩
  else
    let k := k.mutexLock
    if !k.dev.mutex then some ⟨k, fPos, -ENOMEM, ubuf⟩
    else do
      match ← readSection env k t.1 count fPos with
      | (k, .pastEnd) => some ⟨k.mutexUnlock, fPos, 0, ubuf⟩
      | (k, .copied pos byteOffset readCount) =>
          some (readEpilog env k.mutexUnlock t.1 byteOffset count readCount pos ubuf)

/-- Outcomes of the kernel calls of one write; `joinedLow` is the low byte of the address
that the `kmalloc` of the joining branch returns. -/
structure WriteEnv where
  addEntry : Kmalloc
  data : Kmalloc
  tmp : Kmalloc
  joined : Kmalloc
  joinedLow : UInt8
  uncopied : Nat

structure WriteEnv.Succeeds (env : WriteEnv) : Prop where
  addEntry : env.addEntry.isSome
  data : env.data.isSome
  tmp : env.tmp.isSome
  joined : env.joined.isSome
  copied : env.uncopied = 0

structure WriteCall where
  addEntry : Nat
  data : Nat
  tmp : Nat
  count : Nat
  deriving DecidableEq

def writeProlog (env : WriteEnv) (k : Kernel) (buf : List UInt8) : WriteCall × Kernel :=
  let a := kmalloc k.heap 16 env.addEntry
  let d := kmalloc a.2 buf.length env.data
  let t := kmalloc d.2 (toSize (buf.length + k.dev.partialEntry.size : Nat)) env.tmp
  (⟨a.1, d.1, t.1, buf.length⟩, { k with heap := copyFromUser t.2 d.1 buf env.uncopied })

def AesdDev.pendingSize (d : AesdDev) : Nat := if d.isPartial then d.partialEntry.size else 0

/-- The branch for a pending partial line. `*data = kmalloc(..)` stores one byte of the
address into the block just freed, and `data` keeps pointing there. -/
def joinPartial (env : WriteEnv) (c : WriteCall) (k : Kernel) : Option (Int × Heap) := do
  let size := k.dev.partialEntry.size
  let h ← forUint size (fun i h => h.move k.dev.partialEntry.buffptr i c.tmp i) k.heap
  let h ← forUint c.count (fun i h => h.move c.data i c.tmp (size + i : Nat)) h
  let q := kmalloc (h.free c.data) (toSize (c.count + size : Nat)) env.joined
  let h := q.2.store c.data 0 (if q.1 = 0 then 0 else env.joinedLow)
  let writeSize := toSsize (toSsize c.count + size)
  let h ← forUint writeSize (fun i h => h.move c.tmp i c.data i) h
  some (writeSize, h)

/-- `write_size` and the heap behind the test of `partial`. -/
def gatherLine (env : WriteEnv) (c : WriteCall) (k : Kernel) : Option (Int × Heap) :=
  if k.dev.isPartial then joinPartial env c k else some (toSsize c.count, k.heap)

/-- A write inside the lock, with the entry it passes to `aesd_circular_buffer_add_entry`. -/
def writeSection (env : WriteEnv) (c : WriteCall) (k : Kernel) :
    Option (Kernel × Option BufferEntry) := do
  let w ← gatherLine env c k
  let h := w.2.check c.data (w.1 - 1)
  if w.2.load c.data (w.1 - 1) ≠ newline then
    let dev := { k.dev with isPartial := true, partialEntry := ⟨c.data, toSize w.1⟩ }
    some (⟨dev, h.free c.addEntry⟩, none)
  else
    let e : BufferEntry := ⟨c.data, toSize w.1⟩
    let dev := { k.dev with isPartial := false, buffer := k.dev.buffer.addEntry e }
    some (⟨dev, h.check c.addEntry 0⟩, some e)

structure WriteResult where
  kernel : Kernel
  ret : Int
  added : Option BufferEntry

def writeEpilog (c : WriteCall) (k : Kernel) (added : Option BufferEntry) : WriteResult :=
  if k.dev.mutex then ⟨k, -ENOMEM, added⟩
  else ⟨{ k with heap := k.heap.free c.tmp }, toSsize c.count, added⟩

def aesdWrite (env : WriteEnv) (k : Kernel) (buf : List UInt8) : Option WriteResult :=
  let p := writeProlog env k buf
  if p.2.dev.mutex then some ⟨p.2, -ENOMEM, none⟩
  else
    let k := p.2.mutexLock
    if !k.dev.mutex then some ⟨k, -ENOMEM, none⟩
    else do
      let s ← writeSection env p.1 k
      some (writeEpilog p.1 s.1.mutexUnlock s.2)

/-- `generic_file_llseek_size(filp, offset, whence, maxsize, eof)`: the new position, or a
negative error. -/
abbrev GenericFileLlseekSize := (fPos offset whence maxsize eof : Int) → Int

def maxFileSize : Int := maxWriteOperationsSupported * (1024 * 30)

/-- The return value and the file's position afterwards. -/
def aesdLlseek (generic : GenericFileLlseekSize) (k : Kernel) (fPos offset whence : Int) :
    Int × Int :=
  if whence = 0 ∨ whence = 1 ∨ whence = 2 then
    let newpos := generic fPos offset whence maxFileSize k.dev.buffer.totalSize
    (newpos, if 0 ≤ newpos then newpos else fPos)
  else (-EINVAL, fPos)

/-- `struct aesd_seekto`, two `uint32_t`. -/
structure AesdSeekto where
  writeCmd : Nat
  writeCmdOffset : Nat
  deriving DecidableEq

/-- `buffer->entry[i].size` for any `i`. Behind the array `entry[10].size` is `total_size`, and all
others lie outside the structure. -/
def AesdDev.sizeAt (d : AesdDev) (i : Nat) : Nat :=
  if i < maxWriteOperationsSupported then (d.buffer.slot i).size
  else if i = maxWriteOperationsSupported then toSize d.buffer.totalSize
  else d.behind i

theorem AesdDev.sizeAt_of_lt (d : AesdDev) {i : Nat} (hi : i < 10) :
    d.sizeAt i = (d.buffer.slot i).size := if_pos hi

def seektoTarget (d : AesdDev) (seekto : AesdSeekto) : Int :=
  toSsize (rounds (fun i pos => toSsize (pos + d.sizeAt i)) seekto.writeCmd (0 : Int) +
    seekto.writeCmdOffset)

/-- `aesd_adjust_file_offset`; slots from the tenth on lie outside the array. -/
def adjustFileOffset (k : Kernel) (seekto : AesdSeekto) : Kernel × Int :=
  ({ dev := { k.dev with seektoPosition := seektoTarget k.dev seekto, seek := true }
     heap := { k.heap with
        fault := k.heap.fault || decide (maxWriteOperationsSupported < seekto.writeCmd) } }, 0)

/-- `aesd_flush` -/
def aesdFlush (k : Kernel) : Kernel × Int :=
  let b := k.dev.buffer
  let heap := rounds (fun index h => if index < b.inOffs then h.free (b.slot index).buffptr else h)
    maxWriteOperationsSupported k.heap
  ({ dev := { k.dev with
        partialEntry := { k.dev.partialEntry with size := 0 }
        isPartial := false
        seektoPosition := 0
        seek := false
        buffer := { b with full := false, inOffs := 0, outOffs := 0, totalSize := 0 } }
     heap := heap }, 0)

def iocMagic : Nat := 0x16
def iocMaxnr : Nat := 2

/-- `_IOWR(AESD_IOC_MAGIC, 1, struct aesd_seekto)` -/
def iocSeekto : Nat := 3 * 2 ^ 30 + 8 * 2 ^ 16 + iocMagic * 2 ^ 8 + 1

/-- `_IO(AESD_IOC_MAGIC, 2)` -/
def iocFlush : Nat := iocMagic * 2 ^ 8 + 2

/-- `aesd_ioctl`; `arg` is `none` when the argument cannot be copied from the user. -/
def aesdIoctl (k : Kernel) (cmd : Nat) (arg : Option AesdSeekto) : Kernel × Int :=
  if cmd / 2 ^ 8 % 2 ^ 8 ≠ iocMagic then (k, -ENOTTY)
  else if iocMaxnr < cmd % 2 ^ 8 then (k, -ENOTTY)
  else if cmd = iocSeekto then
    match arg with
    | none => (k, -EINVAL)
    | some seekto => adjustFileOffset k seekto
  else if cmd = iocFlush then aesdFlush k
  else (k, -ENOTTY)

theorem aesdIoctl_seekto (k : Kernel) (target : AesdSeekto) :
    aesdIoctl k iocSeekto (some target) = adjustFileOffset k target := by
  rw [aesdIoctl, if_neg (by decide +kernel), if_neg (by decide +kernel), if_pos rfl]

theorem aesdIoctl_flush (k : Kernel) (arg : Option AesdSeekto) :
    aesdIoctl k iocFlush arg = aesdFlush k := by
  unfold aesdIoctl
  rw [if_neg (by decide +kernel), if_neg (by decide +kernel), if_neg (by decide +kernel),
    if_pos rfl]

/-- What `aesd_init_module` leaves as it finds it: the pending line's pointer in its fresh block, and
the memory behind the buffer's structure. -/
structure Unset where
  buffptr : Nat
  behind : Nat → Nat

def Unset.zeroed : Unset := ⟨0, fun _ => 0⟩

def AesdDev.unset (d : AesdDev) : Unset := ⟨d.partialEntry.buffptr, d.behind⟩

/-- The device that `aesd_init_module` leaves. Behind `aesd_circular_buffer_init` it copies ten fresh
blocks into the slots, whatever they contain. The ledger of the heap starts here, without the driver's
own structures. -/
def initModule (slots : Vector BufferEntry maxWriteOperationsSupported) (unset : Unset) :
    Kernel where
  dev :=
    { mutex := false
      buffer := { CircularBuffer.init with entry := slots }
      behind := unset.behind
      partialEntry := ⟨unset.buffptr, 0⟩
      isPartial := false
      seektoPosition := 0
      seek := false }
  heap := Heap.empty

end Aesd

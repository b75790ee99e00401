import Aesd.Lib.EventRun
import Aesd.AllocationLedger
import Aesd.ControlSteps

/-! `aesd_init_module` with the driver's own structures and its failure paths, and
`aesd_cleanup_module`. What a load has allocated and registered stays with the kernel, so that one
life of the module can follow another. -/
namespace Aesd
open FixedWidth Memory

def aesdMinor : Nat := 0

def mkdev (ma mi : Nat) : Nat := (ma <<< 20) ||| mi

def devMajor (dev : Nat) : Nat := dev >>> 20

theorem devMajor_mkdev (ma : Nat) : devMajor (mkdev ma aesdMinor) = ma := by
  simp [devMajor, mkdev, aesdMinor, Nat.shiftLeft_shiftRight]

def entrySize : Nat := 16

/-- `sizeof(struct aesd_circular_buffer)`: ten entries, three bytes with their padding, a `ssize_t`. -/
def circularBufferSize : Nat := 176

/-- Outcomes of the kernel calls of one load. `region` is the major number that `alloc_chrdev_region`
has found or its error; the size of a `struct mutex` is the kernel's. -/
structure LoadEnv where
  mutexSize : Nat
  mutex : Kmalloc
  buffer : Kmalloc
  partialEntry : Kmalloc
  region : Except Int Nat
  entries : Nat → Kmalloc
  cdevAdd : Int

structure LoadedModule where
  dev : AesdDev
  major : Nat
  mutex : Nat
  buffer : Nat
  partialEntry : Nat

structure ModuleHost where
  heap : Heap
  regions : List Nat
  cdevs : List Nat
  loaded : Option LoadedModule

def loadWord (h : Heap) (p : Nat) (i : Int) : Nat :=
  (h.bytesAt p i 8).foldr (fun b n => b.toNat + 256 * n) 0

/-- The loop over the slots: each gets what a fresh block contains, and the block is kept. -/
def fillSlots (entries : Nat → Kmalloc) (n : Nat) (h : Heap) :
    Heap × Vector BufferEntry maxWriteOperationsSupported :=
  rounds (fun i s =>
    let a := kmalloc s.1 entrySize (entries i)
    (a.2.checkRange a.1 0 entrySize,
      s.2.setIfInBounds i ⟨loadWord a.2 a.1 0, loadWord a.2 a.1 8⟩))
    n (h, CircularBuffer.init.entry)

/-- `aesd_setup_cdev` -/
def aesdSetupCdev (err : Int) (l : LoadedModule) (s : ModuleHost) : ModuleHost × Int :=
  (if err = 0 then { s with cdevs := mkdev l.major aesdMinor :: s.cdevs } else s, err)

/-- `aesd_init_module`. With an error it leaves everything that it has allocated. -/
def aesdInitModule (env : LoadEnv) (s : ModuleHost) : ModuleHost × Int :=
  let m := kmalloc s.heap env.mutexSize env.mutex
  let b := kmalloc m.2 circularBufferSize env.buffer
  let e := kmalloc b.2 entrySize env.partialEntry
  match env.region with
  | .error result => ({ s with heap := e.2 }, result)
  | .ok major =>
      let dev := mkdev major aesdMinor
      -- `mutex_init`, `aesd_circular_buffer_init` and the pending entry's `size`
      let h := ((e.2.checkRange m.1 0 env.mutexSize).checkRange b.1 0 circularBufferSize).checkRange
        e.1 8 8
      let slots := fillSlots env.entries maxWriteOperationsSupported h
      let l : LoadedModule :=
        { dev := (initModule slots.2 ⟨loadWord h e.1 0, fun i => loadWord h b.1 (i * entrySize + 8)⟩).dev
          major := devMajor dev
          mutex := m.1
          buffer := b.1
          partialEntry := e.1 }
      let c := aesdSetupCdev env.cdevAdd l { s with heap := slots.1, regions := dev :: s.regions }
      if c.2 ≠ 0 then ({ c.1 with regions := c.1.regions.erase dev }, c.2)
      else ({ c.1 with loaded := some l }, c.2)

/-- `aesd_cleanup_module` with the driver's own structures. -/
def aesdCleanupModule (l : LoadedModule) (s : ModuleHost) : ModuleHost :=
  let devno := mkdev l.major aesdMinor
  { heap := ((cleanupModule ⟨l.dev, s.heap⟩).heap.free l.buffer).free l.partialEntry
    regions := s.regions.erase devno
    cdevs := s.cdevs.erase devno
    loaded := none }

theorem fillSlots_zeroed {entries : Nat → Kmalloc} (n : Nat) (h : Heap)
    (hzero : ∀ i < n, entries i = some fun _ => 0) :
    (fillSlots entries n h).2 = CircularBuffer.init.entry := by
  induction n with
  | zero => rfl
  | succ n ih =>
      have hslots := ih fun i hi => hzero i (Nat.lt_succ_of_lt hi)
      have hword : ∀ i, loadWord (kmalloc (fillSlots entries n h).1 entrySize (entries n)).2
          (kmalloc (fillSlots entries n h).1 entrySize (entries n)).1 i = 0 := by
        intro i
        rw [hzero n (Nat.lt_succ_self n)]
        simp [loadWord, Heap.bytesAt, Heap.load, List.range_succ]
      rw [fillSlots, rounds, ← fillSlots]
      dsimp only
      rw [hword, hword, hslots]
      apply Vector.ext
      intro i hi
      rw [Vector.getElem_setIfInBounds]
      simp [CircularBuffer.init]

/-- A load leaves the device that the results about runs start from; its slots are empty where the
fresh blocks are zeroed. -/
theorem aesdInitModule_initModule {env : LoadEnv} {major : Nat} (s : ModuleHost)
    (hregion : env.region = .ok major) (hcdev : env.cdevAdd = 0) :
    ∃ l slots unset, (aesdInitModule env s).1.loaded = some l ∧
      l.dev = (initModule slots unset).dev ∧
      ((∀ i < maxWriteOperationsSupported, env.entries i = some fun _ => 0) →
        slots = CircularBuffer.init.entry) := by
  simp only [aesdInitModule, hregion, aesdSetupCdev, hcdev]
  exact ⟨_, _, _, rfl, rfl, fillSlots_zeroed _ _⟩

inductive LifeEvent
  | load (env : LoadEnv)
  | call (c : FopsCall)
  | unload

namespace FopsCall

def device : FopsCall → DeviceCall
  | flush => .flush
  | seekto target => .seekto target
  | read env ubuf count fPos => .read env ubuf count fPos
  | write env buf => .write env buf

end FopsCall

def lifeStep (s : ModuleHost) : LifeEvent → Option ModuleHost
  | .load env => if s.loaded.isNone then some (aesdInitModule env s).1 else none
  | .call c => do
      let l ← s.loaded
      let r ← c.device.apply ⟨l.dev, s.heap⟩
      some { s with heap := r.1.heap, loaded := some { l with dev := r.1.dev } }
  | .unload => s.loaded.map fun l => aesdCleanupModule l s

def ModuleHost.start : ModuleHost := ⟨Heap.empty, [], [], none⟩

end Aesd

import Aesd.Lib.Memory

/-! The kernel calls the driver makes, with their outcomes as arguments: what a
`kmalloc` returns and how many bytes a user copy leaves uncopied are chosen by the
environment of the call. -/
namespace Aesd
open FixedWidth Memory

/-- The outcome of one `kmalloc` call: `none` for `NULL`, otherwise what the fresh
block happens to contain. -/
abbrev Kmalloc := Option (Int → UInt8)

def kmalloc (h : Heap) (n : Nat) : Kmalloc → Nat × Heap
  | none => (0, h)
  | some init => h.alloc n init

/-- No request of this many bytes is served: `KMALLOC_MAX_SIZE` is smaller. -/
def kmallocBound : Nat := 2 ^ 31

/-- `copy_from_user` of a whole buffer; the last `uncopied` bytes fail and are zeroed. -/
def copyFromUser (h : Heap) (dst : Nat) (buf : List UInt8) (uncopied : Nat) : Heap :=
  let copied := buf.length - uncopied
  h.storeList dst 0 (buf.take copied ++ List.replicate (buf.length - copied) 0)

/-- What `copy_to_user` of `n` bytes leaves in the user's buffer. -/
def copyToUser (h : Heap) (ubuf : List UInt8) (src n uncopied : Nat) : List UInt8 :=
  h.bytesAt src 0 (n - uncopied) ++ ubuf.drop (n - uncopied)

def ENOMEM : Int := 12
def EINVAL : Int := 22
def ENOTTY : Int := 25

def newline : UInt8 := 10

@[simp] theorem kmalloc_some (h : Heap) (n : Nat) (init : Int → UInt8) :
    kmalloc h n (some init) = h.alloc n init := rfl

theorem copyFromUser_all (h : Heap) (dst : Nat) (buf : List UInt8) :
    copyFromUser h dst buf 0 = h.storeList dst 0 buf := by
  simp [copyFromUser]

end Aesd

import Aesd.DeviceStore

/-! `aesd_read` on a device that holds a log: which bytes a read delivers, when it stays
in bounds, and where it leaves the position. A read never crosses the end of the slot
array, so it may be short; the next one goes on from there. -/
namespace Aesd
open FixedWidth Memory Concat

def contents (lines : List (List UInt8)) : List UInt8 := lines.flatten

theorem length_contents (lines : List (List UInt8)) :
    (contents lines).length = (lines.map List.length).sum := by
  rw [contents, List.length_flatten]

/-- The lines a read starting at line `j` can reach. -/
def segment (r : RingBuffer BufferEntry 10) (lines : List (List UInt8)) (j : Nat) :
    List (List UInt8) := (lines.take (segmentEnd r j)).drop j

def readBlocks (env : ReadEnv) (k : Kernel) (count : Nat) : Heap :=
  let o := kmalloc (kmalloc k.heap count env.tmpBuf).2 8 env.byteOffset
  o.2.check o.1 0

theorem ReadEnv.Allocates.eq {env : ReadEnv} (ha : env.Allocates) :
    ∃ a o t, env = ⟨some a, some o, env.stale, some t, env.uncopied⟩ := by
  obtain ⟨a, ha'⟩ := Option.isSome_iff_exists.mp ha.tmpBuf
  obtain ⟨o, ho⟩ := Option.isSome_iff_exists.mp ha.byteOffset
  obtain ⟨t, ht⟩ := Option.isSome_iff_exists.mp ha.tmp
  cases env
  simp_all

theorem aesdRead_pastEnd (env : ReadEnv) {k : Kernel} (count : Nat) (ubuf : List UInt8) {fPos : Int}
    (hunlocked : k.dev.mutex = false) (hpos : k.dev.buffer.totalSize ≤ fPos) :
    aesdRead env k ubuf count fPos =
      some ⟨⟨k.dev, (kmalloc k.heap count env.tmpBuf).2⟩, fPos, 0, ubuf⟩ := by
  obtain ⟨⟨mutex, _, _, _, _, _⟩, heap⟩ := k
  cases hunlocked
  dsimp only at hpos
  simp only [aesdRead, Bool.false_eq_true, if_false, Kernel.mutexLock, Bool.not_true, readSection,
    ge_iff_le, hpos, if_true, Kernel.mutexUnlock, Option.bind_eq_bind, Option.bind_some]

section Blocks
variable {env : ReadEnv} (ha : env.Allocates) (k : Kernel) (count : Nat)
include ha

theorem readBlocks_extends : k.heap.Extends (readBlocks env k count) := by
  obtain ⟨a, o, t, heq⟩ := ha.eq
  rw [heq, readBlocks]
  exact (((Heap.Extends.refl k.heap).alloc count a).alloc 8 o).check _ 0

theorem readBlocks_next : (readBlocks env k count).next = k.heap.next + 2 := by
  obtain ⟨a, o, t, heq⟩ := ha.eq
  rw [heq]
  rfl

theorem readBlocks_fault : (readBlocks env k count).fault = k.heap.fault := by
  obtain ⟨a, o, t, heq⟩ := ha.eq
  rw [heq]
  simp [readBlocks, Heap.ok, Heap.alloc]

theorem readBlocks_live :
    ((readBlocks env k count).block k.heap.next).live = true ∧
      ((readBlocks env k count).block (k.heap.next + 1)).live = true := by
  obtain ⟨a, o, t, heq⟩ := ha.eq
  rw [heq]
  simp [readBlocks, Heap.alloc, Function.update]

theorem readBlocks_len : ((readBlocks env k count).block k.heap.next).len = count := by
  obtain ⟨a, o, t, heq⟩ := ha.eq
  rw [heq]
  simp [readBlocks, Heap.alloc, Function.update]

def readFreed (k : Kernel) (count : Nat) (h : Heap) : Heap :=
  ((h.checkRange k.heap.next 0 count).free (k.heap.next + 1)).free k.heap.next

theorem readHelper_readBlocks_extends (b : CircularBuffer) (index1 index2 byteOffset : Nat) :
    k.heap.Extends (readFreed k count (readHelper (readBlocks env k count) b index1 index2
      k.heap.next count byteOffset env.tmp).1) := by
  obtain ⟨init, hinit⟩ := Option.isSome_iff_exists.mp ha.tmp
  have hnext := readBlocks_next ha k count
  have ext := readBlocks_extends ha k count
  have hcopy : k.heap.Extends (readHelper (readBlocks env k count) b index1 index2
      k.heap.next count byteOffset env.tmp).1 := by
    rw [hinit]
    refine ⟨by rw [next_readHelper, hnext]; omega, fun q hq => ?_⟩
    rw [readHelper_extends _ _ _ _ _ _ _ _ _ (by omega) (by omega), ext.same q hq]
  exact ((hcopy.checkRange _ _ _).free _ (Nat.le_succ _)).free _ (Nat.le_refl _)

theorem fault_readFreed (b : CircularBuffer) (index1 index2 byteOffset : Nat) :
    let c := readHelper (readBlocks env k count) b index1 index2 k.heap.next count byteOffset
      env.tmp
    (readFreed k count c.1).fault = c.1.fault := by
  obtain ⟨init, hinit⟩ := Option.isSome_iff_exists.mp ha.tmp
  have hnext := readBlocks_next ha k count
  have hlive := readBlocks_live ha k count
  have hlen := readBlocks_len ha k count
  have hd : k.heap.next < (readBlocks env k count).next := by omega
  dsimp only
  rw [hinit, readFreed, Heap.fault_free, Heap.fault_free, Heap.live_free, Heap.fault_checkRange,
    Heap.block_checkRange, live_readHelper_data _ hd,
    readHelper_extends _ _ _ _ _ _ _ _ _ (by omega) (by omega), hlive.1, hlive.2, Heap.okRange,
    live_readHelper_data _ hd, len_readHelper_data _ hd, hlen, hlive.1]
  simp

theorem aesdRead_within {k : Kernel} (count : Nat) (ubuf : List UInt8) {fPos : Int}
    (hunlocked : k.dev.mutex = false) (hpos : fPos < k.dev.buffer.totalSize) :
    aesdRead env k ubuf count fPos =
      (readStart env.stale k.dev.buffer (readPosition k.dev fPos)).map fun start =>
        let r := readHelper (readBlocks env k count) k.dev.buffer start.1
          (readStop k.dev.buffer start.1) k.heap.next count start.2 env.tmp
        let inside := readPosition k.dev fPos < k.dev.buffer.totalSize
        { kernel :=
            { dev := { k.dev with seek := false }
              heap := readFreed k count r.1 }
          fPos := if inside then toSsize (readPosition k.dev fPos + r.2) else readPosition k.dev fPos
          ret := if inside then toSsize r.2 else 0
          ubuf := copyToUser r.1 ubuf k.heap.next count env.uncopied } := by
  obtain ⟨a, o, t, heq⟩ := ha.eq
  obtain ⟨⟨mutex, buffer, behind, entry, isPartial, seekto, seek⟩, heap⟩ := k
  cases hunlocked
  have hge : ¬ fPos ≥ buffer.totalSize := by
    dsimp only at hpos
    omega
  rw [heq]
  simp only [aesdRead, Kernel.mutexLock, readSection, hge, Bool.false_eq_true, if_false,
    Bool.not_true]
  have hsame : readPosition ⟨true, buffer, behind, entry, isPartial, seekto, seek⟩ fPos =
      readPosition ⟨false, buffer, behind, entry, isPartial, seekto, seek⟩ fPos := rfl
  rw [hsame]
  cases readStart env.stale buffer
    (readPosition ⟨false, buffer, behind, entry, isPartial, seekto, seek⟩ fPos) with
  | none => rfl
  | some start =>
      dsimp only [Option.map_some, Option.bind_eq_bind, Option.bind_some, Kernel.mutexUnlock]
      rw [readEpilog]
      simp only [Bool.false_eq_true, if_false]
      split <;> rfl

end Blocks

theorem take_segment {r : RingBuffer BufferEntry 10} {lines : List (List UInt8)} {p j off n : Nat}
    (hp : ((lines.map List.length).take j).sum + off = p)
    (hn : off + n ≤ ((segment r lines j).map List.length).sum) (hn' : 0 < n) :
    ((contents lines).drop p).take n = ((segment r lines j).flatten.drop off).take n ∧
      p + n ≤ (contents lines).length := by
  rw [← List.length_flatten] at hn
  have heq : ((contents lines).drop p).take n = ((segment r lines j).flatten.drop off).take n := by
    rw [← hp, contents, drop_flatten]
    exact take_drop_flatten_take lines j (segmentEnd r j) off n hn
  have hlen := congrArg List.length heq
  rw [List.length_take, List.length_take, List.length_drop, List.length_drop] at hlen
  exact ⟨heq, by omega⟩

/-- A read of `count` bytes from byte `off` of line `j`, which is byte `p` of the log. -/
structure ReadAt (k : Kernel) (r : RingBuffer BufferEntry 10)
    (lines : List (List UInt8)) (count p j off : Nat) (res : ReadResult) : Prop where
  line : j < lines.length
  start : ((lines.map List.length).take j).sum + off = p
  inside : off < ((segment r lines j).map List.length).headD 0
  dev : res.kernel.dev = { k.dev with seek := false }
  fault : res.kernel.heap.fault = false ↔ ReadFits count off ((segment r lines j).map List.length)
  head : ∃ n : Nat, res.ret = n ∧ min count (lines[j].length - off) ≤ n ∧
    res.ubuf.take (min count (lines[j].length - off)) =
      (lines[j].drop off).take (min count (lines[j].length - off))
  delivered : res.kernel.heap.fault = false →
    ∃ n, n = min count (((segment r lines j).map List.length).sum - off) ∧ 1 ≤ n ∧ n ≤ count ∧
      p + n ≤ (contents lines).length ∧ res.ret = n ∧ res.fPos = (p + n : Nat) ∧
      res.ubuf.take n = ((contents lines).drop p).take n
  stores : res.kernel.heap.fault = false → Stores res.kernel r lines

namespace Stores
variable {k : Kernel} {r : RingBuffer BufferEntry 10} {lines : List (List UInt8)}
  {env : ReadEnv} {count : Nat} {fPos : Int}

theorem exists_start (s : Stores k r lines) {p : Nat}
    (hp : p < (lines.map List.length).sum) :
    ∃ j off size rest, startOf (sizes r) p = some (j, off) ∧ j < r.count ∧
      (sizes r).drop j = size :: rest ∧ off < size ∧ ((sizes r).take j).sum + off = p := by
  rw [← s.sizes_eq] at hp
  obtain ⟨j, off, hloc⟩ := exists_locate hp
  obtain ⟨hj, hoff, hsum⟩ := (locate_eq_some_iff _ _ _ _).mp hloc
  have hdrop := List.drop_eq_getElem_cons hj
  by_cases h0 : p = 0
  · subst h0
    have hpos : 0 < (sizes r).length := by omega
    have hfirst : 0 < (sizes r)[0] := by
      have hmem : (sizes r)[0] ∈ lines.map List.length := by
        rw [← s.sizes_eq]
        exact List.getElem_mem hpos
      obtain ⟨l, hl, hlen⟩ := List.mem_map.mp hmem
      rw [← hlen]
      exact List.length_pos_iff.mpr (s.nonempty l hl)
    exact ⟨0, 0, _, _, by rw [startOf, if_pos rfl], by simpa using hpos,
      List.drop_eq_getElem_cons hpos, hfirst, by simp⟩
  · exact ⟨j, off, _, _, by rw [startOf, if_neg h0, hloc], by simpa using hj, hdrop, hoff, hsum⟩

theorem segment_sizes (s : Stores k r lines) (j : Nat) :
    (segment r lines j).map List.length = ((sizes r).take (segmentEnd r j)).drop j := by
  rw [segment, List.map_drop, List.map_take, s.sizes_eq]

theorem segment_cons (s : Stores k r lines) {j : Nat} (hj : j < r.count) :
    (segment r lines j).map List.length =
      (k.dev.buffer.slot (r.place j)).size :: ((sizes r).take (segmentEnd r j)).drop (j + 1) := by
  have hlt := lt_segmentEnd hj
  have hsub : segmentEnd r j - j = (segmentEnd r j - (j + 1)) + 1 := by omega
  rw [s.segment_sizes, List.drop_take, s.mirrors.drop_sizes hj, List.drop_take, hsub,
    List.take_succ_cons]

theorem segment_owned (s : Stores k r lines) (j : Nat) :
    List.Forall₂ (Owns k.heap) ((r.live.take (segmentEnd r j)).drop j) (segment r lines j) :=
  List.forall₂_drop _ (List.forall₂_take _ s.owned)

theorem pos_of_mem_segment (s : Stores k r lines) {j n : Nat}
    (hn : n ∈ (segment r lines j).map List.length) : 0 < n := by
  obtain ⟨l, hl, rfl⟩ := List.mem_map.mp hn
  exact List.length_pos_iff.mpr (s.nonempty l (List.mem_of_mem_take (List.mem_of_mem_drop hl)))

theorem segment_slots (s : Stores k r lines) (hsize : ∀ l ∈ lines, count + l.length < 2 ^ 32)
    {j off : Nat} (hj : j < r.count) (hoff : off < (k.dev.buffer.slot (r.place j)).size) :
    count + off < 2 ^ 32 ∧ ∀ e ∈ k.dev.buffer.slotRange
      (readStop k.dev.buffer (r.place j) - r.place j) (r.place j),
      e.buffptr < k.heap.next ∧ e.size < 2 ^ 63 := by
  rw [s.mirrors.slotRange_segment hj]
  constructor
  · have hfirst : (k.dev.buffer.slot (r.place j)).size ∈ (segment r lines j).map List.length := by
      rw [s.segment_cons hj]
      exact List.mem_cons_self
    obtain ⟨l, hl, hlen⟩ := List.mem_map.mp hfirst
    have hlt := hsize l (List.mem_of_mem_take (List.mem_of_mem_drop hl))
    omega
  · intro e he
    obtain ⟨i, hi, rfl⟩ := List.getElem_of_mem (List.mem_of_mem_take (List.mem_of_mem_drop he))
    have o := s.owned.get hi (by rw [← s.owned.length_eq]; exact hi)
    refine ⟨o.holds.lt_next, ?_⟩
    have hlen := o.size
    have hlt := hsize _ (List.get_mem lines ⟨i, by rw [← s.owned.length_eq]; exact hi⟩)
    simp only [List.get_eq_getElem] at hlen hlt
    omega

theorem copy (s : Stores k r lines) (hs : env.Succeeds) (hcount : 0 < count)
    (hsize : ∀ l ∈ lines, count + l.length < 2 ^ 32) {j off : Nat} (hj : j < r.count)
    (hoff : off < (k.dev.buffer.slot (r.place j)).size) :
    let c := readHelper (readBlocks env k count) k.dev.buffer (r.place j)
      (readStop k.dev.buffer (r.place j)) k.heap.next count off env.tmp
    let ss := (segment r lines j).map List.length
    (c.1.fault = false ↔ ReadFits count off ss) ∧
      (ReadFits count off ss →
        c.2 = min count (ss.sum - off) ∧ off < ss.sum ∧
          c.1.bytesAt k.heap.next 0 c.2 = ((segment r lines j).flatten.drop off).take c.2) := by
  obtain ⟨init, hinit⟩ := Option.isSome_iff_exists.mp hs.tmp
  have ext := readBlocks_extends hs.toAllocates k count
  have hrange := s.mirrors.slotRange_segment hj
  have hcons := s.segment_cons hj
  obtain ⟨hword, hslots⟩ := s.segment_slots hsize hj hoff
  have hown : List.Forall₂ (Owns (readBlocks env k count))
      (k.dev.buffer.slotRange (readStop k.dev.buffer (r.place j) - r.place j) (r.place j))
      (segment r lines j) := by
    rw [hrange]
    exact (s.segment_owned j).imp fun _ _ o => o.of_extends ext
  have hcopy := readHelper_owned init hown (readBlocks_live hs.toAllocates k count).1
    (readBlocks_len hs.toAllocates k count)
    (fun e he => Nat.ne_of_lt (hslots e he).1)
    (by rw [readBlocks_fault hs.toAllocates, s.faultless]) hcount
    (fun e he => (hslots e he).2) hword
    (by
      rw [hrange, List.map_drop, List.map_take, ← sizes, ← s.segment_sizes]
      exact hcons) hoff
    (fun n hn => s.pos_of_mem_segment (j := j) (by rw [hcons]; exact List.mem_cons_of_mem _ hn))
  rw [hcons, hinit]
  refine ⟨hcopy.1, fun hfits => ⟨(hcopy.2 hfits).1, ?_, (hcopy.2 hfits).2⟩⟩
  rw [List.sum_cons]
  omega

theorem copy_head (s : Stores k r lines) (hs : env.Succeeds) (hcount : 0 < count)
    (hsize : ∀ l ∈ lines, count + l.length < 2 ^ 32) {j off : Nat} (hj : j < lines.length)
    (hoff : off < lines[j].length) :
    let c := readHelper (readBlocks env k count) k.dev.buffer (r.place j)
      (readStop k.dev.buffer (r.place j)) k.heap.next count off env.tmp
    let m := min count (lines[j].length - off)
    m ≤ c.2 ∧ c.2 < 2 ^ 32 ∧ c.1.bytesAt k.heap.next 0 m = (lines[j].drop off).take m := by
  have hlt : j < r.count := by rw [← s.length_eq]; exact hj
  have own : Owns k.heap (k.dev.buffer.slot (r.place j)) lines[j] := by
    have o := s.owned.get (show j < r.live.length by simpa using hlt) hj
    simp only [List.get_eq_getElem, RingBuffer.getElem_live, ← s.mirrors.slot] at o
    exact o
  have hoff' : off < (k.dev.buffer.slot (r.place j)).size := by
    rw [own.size]
    exact hoff
  obtain ⟨hword, hslots⟩ := s.segment_slots hsize hlt hoff'
  have hstop : (r.place j).val < readStop k.dev.buffer (r.place j) := by
    have hlen := congrArg List.length (s.mirrors.slotRange_segment hlt)
    have hend := lt_segmentEnd hlt
    have hle := segmentEnd_le r j
    simp only [CircularBuffer.length_slotRange, List.length_drop, List.length_take,
      RingBuffer.length_live] at hlen
    omega
  have hhead : (k.dev.buffer.slot (r.place j)).buffptr < k.heap.next := own.holds.lt_next
  obtain ⟨init, hinit⟩ := Option.isSome_iff_exists.mp hs.tmp
  have hdata : k.heap.next < (readBlocks env k count).next := by
    rw [readBlocks_next hs.toAllocates]
    omega
  obtain ⟨hle, hlt', hbytes⟩ := readHelper_head init hstop
    (own.of_extends (readBlocks_extends hs.toAllocates k count)) hdata (Nat.ne_of_lt hhead)
    (fun e he => (hslots e he).2) hword hoff' hcount
  rw [hinit]
  exact ⟨hle, by omega, hbytes⟩

theorem guard (s : Stores k r lines) (hslots : SmallSlots k.dev.buffer.entry) {p : Nat}
    (hp : p < (contents lines).length) : p = 0 ∨ p < k.dev.buffer.totalChars := by
  rw [length_contents] at hp
  exact Or.inr (hp.trans_le (s.length_le_totalChars hslots))

theorem of_extends (s : Stores k r lines) {k' : Kernel} (ext : k.heap.Extends k'.heap)
    (hbuf : k'.dev.buffer = k.dev.buffer) (hlock : k'.dev.mutex = false)
    (hfault : k'.heap.fault = false) : Stores k' r lines where
  mirrors := by rw [hbuf]; exact s.mirrors
  unlocked := hlock
  faultless := hfault
  owned := s.owned.imp fun _ _ o => o.of_extends ext
  distinct := s.distinct
  nonempty := s.nonempty
  small := s.small

theorem read_pastEnd (s : Stores k r lines) (ubuf : List UInt8) (count : Nat)
    (hs : env.Succeeds)
    (hpos : k.dev.buffer.totalSize ≤ fPos) :
    ∃ res, aesdRead env k ubuf count fPos = some res ∧ res.ret = 0 ∧ res.fPos = fPos ∧
      res.ubuf = ubuf ∧ res.kernel.dev = k.dev ∧ Stores res.kernel r lines := by
  obtain ⟨init, hinit⟩ := Option.isSome_iff_exists.mp hs.tmpBuf
  have hread := aesdRead_pastEnd env count ubuf s.unlocked hpos
  rw [hinit, kmalloc_some] at hread
  exact ⟨_, hread, rfl, rfl, rfl, rfl,
    s.of_extends ((Heap.Extends.refl k.heap).alloc count init) rfl s.unlocked s.faultless⟩

theorem segment_head (s : Stores k r lines) {j : Nat} (hj : j < lines.length) :
    ((segment r lines j).map List.length).headD 0 = lines[j].length := by
  have hlt : j < r.count := by rw [← s.length_eq]; exact hj
  have hget := s.mirrors.drop_sizes hlt
  rw [s.sizes_eq, List.drop_eq_getElem_cons (by simpa using hj), List.cons.injEq,
    List.getElem_map] at hget
  rw [s.segment_cons hlt, List.headD_cons, hget.1]

theorem read_at (s : Stores k r lines) (ubuf : List UInt8) (hs : env.Succeeds)
    (hcount : 0 < count) (hsize : ∀ l ∈ lines, count + l.length < 2 ^ 32)
    (hpos : fPos < k.dev.buffer.totalSize) {p : Nat} (hp : readPosition k.dev fPos = p)
    (hguard : p = 0 ∨ p < k.dev.buffer.totalChars) (hin : p < (contents lines).length) :
    ∃ j off res, aesdRead env k ubuf count fPos = some res ∧
      ReadAt k r lines count p j off res := by
  have htotal := s.totalSize
  have hsum := s.sum_lt
  rw [length_contents] at hin
  obtain ⟨j, off, size, rest, hstart, hj, hdrop, hoff, hoffsum⟩ := s.exists_start hin
  rw [s.mirrors.drop_sizes hj, List.cons.injEq] at hdrop
  have hsz : off < (k.dev.buffer.slot (r.place j)).size := by
    rw [hdrop.1]
    exact hoff
  have hread := s.mirrors.readStart_of_startOf env.stale hguard (by omega) hstart
  have hwithin := aesdRead_within hs.toAllocates count ubuf s.unlocked hpos
  have ext := readHelper_readBlocks_extends hs.toAllocates k count k.dev.buffer (r.place j)
    (readStop k.dev.buffer (r.place j)) off
  have hfault := fault_readFreed hs.toAllocates k count k.dev.buffer (r.place j)
    (readStop k.dev.buffer (r.place j)) off
  obtain ⟨hiff, hdone⟩ := s.copy hs hcount hsize hj hsz
  have hline : j < lines.length := by rw [s.length_eq]; exact hj
  have hinside : off < ((segment r lines j).map List.length).headD 0 := by
    rw [s.segment_cons hj]
    exact hsz
  obtain ⟨hhead, hword, hfirst⟩ :=
    s.copy_head hs hcount hsize hline (s.segment_head hline ▸ hinside)
  have hlt : ((p : Nat) : Int) < k.dev.buffer.totalSize := by
    rw [htotal]
    exact_mod_cast hin
  rw [hp, hread] at hwithin
  simp only [Option.map_some, hlt, if_true] at hwithin
  refine ⟨j, off, _, hwithin, ?_⟩
  have hheap : (readFreed k count (readHelper (readBlocks env k count) k.dev.buffer (r.place j)
      (readStop k.dev.buffer (r.place j)) k.heap.next count off env.tmp).1).fault = false ↔
      ReadFits count off ((segment r lines j).map List.length) := by
    rw [hfault]
    exact hiff
  have hstart' : ((lines.map List.length).take j).sum + off = p := by
    rw [← s.sizes_eq]
    exact hoffsum
  refine ⟨hline, hstart', hinside, rfl, hheap, ?_, fun hfree => ?_, fun hfree => ?_⟩
  · refine ⟨_, toSsize_of_lt (by omega), hhead, ?_⟩
    rw [hs.copied, copyToUser, Nat.sub_zero, List.take_append_of_le_length (by simp),
      Heap.bytesAt_take, Nat.min_eq_left (by omega), hfirst]
  · obtain ⟨hcopied, hlt', hbytes⟩ := hdone (hheap.mp hfree)
    generalize readHelper (readBlocks env k count) k.dev.buffer (r.place j)
      (readStop k.dev.buffer (r.place j)) k.heap.next count off env.tmp = c at hcopied hbytes ⊢
    obtain ⟨hlog, hle⟩ := take_segment (r := r) (n := c.2) hstart' (by omega) (by omega)
    rw [length_contents] at hle
    refine ⟨c.2, hcopied, by omega, by omega, by rw [length_contents]; exact hle,
      toSsize_of_lt (by omega), ?_, ?_⟩
    · rw [← Nat.cast_add]
      exact toSsize_of_lt (by omega)
    · have hc2 : c.2 ≤ count := by omega
      rw [hs.copied, copyToUser, Nat.sub_zero, List.take_append_of_le_length (by simpa using hc2),
        Heap.bytesAt_take, Nat.min_eq_left hc2, hbytes, hlog]
  · exact s.of_extends ext rfl s.unlocked hfree

theorem readAt_unique (s : Stores k r lines) {p j j' off off' : Nat} {res : ReadResult}
    (ra : ReadAt k r lines count p j off res) (hj : j' < lines.length)
    (hoff : off' < lines[j'].length) (hp : ((lines.map List.length).take j').sum + off' = p) :
    j = j' ∧ off = off' := by
  have hin := ra.inside
  rw [s.segment_head ra.line] at hin
  have hloc := (locate_eq_some_iff (lines.map List.length) p j off).mpr
    ⟨by simpa using ra.line, by simpa using hin, ra.start⟩
  have hloc' := (locate_eq_some_iff (lines.map List.length) p j' off').mpr
    ⟨by simpa using hj, by simpa using hoff, hp⟩
  rw [hloc, Option.some.injEq, Prod.mk.injEq] at hloc'
  exact hloc'

theorem readAt_faultless (s : Stores k r lines) {p j j' off off' : Nat} {res : ReadResult}
    (ra : ReadAt k r lines count p j off res) (hj : j' < lines.length)
    (hp : ((lines.map List.length).take j').sum + off' = p) (hcount : 0 < count)
    (hfits : off' = 0 ∨ off' + count ≤ lines[j'].length) : res.kernel.heap.fault = false := by
  have hlen : 0 < lines[j'].length := List.length_pos_iff.mpr (s.nonempty _ (List.getElem_mem hj))
  obtain ⟨rfl, rfl⟩ := s.readAt_unique ra hj (by omega) hp
  rw [ra.fault, ReadFits, s.segment_head hj]
  tauto

end Stores

structure ReadCall where
  env : ReadEnv
  ubuf : List UInt8
  count : Nat

/-- The call's kernel calls succeed, and its count and a line's length together fit a `uint`. -/
structure ReadCall.Valid (lines : List (List UInt8)) (c : ReadCall) : Prop where
  succeeds : c.env.Succeeds
  count_pos : 0 < c.count
  size : ∀ l ∈ lines, c.count + l.length < 2 ^ 32

/-- Reads one after the other, none of them out of bounds, and the bytes they returned. -/
inductive ReadChain (lines : List (List UInt8)) :
    Kernel → Int → List UInt8 → Kernel → Int → Prop
  | nil (k : Kernel) (fPos : Int) : ReadChain lines k fPos [] k fPos
  | read {k k' : Kernel} {fPos fPos' : Int} {out : List UInt8} {res : ReadResult} (c : ReadCall)
      (valid : c.Valid lines) (call : aesdRead c.env k c.ubuf c.count fPos = some res)
      (faultless : res.kernel.heap.fault = false)
      (rest : ReadChain lines res.kernel res.fPos out k' fPos') :
      ReadChain lines k fPos (res.ubuf.take res.ret.toNat ++ out) k' fPos'

/-- Reads from byte `p` on hand over the bytes from there on, each of them once. -/
theorem ReadChain.delivers {lines : List (List UInt8)} {k k' : Kernel} {fPos fPos' : Int}
    {out : List UInt8} {r : RingBuffer BufferEntry 10} (chain : ReadChain lines k fPos out k' fPos')
    (s : Stores k r lines) (hslots : SmallSlots k.dev.buffer.entry) (hseek : k.dev.seek = false)
    {p : Nat} (hp : fPos = p) (hle : p ≤ (contents lines).length) :
    Stores k' r lines ∧ SmallSlots k'.dev.buffer.entry ∧ k'.dev.seek = false ∧
      fPos' = (p + out.length : Nat) ∧
      p + out.length ≤ (contents lines).length ∧
      out = ((contents lines).drop p).take out.length := by
  induction chain generalizing p with
  | nil k fPos => exact ⟨s, hslots, hseek, by simpa using hp, by simpa using hle, by simp⟩
  | @read k k' fPos fPos' out res c valid call faultless rest ih =>
      have htotal := s.totalSize
      rw [← length_contents] at htotal
      by_cases hin : p < (contents lines).length
      · have hpos : readPosition k.dev fPos = p := by
          rw [readPosition, hseek, hp]
          rfl
        obtain ⟨j, off, res', hcall, ra⟩ := s.read_at c.ubuf
          valid.succeeds valid.count_pos valid.size (by omega) hpos (s.guard hslots hin) hin
        rw [call, Option.some.injEq] at hcall
        subst hcall
        obtain ⟨n, -, hn1, hnc, hnle, hret, hfp, hbytes⟩ := ra.delivered faultless
        have hdev := ra.dev
        obtain ⟨s', hslots', hseek', hfp', hle', hout⟩ :=
          ih (ra.stores faultless) (by rw [hdev]; exact hslots) (by rw [hdev]) hfp hnle
        have hlen : (res.ubuf.take res.ret.toNat).length = n := by
          rw [hret, Int.toNat_natCast, hbytes, List.length_take, List.length_drop]
          omega
        refine ⟨s', hslots', hseek', ?_, ?_, ?_⟩
        · rw [hfp', List.length_append, hlen, Nat.add_assoc]
        · rw [List.length_append, hlen]
          omega
        · rw [List.length_append, hlen, List.take_add, List.drop_drop, ← hout, hret,
            Int.toNat_natCast, hbytes]
      · obtain ⟨res', hcall, hret, hfp, -, hdev, s'⟩ := s.read_pastEnd c.ubuf c.count valid.succeeds
          (show k.dev.buffer.totalSize ≤ fPos by omega)
        rw [call, Option.some.injEq] at hcall
        subst hcall
        rw [hret, Int.toNat_zero, List.take_zero, List.nil_append]
        exact ih s' (by rw [hdev]; exact hslots) (by rw [hdev]; exact hseek) (hfp.trans hp) hle

/-- Reads deliver the stored log. From any state reached by commits and flushes, a read at or
past the end returns 0; one below it that stays in bounds hands over the next bytes of the
log; reads within the first line, or from the start of a line, do stay in bounds; and a
chain of reads from position 0 hands over the log up to where it gets, all of it once a
further read returns 0. -/
theorem reads_deliver_log (ops : List LogOp) (hv : ∀ op ∈ ops, op.Valid) (unset : Unset) :
    let k := LogOp.run (initModule CircularBuffer.init.entry unset) ops
    let lines := LogOp.log ops
    (∀ c : ReadCall, c.Valid lines → ∀ p : Nat,
      (k.dev.buffer.totalSize ≤ p → ∃ res, aesdRead c.env k c.ubuf c.count p = some res ∧
        res.ret = 0 ∧ res.fPos = p) ∧
      (p < k.dev.buffer.totalSize → ∃ res, aesdRead c.env k c.ubuf c.count p = some res ∧
        (res.kernel.heap.fault = false → ∃ n : Nat, 1 ≤ n ∧ n ≤ c.count ∧
          p + n ≤ (contents lines).length ∧ res.ret = n ∧ res.fPos = (p + n : Nat) ∧
          res.ubuf.take n = ((contents lines).drop p).take n) ∧
        (∀ j off : Nat, (hj : j < lines.length) → ((lines.map List.length).take j).sum + off = p →
          off = 0 ∨ off + c.count ≤ lines[j].length → res.kernel.heap.fault = false))) ∧
    (∀ out k' fPos, ReadChain lines k 0 out k' fPos →
      fPos = out.length ∧ out = (contents lines).take out.length ∧
        ∀ c : ReadCall, c.Valid lines → ∀ res,
          aesdRead c.env k' c.ubuf c.count fPos = some res → res.kernel.heap.fault = false →
            res.ret = 0 → out = contents lines) := by
  intro k lines
  obtain ⟨r, (s : Stores k r lines), -, (hseek : k.dev.seek = false), small⟩ :=
    LogOp.run_stores CircularBuffer.init.entry unset ops hv
  have hslots : SmallSlots k.dev.buffer.entry := small smallSlots_init
  have htotal : k.dev.buffer.totalSize = (contents lines).length := by
    rw [length_contents]
    exact s.totalSize
  refine ⟨fun c valid p => ⟨fun hge => ?_, fun hlt => ?_⟩, fun out k' fPos chain => ?_⟩
  · obtain ⟨res, hcall, hret, hfp, -⟩ := s.read_pastEnd c.ubuf c.count valid.succeeds hge
    exact ⟨res, hcall, hret, hfp⟩
  · have hpos : readPosition k.dev p = p := by
      rw [readPosition, hseek]
      rfl
    obtain ⟨j, off, res, hcall, ra⟩ := s.read_at c.ubuf valid.succeeds valid.count_pos
      valid.size hlt hpos (s.guard hslots (by omega)) (by omega)
    refine ⟨res, hcall, fun hfree => ?_, fun j' off' hj hp hfits => ?_⟩
    · obtain ⟨n, -, hn⟩ := ra.delivered hfree
      exact ⟨n, hn⟩
    · exact s.readAt_faultless ra hj hp valid.count_pos hfits
  · obtain ⟨s', hslots', hseek', hfp, hle, hout⟩ :=
      chain.delivers s hslots hseek rfl (Nat.zero_le _)
    rw [Nat.zero_add] at hfp hle
    rw [List.drop_zero] at hout
    refine ⟨hfp, hout, fun c valid res hcall hfree hret => ?_⟩
    have htotal' := s'.totalSize
    rw [← length_contents] at htotal'
    by_cases hend : out.length < (contents lines).length
    · have hpos : readPosition k'.dev fPos = out.length := by
        rw [readPosition, hseek', hfp]
        rfl
      obtain ⟨j, off, res', hcall', ra⟩ := s'.read_at c.ubuf valid.succeeds valid.count_pos
        valid.size (by omega) hpos (s'.guard hslots' hend) hend
      rw [hcall, Option.some.injEq] at hcall'
      subst hcall'
      obtain ⟨n, -, hn, -, -, hret', -⟩ := ra.delivered hfree
      omega
    · rw [hout]
      exact List.take_of_length_le (by omega)

def ReadCall.zeroed (count : Nat) : ReadCall :=
  ⟨⟨some fun _ => 0, some fun _ => 0, 0, some fun _ => 0, 0⟩, [], count⟩

theorem reads_deliver_log_two_lines :
    ∃ res, aesdRead (ReadCall.zeroed 4).env
        (LogOp.run (initModule CircularBuffer.init.entry .zeroed)
          [.commit [97, 98, 10], .commit [99, 10]])
        [] 4 (0 : Nat) = some res ∧
      ∃ n : Nat, 1 ≤ n ∧ res.ret = n ∧
        res.ubuf.take n = ([97, 98, 10, 99, 10] : List UInt8).take n := by
  have valid : (ReadCall.zeroed 4).Valid [[97, 98, 10], [99, 10]] :=
    ⟨⟨⟨rfl, rfl, rfl⟩, rfl⟩, by decide, by decide⟩
  have h := (reads_deliver_log [.commit [97, 98, 10], .commit [99, 10]]
    (by simp [LogOp.Valid, lineBound]) .zeroed).1 (ReadCall.zeroed 4) valid 0
  obtain ⟨res, hcall, hdone, hfits⟩ := h.2 (by decide)
  obtain ⟨n, hn, -, -, hret, -, hbytes⟩ := hdone (hfits 0 0 (by decide) rfl (Or.inl rfl))
  exact ⟨res, hcall, n, hn, hret, hbytes⟩

end Aesd

import Aesd.DeviceRuns
import Aesd.ReadDelivery

/-! What a read shows of the fresh block it copies out. `aesd_read` copies `count` bytes to
the user however many of them it has filled in, so two runs that differ only in the
block's old bytes agree exactly when the read fills in all it copies. -/
namespace Aesd
open FixedWidth Memory

/-- Reads that differ only in what the fresh `tmp_buf` contains leave the same bytes in the
user's buffer, those beyond the returned number being as they were. -/
def Undisclosing (env : ReadEnv) (k : Kernel) (count : Nat) (fPos : Int) : Prop :=
  ∀ (init init' : Int → UInt8) (ubuf : List UInt8), count ≤ ubuf.length → ∃ res res',
    aesdRead { env with tmpBuf := some init } k ubuf count fPos = some res ∧
      aesdRead { env with tmpBuf := some init' } k ubuf count fPos = some res' ∧
      res'.ubuf = res.ubuf ∧ res.ubuf.drop res.ret.toNat = ubuf.drop res.ret.toNat

def readSizes (b : CircularBuffer) (start : Nat) : List Nat :=
  (b.slotRange (readStop b start - start) start).map BufferEntry.size

/-- Nothing is copied to the user, or the file is at the end of data; or the read's position is before
it, and the entry that it lies in is `count` bytes long, or the entries from there to the end of
their stretch of the array, or to the first empty one, cover what is copied. -/
def CoversCopy (env : ReadEnv) (k : Kernel) (count : Nat) (fPos : Int) : Prop :=
  count ≤ env.uncopied ∨ k.dev.buffer.totalSize ≤ fPos ∨
    ∃ p i off, p = (if k.dev.seek then k.dev.seektoPosition else fPos) ∧
      p < k.dev.buffer.totalSize ∧ k.dev.buffer.Starts p i off ∧
      (count ≤ (k.dev.buffer.stretch i).headD 0 ∨
        count - env.uncopied + off ≤ availableBytes (k.dev.buffer.stretch i))

theorem mem_slotRange {b : CircularBuffer} {e : BufferEntry} {n i : Nat}
    (he : e ∈ b.slotRange n i) : ∃ m < n, e = b.slot (i + m) := by
  obtain ⟨m, hm, rfl⟩ := List.getElem_of_mem he
  exact ⟨m, by simpa using hm, b.getElem_slotRange n i m hm⟩

namespace Settled
variable {k : Kernel}

theorem used_of_lt_readStop (s : Settled k) {start i : Nat} (hstart : start < 10)
    (hi : i < readStop k.dev.buffer start - start) :
    start + i < 10 ∧ (k.dev.buffer.full = true ∨ start + i < k.dev.buffer.inOffs) := by
  have hin := s.inOffs_lt
  have hout := s.outOffs_lt
  unfold readStop maxWriteOperationsSupported at hi
  cases hfull : k.dev.buffer.full
  · rw [hfull] at hi
    simp only [Bool.not_false, if_true] at hi
    exact ⟨by omega, Or.inr (by omega)⟩
  · rw [hfull] at hi
    simp only [Bool.not_true, Bool.false_eq_true, if_false] at hi
    refine ⟨?_, Or.inl rfl⟩
    split at hi <;> omega

theorem handed_of_mem (s : Settled k) {start : Nat} (hstart : start < 10) {e : BufferEntry}
    (he : e ∈ k.dev.buffer.slotRange (readStop k.dev.buffer start - start) start) :
    Handed k.heap e := by
  obtain ⟨i, hi, rfl⟩ := mem_slotRange he
  obtain ⟨hlt, hused⟩ := s.used_of_lt_readStop hstart hi
  exact s.slots _ hlt hused

theorem stretch_eq (s : Settled k) (i : Nat) : k.dev.buffer.stretch i = readSizes k.dev.buffer i :=
  Aesd.stretch_eq k.dev.buffer s.inOffs_lt s.outOffs_lt i

theorem readPosition_range (s : Settled k) {fPos : Int} (h0 : -2 ^ 63 ≤ fPos)
    (hpos : fPos < k.dev.buffer.totalSize) :
    -2 ^ 63 ≤ readPosition k.dev fPos ∧ readPosition k.dev fPos < 2 ^ 63 := by
  have htotal := s.totalSize_lt
  unfold readPosition
  split
  · exact s.seekto
  · omega

end Settled

section Filled
variable {env : ReadEnv} {k : Kernel} {count index off : Nat}

def filled (env : ReadEnv) (k : Kernel) (count index off : Nat) (init : Int → UInt8) : Heap × Nat :=
  readHelper (readBlocks { env with tmpBuf := some init } k count) k.dev.buffer index
    (readStop k.dev.buffer index) k.heap.next count off env.tmp

theorem ReadEnv.Allocates.withTmpBuf (ha : env.Allocates) (init : Int → UInt8) :
    ReadEnv.Allocates { env with tmpBuf := some init } :=
  ⟨rfl, ha.byteOffset, ha.tmp⟩

theorem readBlocks_load (ha : env.Allocates) (init : Int → UInt8) (j : Int) :
    (readBlocks { env with tmpBuf := some init } k count).load k.heap.next j = init j := by
  obtain ⟨o, ho⟩ := Option.isSome_iff_exists.mp ha.byteOffset
  simp only [readBlocks, ho, kmalloc_some, Heap.load_check]
  rw [Heap.load_alloc_of_ne _ _ _ _ _ (by simp)]
  simp [Heap.load]

theorem filled_agree {env' : ReadEnv} {k' : Kernel} (s : Settled k) (ha : env.Allocates)
    (ha' : env'.Allocates) (hcount : count < kmallocBound) (hindex : index < 10)
    (hoff : off ≤ (k.dev.buffer.slot index).size)
    (same : List.Forall₂ (SameEntry k.heap k'.heap)
      (k.dev.buffer.slotRange (readStop k.dev.buffer index - index) index)
      (k'.dev.buffer.slotRange (readStop k'.dev.buffer index - index) index))
    (init init' : Int → UInt8) (j : Int) (h0 : 0 ≤ j)
    (hj : j < gathered count off (readSizes k.dev.buffer index) off 0) :
    (filled env' k' count index off init').1.load k'.heap.next j =
      (filled env k count index off init).1.load k.heap.next j := by
  obtain ⟨tmpBuf, byteOffset, stale, tmp, uncopied⟩ := env
  obtain ⟨tmpBuf', byteOffset', stale', tmp', uncopied'⟩ := env'
  obtain ⟨t, rfl⟩ := Option.isSome_iff_exists.mp ha.tmp
  obtain ⟨t', rfl⟩ := Option.isSome_iff_exists.mp ha'.tmp
  have hnext := readBlocks_next (ha.withTmpBuf init) k count
  have hnext' := readBlocks_next (ha'.withTmpBuf init') k' count
  have hext := readBlocks_extends (ha.withTmpBuf init) k count
  have hext' := readBlocks_extends (ha'.withTmpBuf init') k' count
  have hlen : readStop k'.dev.buffer index - index = readStop k.dev.buffer index - index := by
    simpa using same.length_eq.symm
  have hhanded : ∀ e ∈ k.dev.buffer.slotRange (readStop k.dev.buffer index - index) index,
      Handed k.heap e := fun e he => s.handed_of_mem hindex he
  rw [hlen] at same
  simp only [filled, readHelper, kmalloc_some, Heap.alloc_fst, hnext, hnext', hlen]
  rw [readSizes] at hj
  unfold kmallocBound at hcount
  cases hn : readStop k.dev.buffer index - index with
  | zero =>
      rw [hn] at hj
      simp only [CircularBuffer.slotRange, List.map_nil, gathered] at hj
      omega
  | succ m =>
      rw [hn] at hhanded same hj
      have hfirst := (hhanded (k.dev.buffer.slot index) (by simp [CircularBuffer.slotRange])).2
      unfold kmallocBound at hfirst
      have hk : toUint off = off := toUint_of_lt (by omega)
      have hsize : ∀ e ∈ k.dev.buffer.slotRange (m + 1) index, e.size < 2 ^ 63 := by
        intro e he
        have hlt := (hhanded e he).2
        unfold kmallocBound at hlt
        omega
      rw [hk]
      refine load_helperLoop_agree _ _ off _ _ _ _ ⟨_, off, 0⟩ ⟨_, off, 0⟩ (by omega) (by omega)
        (same.imp fun e e' se => ?_) hsize (by omega) (Or.inr ⟨rfl, rfl⟩) (Nat.zero_le _) (by rfl)
        (by rfl) (fun j h0 hj => ?_) j h0 hj
      · have hlt := se.lt_next
        have hlt' := se.lt_next'
        refine ⟨se.size, ⟨by omega, by omega⟩, ⟨by omega, by omega⟩,
          se.alike.of_load (fun i => ?_) fun i => ?_⟩
        · dsimp only
          rw [Heap.load_alloc_of_ne _ _ _ _ _ (by rw [hnext]; omega), hext.load hlt]
        · dsimp only
          rw [Heap.load_alloc_of_ne _ _ _ _ _ (by rw [hnext']; omega), hext'.load hlt']
      · dsimp only at hj
        omega

theorem filled_spec (s : Settled k) (ha : env.Allocates) (hcount : count < kmallocBound)
    (hindex : index < 10) (hoff : off ≤ (k.dev.buffer.slot index).size) :
    let n := gathered count off (readSizes k.dev.buffer index) off 0
    (∀ init, (filled env k count index off init).2 = n) ∧
      (∀ init init' (j : Int), 0 ≤ j → j < n →
        (filled env k count index off init').1.load k.heap.next j =
          (filled env k count index off init).1.load k.heap.next j) ∧
      ∀ init (j : Int), n ≤ j → (filled env k count index off init).1.load k.heap.next j = init j := by
  have hagree := fun init init' j => filled_agree s ha ha hcount hindex hoff
    (List.forall₂_same.mpr fun e he => (s.handed_of_mem hindex he).sameEntry) init init' j
  refine (and_left_comm.mp ⟨hagree, ?_⟩)
  obtain ⟨tmpBuf, byteOffset, stale, tmp, uncopied⟩ := env
  obtain ⟨t, rfl⟩ := Option.isSome_iff_exists.mp ha.tmp
  have hnext := fun init => readBlocks_next (ha.withTmpBuf init) k count
  have hhanded : ∀ e ∈ k.dev.buffer.slotRange (readStop k.dev.buffer index - index) index,
      Handed k.heap e := fun e he => s.handed_of_mem hindex he
  have hstart : ∀ init (j : Int), ((readBlocks
      ⟨some init, byteOffset, stale, some t, uncopied⟩ k count).alloc count t).2.load k.heap.next j =
        init j := by
    intro init j
    have hne : k.heap.next ≠ (readBlocks ⟨some init, byteOffset, stale, some t, uncopied⟩
        k count).next := by
      rw [hnext]
      omega
    rw [Heap.load_alloc_of_ne _ _ _ _ _ hne]
    exact readBlocks_load ha init j
  simp only [filled, readHelper, kmalloc_some, Heap.alloc_fst, hnext, readSizes]
  unfold kmallocBound at hcount
  cases hn : readStop k.dev.buffer index - index with
  | zero =>
      exact ⟨fun _ => rfl, fun init j _ => hstart init j⟩
  | succ m =>
      rw [hn] at hhanded
      have hfirst := (hhanded (k.dev.buffer.slot index) (by simp [CircularBuffer.slotRange])).2
      unfold kmallocBound at hfirst
      have hk : toUint off = off := toUint_of_lt (by omega)
      have hsize : ∀ e ∈ k.dev.buffer.slotRange (m + 1) index, e.size < 2 ^ 63 := by
        intro e he
        have hlt := (hhanded e he).2
        unfold kmallocBound at hlt
        omega
      have hapart : ∀ e ∈ k.dev.buffer.slotRange (m + 1) index,
          e.buffptr ≠ k.heap.next + 2 ∧ e.buffptr ≠ k.heap.next := by
        intro e he
        have hlt := (hhanded e he).1
        omega
      rw [hk]
      refine ⟨fun init => ?_, fun init j hj => ?_⟩
      · exact readCount_helperLoop _ _ _ _ _ _ hsize (by omega) (Or.inr ⟨rfl, rfl⟩) (Nat.zero_le _)
      · rw [load_helperLoop_ge _ _ off _ _ _ (by omega) hapart hsize (by omega)
          (Or.inr ⟨rfl, rfl⟩) (Nat.zero_le _) j hj]
        exact hstart init j

theorem aesdRead_filled (s : Settled k) (ha : env.Allocates) (hcount : count < kmallocBound)
    {fPos : Int} (hpos : fPos < k.dev.buffer.totalSize)
    (hstart : readStart env.stale k.dev.buffer (readPosition k.dev fPos) = some (index, off))
    (hindex : index < 10) (hoff : off ≤ (k.dev.buffer.slot index).size) (init : Int → UInt8)
    (ubuf : List UInt8) :
    ∃ res, aesdRead { env with tmpBuf := some init } k ubuf count fPos = some res ∧
      res.ret = (if readPosition k.dev fPos < k.dev.buffer.totalSize then
        toSsize (gathered count off (readSizes k.dev.buffer index) off 0) else 0) ∧
      res.ubuf = (filled env k count index off init).1.bytesAt k.heap.next 0 (count - env.uncopied) ++
        ubuf.drop (count - env.uncopied) ∧
      res.fPos = (if readPosition k.dev fPos < k.dev.buffer.totalSize then
        toSsize (readPosition k.dev fPos + gathered count off (readSizes k.dev.buffer index) off 0)
        else readPosition k.dev fPos) ∧
      k.heap.Extends res.kernel.heap := by
  have hspec := (filled_spec s ha hcount hindex hoff).1 init
  have hread := aesdRead_within (ha.withTmpBuf init) count ubuf s.unlocked hpos
  rw [hstart, Option.map_some] at hread
  refine ⟨_, hread, ?_, rfl, ?_, readHelper_readBlocks_extends (ha.withTmpBuf init) k count _ _ _ _⟩
  · rw [← hspec]
    rfl
  · rw [← hspec]
    rfl

end Filled

theorem undisclosing_of_le {env : ReadEnv} {k : Kernel} {count index off : Nat} {fPos : Int}
    (s : Settled k) (ha : env.Allocates) (hcount : count < kmallocBound)
    (hpos : fPos < k.dev.buffer.totalSize)
    (hstart : readStart env.stale k.dev.buffer (readPosition k.dev fPos) = some (index, off))
    (hindex : index < 10) (hoff : off ≤ (k.dev.buffer.slot index).size)
    (hle : count - env.uncopied = 0 ∨ readPosition k.dev fPos < k.dev.buffer.totalSize ∧
      count - env.uncopied ≤ gathered count off (readSizes k.dev.buffer index) off 0)
    (hret : gathered count off (readSizes k.dev.buffer index) off 0 < 2 ^ 63) :
    Undisclosing env k count fPos := by
  intro init init' ubuf hubuf
  obtain ⟨res, hcall, hres, hbuf, -⟩ := aesdRead_filled s ha hcount hpos hstart hindex hoff init ubuf
  obtain ⟨res', hcall', -, hbuf', -⟩ := aesdRead_filled s ha hcount hpos hstart hindex hoff init' ubuf
  obtain ⟨-, hagree, -⟩ := filled_spec s ha hcount hindex hoff
  rcases hle with hzero | ⟨hin, hle⟩
  · rw [hzero] at hbuf hbuf'
    have heq : res.ubuf = ubuf := by
      rw [hbuf]
      rfl
    refine ⟨res, res', hcall, hcall', ?_, by rw [heq]⟩
    rw [hbuf', heq]
    rfl
  · refine ⟨res, res', hcall, hcall', ?_, ?_⟩
    · rw [hbuf, hbuf']
      congr 1
      refine Heap.bytesAt_congr fun j hj => hagree init init' _ (by omega) (by omega)
    · rw [if_pos hin, toSsize_of_lt hret] at hres
      rw [hres, Int.toNat_natCast, hbuf, List.drop_append, Heap.length_bytesAt,
        List.drop_eq_nil_of_le (by simpa using hle), List.nil_append, List.drop_drop]
      congr 1
      omega

theorem readSizes_head (b : CircularBuffer) {index off : Nat} (hoff : off ≤ (b.slot index).size) :
    off ≤ (readSizes b index).headD off := by
  rw [readSizes]
  cases readStop b index - index with
  | zero => exact Nat.le_refl _
  | succ m => exact hoff

theorem gathered_readSizes_lt {k : Kernel} (s : Settled k) {count index off : Nat}
    (hcount : count < kmallocBound) (hindex : index < 10)
    (hoff : off ≤ (k.dev.buffer.slot index).size) :
    gathered count off (readSizes k.dev.buffer index) off 0 < 2 ^ 32 := by
  unfold kmallocBound at hcount
  have hhanded := fun e => s.handed_of_mem hindex (e := e)
  rw [readSizes]
  cases hn : readStop k.dev.buffer index - index with
  | zero => exact (by norm_num : 0 < 2 ^ 32)
  | succ m =>
      have hfirst := (hhanded (k.dev.buffer.slot index)
        (by rw [hn]; simp [CircularBuffer.slotRange])).2
      unfold kmallocBound at hfirst
      have hle : gathered count off ((k.dev.buffer.slotRange (m + 1) index).map BufferEntry.size)
          off 0 ≤ count + off := gathered_le off 0 (Nat.zero_le count)
      omega

section Disclosing
variable {env : ReadEnv} {k : Kernel} {count index off : Nat} {fPos : Int} (s : Settled k)
  (ha : env.Allocates) (hcount : count < kmallocBound) (hpos : fPos < k.dev.buffer.totalSize)
  (hstart : readStart env.stale k.dev.buffer (readPosition k.dev fPos) = some (index, off))
  (hindex : index < 10) (hoff : off ≤ (k.dev.buffer.slot index).size)
include s ha hcount hpos hstart hindex hoff

theorem not_undisclosing_of_short
    (hshort : gathered count off (readSizes k.dev.buffer index) off 0 < count - env.uncopied) :
    ¬ Undisclosing env k count fPos := by
  intro h
  obtain ⟨-, -, hrest⟩ := filled_spec s ha hcount hindex hoff
  obtain ⟨res, res', hcall, hcall', hsame, -⟩ :=
    h (fun _ => 0) (fun _ => 1) (List.replicate count 0) (by simp)
  obtain ⟨r, hr, -, hbuf, -⟩ := aesdRead_filled s ha hcount hpos hstart hindex hoff (fun _ => 0)
    (List.replicate count 0)
  obtain ⟨r', hr', -, hbuf', -⟩ := aesdRead_filled s ha hcount hpos hstart hindex hoff (fun _ => 1)
    (List.replicate count 0)
  rw [hcall, Option.some.injEq] at hr
  rw [hcall', Option.some.injEq] at hr'
  subst hr hr'
  rw [hbuf, hbuf'] at hsame
  have hbytes := List.append_inj_left hsame (by simp)
  have hbyte :=
    congrArg (fun l => l[gathered count off (readSizes k.dev.buffer index) off 0]?) hbytes
  rw [Heap.getElem?_bytesAt _ _ _ _ _ hshort, Heap.getElem?_bytesAt _ _ _ _ _ hshort,
    hrest _ _ (by omega), hrest _ _ (by omega)] at hbyte
  cases hbyte

theorem not_undisclosing_of_pastEnd
    (hend : ¬ readPosition k.dev fPos < k.dev.buffer.totalSize)
    (hcopied : 0 < count - env.uncopied) : ¬ Undisclosing env k count fPos := by
  intro h
  have hkept : ∀ b : UInt8, (filled env k count index off fun _ => 0).1.bytesAt k.heap.next 0
      (count - env.uncopied) = List.replicate (count - env.uncopied) b := by
    intro b
    obtain ⟨res, res', hcall, -, -, hkeep⟩ :=
      h (fun _ => 0) (fun _ => 0) (List.replicate count b) (by simp)
    obtain ⟨r, hr, hret, hbuf, -⟩ := aesdRead_filled s ha hcount hpos hstart hindex hoff (fun _ => 0)
      (List.replicate count b)
    rw [hcall, Option.some.injEq] at hr
    subst hr
    rw [if_neg hend] at hret
    rw [hret, Int.toNat_zero, List.drop_zero, List.drop_zero, hbuf] at hkeep
    have htake := congrArg (List.take (count - env.uncopied)) hkeep
    rw [List.take_left' (Heap.length_bytesAt _ _ _ _), List.take_replicate,
      Nat.min_eq_left (Nat.sub_le _ _)] at htake
    exact htake
  have heq := (hkept 0).symm.trans (hkept 1)
  obtain ⟨m, hm⟩ := Nat.exists_eq_succ_of_ne_zero hcopied.ne'
  rw [hm, List.replicate_succ, List.replicate_succ, List.cons.injEq] at heq
  exact absurd heq.1 (by decide)

end Disclosing

/-- Uninitialised memory stays hidden exactly when what is copied to the user is covered. -/
theorem undisclosing_iff_coversCopy (slots : Vector BufferEntry 10) (unset : Unset) (k : Kernel)
    (reached : Reached (initModule slots unset) k) (env : ReadEnv) (ha : env.Allocates)
    (count : Nat) (hcount : count < kmallocBound) (fPos : Int) (h0 : -2 ^ 63 ≤ fPos) :
    Undisclosing env k count fPos ↔ CoversCopy env k count fPos := by
  have s := reached.settled
  by_cases hpos : fPos < k.dev.buffer.totalSize
  · obtain ⟨hlow, hhigh⟩ := s.readPosition_range h0 hpos
    obtain ⟨index, off, hstart, hindex, hoff⟩ :=
      readStart_inside env.stale k.dev.buffer s.outOffs_lt hlow hhigh
    have hcover : ∀ hcopied : 0 < count - env.uncopied,
        count - env.uncopied ≤ gathered count off (readSizes k.dev.buffer index) off 0 ↔
          count ≤ (readSizes k.dev.buffer index).headD 0 ∨
            count - env.uncopied + off ≤ availableBytes (readSizes k.dev.buffer index) :=
      fun hcopied => le_gathered_iff hcopied (Nat.sub_le _ _) (readSizes_head _ hoff)
    have hlt := (gathered_readSizes_lt s hcount hindex hoff).trans (by norm_num : 2 ^ 32 < 2 ^ 63)
    constructor
    · intro h
      by_contra hno
      rw [CoversCopy, not_or, not_or, not_le] at hno
      obtain ⟨hcopied, -, hno⟩ := hno
      have hcopied' : 0 < count - env.uncopied := by omega
      by_cases hin : readPosition k.dev fPos < k.dev.buffer.totalSize
      · refine not_undisclosing_of_short s ha hcount hpos hstart hindex hoff ?_ h
        by_contra hge
        refine hno ⟨_, index, off, rfl, hin, starts_of_readStart s.outOffs_lt hlow hhigh hstart, ?_⟩
        rw [s.stretch_eq]
        exact (hcover hcopied').mp (by omega)
      · exact not_undisclosing_of_pastEnd s ha hcount hpos hstart hindex hoff hin hcopied' h
    · rintro (hzero | hend | ⟨_, i, off', rfl, hin, starts, hcovers⟩)
      · exact undisclosing_of_le s ha hcount hpos hstart hindex hoff (Or.inl (by omega)) hlt
      · omega
      · obtain ⟨rfl, rfl⟩ := (starts_of_readStart s.outOffs_lt hlow hhigh hstart).unique starts
        rw [s.stretch_eq] at hcovers
        by_cases hcopied : 0 < count - env.uncopied
        · exact undisclosing_of_le s ha hcount hpos hstart hindex hoff
            (Or.inr ⟨hin, (hcover hcopied).mpr hcovers⟩) hlt
        · exact undisclosing_of_le s ha hcount hpos hstart hindex hoff (Or.inl (by omega)) hlt
  · have hend : k.dev.buffer.totalSize ≤ fPos := by omega
    refine ⟨fun _ => Or.inr (Or.inl hend), fun _ init init' ubuf _ => ?_⟩
    exact ⟨_, _, aesdRead_pastEnd _ count ubuf s.unlocked hend,
      aesdRead_pastEnd _ count ubuf s.unlocked hend, rfl, rfl⟩

/-- A line of three bytes and a read of five: the last two are the fresh block's. -/
theorem read_discloses_behind_short_log :
    ∃ res, aesdWrite .zeroed (initModule CircularBuffer.init.entry .zeroed) [97, 98, 10] = some res ∧
      ¬ Undisclosing (ReadCall.zeroed 5).env res.kernel 5 0 := by
  obtain ⟨res, hcall⟩ := Option.isSome_iff_exists.mp (show (aesdWrite .zeroed
    (initModule CircularBuffer.init.entry .zeroed) [97, 98, 10]).isSome = true by decide +kernel)
  refine ⟨res, hcall, fun h => ?_⟩
  obtain ⟨r, r', hread, hread', hsame, -⟩ :=
    h (fun _ => 0) (fun _ => 1) (List.replicate 5 0) (by simp)
  have hzeros : ((aesdWrite .zeroed (initModule CircularBuffer.init.entry .zeroed) [97, 98, 10]).bind
      fun w => (aesdRead { (ReadCall.zeroed 5).env with tmpBuf := some fun _ => 0 } w.kernel
        (List.replicate 5 0) 5 0).map ReadResult.ubuf) = some [97, 98, 10, 0, 0] := by decide +kernel
  have hones : ((aesdWrite .zeroed (initModule CircularBuffer.init.entry .zeroed) [97, 98, 10]).bind
      fun w => (aesdRead { (ReadCall.zeroed 5).env with tmpBuf := some fun _ => 1 } w.kernel
        (List.replicate 5 0) 5 0).map ReadResult.ubuf) = some [97, 98, 10, 1, 1] := by decide +kernel
  rw [hcall, Option.bind_some, hread, Option.map_some, Option.some.injEq] at hzeros
  rw [hcall, Option.bind_some, hread', Option.map_some, Option.some.injEq, hsame, hzeros] at hones
  exact absurd hones (by decide)

theorem undisclosing_iff_coversCopy_whole_line :
    ∃ res, aesdWrite .zeroed (initModule CircularBuffer.init.entry .zeroed) [97, 98, 10] = some res ∧
      Undisclosing (ReadCall.zeroed 3).env res.kernel 3 0 := by
  have hend : (aesdWrite .zeroed (initModule CircularBuffer.init.entry .zeroed) [97, 98, 10]).map
      (fun res => (res.kernel.dev.seek, res.kernel.dev.buffer.totalSize,
        res.kernel.dev.buffer.outOffs, res.kernel.dev.buffer.stretch 0)) =
      some (false, 3, 0, [3]) := by decide +kernel
  obtain ⟨res, hcall, hvalues⟩ := Option.map_eq_some_iff.mp hend
  simp only [Prod.mk.injEq] at hvalues
  obtain ⟨hseek, htotal, hout, hstretch⟩ := hvalues
  refine ⟨res, hcall, (undisclosing_iff_coversCopy CircularBuffer.init.entry .zeroed res.kernel
    (.write .load (by decide +kernel) hcall) (ReadCall.zeroed 3).env ⟨rfl, rfl, rfl⟩ 3
    (by decide) 0 (by decide)).mpr (Or.inr (Or.inr ⟨0, 0, 0, ?_, ?_, ?_, Or.inl ?_⟩))⟩
  · rw [hseek]
    rfl
  · rw [htotal]
    decide
  · rw [CircularBuffer.Starts, if_pos rfl, hout]
    exact ⟨rfl, rfl⟩
  · rw [hstretch]
    decide

end Aesd

import Aesd.DeviceContents

/-! A read by what the device contains. Where it starts, how many bytes it gathers and what it answers
depend on the contents alone, and so do the bytes that it hands over while its copy stays inside the
entries; the blocks that these lie in, and that the read takes for itself, show nowhere. -/
namespace Aesd
open FixedWidth Memory

def readTexts (k : Kernel) (start : Nat) : List (List UInt8) :=
  (k.dev.buffer.slotRange (readStop k.dev.buffer start - start) start).map fun e => e.text k.heap

def handedOver (k : Kernel) (count index off : Nat) : List UInt8 :=
  ((readTexts k index).flatten.drop off).take
    (gathered count off (readSizes k.dev.buffer index) off 0)

/-- The copy of a read stays inside the entries: the read fits those from where it starts to the end
of their stretch, or to the first empty one. -/
def ReadInside (k : Kernel) (count : Nat) (fPos : Int) : Prop :=
  0 < count → ∀ p i off, p = (if k.dev.seek then k.dev.seektoPosition else fPos) →
    k.dev.buffer.Starts p i off → ReadFits count off ((k.dev.buffer.stretch i).takeWhile (· ≠ 0))

/-- The position and the return value of a read whose locked region finds the device `k`, and whose
test behind the lock finds `total` bytes. -/
def readAnswer (env : ReadEnv) (k : Kernel) (count : Nat) (fPos total : Int) :
    Option (Int × Int) :=
  (readStart env.stale k.dev.buffer (readPosition k.dev fPos)).map fun start =>
    let n := gathered count start.2 (readSizes k.dev.buffer start.1) start.2 0
    if readPosition k.dev fPos < total then
      (toSsize (readPosition k.dev fPos + n), toSsize n)
    else (readPosition k.dev fPos, 0)

theorem readAnswer_congr {env : ReadEnv} {k : Kernel} {count : Nat} {fPos total total' : Int}
    (h : readPosition k.dev fPos < total' ↔ readPosition k.dev fPos < total) :
    readAnswer env k count fPos total' = readAnswer env k count fPos total := by
  simp only [readAnswer, h]

structure CopiedOut (h : Heap) (data : Nat) (init : Int → UInt8) (n : Nat) (text : List UInt8) :
    Prop where
  bytes : h.bytesAt data 0 n = text
  rest : ∀ j : Int, n ≤ j → h.load data j = init j

theorem CopiedOut.bytesAt_eq {h h' : Heap} {data data' n : Nat} {init : Int → UInt8}
    {text : List UInt8} (o : CopiedOut h data init n text) (o' : CopiedOut h' data' init n text)
    (m : Nat) : h'.bytesAt data' 0 m = h.bytesAt data 0 m := by
  refine Heap.bytesAt_congr fun j _ => ?_
  by_cases hj : j < n
  · have hbytes := congrArg (fun l => l[j]?) (o'.bytes.trans o.bytes.symm)
    rw [Heap.getElem?_bytesAt _ _ _ _ _ hj, Heap.getElem?_bytesAt _ _ _ _ _ hj,
      Option.some.injEq] at hbytes
    exact hbytes
  · rw [o.rest _ (by omega), o'.rest _ (by omega)]

theorem BufferEntry.drop_take_text {h : Heap} {e : BufferEntry} {k n : Nat} (hn : k + n ≤ e.size) :
    ((e.text h).drop k).take n = h.bytesAt e.buffptr k n := by
  rw [BufferEntry.text, Heap.bytesAt_drop, Heap.bytesAt_take, zero_add,
    Nat.min_eq_left (by omega)]

section Loop
variable {b : CircularBuffer} {tmp data count byteOffset : Nat}

theorem bytes_helperCopy_text {h : Heap} {e : BufferEntry} (ht : e.buffptr ≠ tmp)
    (hd : e.buffptr ≠ data) (hne : data ≠ tmp) (k readCount n : Nat) (hn : k + n ≤ e.size) :
    (helperCopy e.buffptr tmp data k readCount n h).bytesAt data 0 (readCount + n) =
      h.bytesAt data 0 readCount ++ ((e.text h).drop k).take n := by
  rw [Heap.bytesAt_add, BufferEntry.drop_take_text hn]
  congr 1
  · refine Heap.bytesAt_congr fun m hm => ?_
    rw [load_helperCopy_data _ _ _ _ _ _ _ _ hd ht hne, if_neg (by omega)]
  · refine Heap.bytesAt_congr fun m hm => ?_
    rw [load_helperCopy_data _ _ _ _ _ _ _ _ hd ht hne, if_pos (by omega)]
    congr 1
    omega

theorem bytes_helperLoop_text (n i : Nat) (s : HelperState) (hne : data ≠ tmp)
    (hapart : ∀ e ∈ b.slotRange n i, e.buffptr ≠ tmp ∧ e.buffptr ≠ data)
    (hsize : ∀ e ∈ b.slotRange n i, e.size < 2 ^ 63) (hoff : count + byteOffset < 2 ^ 32)
    (hk : s.k = 0 ∨ s.k = byteOffset ∧ s.readCount = 0) (hrc : s.readCount ≤ count)
    (hin : s.k ≤ ((b.slotRange n i).map BufferEntry.size).headD s.k)
    (hfree : Faultless count byteOffset ((b.slotRange n i).map BufferEntry.size) s.k s.readCount) :
    (helperLoop b tmp data count byteOffset n i s).heap.bytesAt data 0
        (gathered count byteOffset ((b.slotRange n i).map BufferEntry.size) s.k s.readCount) =
      s.heap.bytesAt data 0 s.readCount ++
        (((b.slotRange n i).map fun e => e.text s.heap).flatten.drop s.k).take
          (gathered count byteOffset ((b.slotRange n i).map BufferEntry.size) s.k s.readCount -
            s.readCount) := by
  induction n generalizing i s with
  | zero => simp [helperLoop, CircularBuffer.slotRange, gathered]
  | succ n ih =>
      rw [helperLoop_succ _ _ _ n i s hsize hoff hk hrc]
      simp only [CircularBuffer.slotRange, List.mem_cons, forall_eq_or_imp] at hsize hapart
      obtain ⟨⟨htmp, hdata⟩, hrest⟩ := hapart
      rw [CircularBuffer.slotRange, List.map_cons, List.headD_cons] at hin
      have hlen : ((b.slot i).text s.heap).length = (b.slot i).size :=
        BufferEntry.length_text _ _
      have hdrop : (((b.slotRange (n + 1) i).map fun e => e.text s.heap).flatten.drop s.k) =
          ((b.slot i).text s.heap).drop s.k ++
            ((b.slotRange n (i + 1)).map fun e => e.text s.heap).flatten := by
        rw [CircularBuffer.slotRange, List.map_cons, List.flatten_cons,
          List.drop_append_of_le_length (by rw [hlen]; exact hin)]
      rw [hdrop]
      rw [CircularBuffer.slotRange, List.map_cons, gathered]
      rw [CircularBuffer.slotRange, List.map_cons, Faultless] at hfree
      by_cases hstop : (b.slot i).size = 0 ∨ s.readCount = count
      · simp [if_pos hstop]
      · rw [if_neg hstop] at hfree
        simp only [if_neg hstop]
        by_cases hmore : s.readCount + (b.slot i).size < count
        · rw [if_pos hmore] at hfree
          simp only [if_pos hmore]
          have htexts : ((b.slotRange n (i + 1)).map fun e => e.text (helperCopy
              (b.slot i).buffptr tmp data s.k s.readCount ((b.slot i).size - s.k) s.heap)) =
              (b.slotRange n (i + 1)).map fun e => e.text s.heap := by
            refine List.map_congr_left fun e he => BufferEntry.text_congr fun j => ?_
            exact load_helperCopy_of_ne _ _ _ _ _ _ _ _ j (hrest e he).1 (hrest e he).2
          have hge := gathered_ge count byteOffset
            ((b.slotRange n (i + 1)).map BufferEntry.size) 0
            (s.readCount + ((b.slot i).size - s.k)) (Or.inl rfl) (by omega)
          rw [ih (i + 1) _ hrest hsize.2 (Or.inl rfl) (by dsimp only; omega) (Nat.zero_le _) hfree]
          dsimp only
          rw [htexts, bytes_helperCopy_text htmp hdata hne _ _ _ (by omega), List.drop_zero]
          have hsuffix : (((b.slot i).text s.heap).drop s.k).length = (b.slot i).size - s.k := by
            rw [List.length_drop, hlen]
          generalize gathered count byteOffset ((b.slotRange n (i + 1)).map BufferEntry.size) 0
            (s.readCount + ((b.slot i).size - s.k)) = total at hge ⊢
          rw [List.take_of_length_le hsuffix.le, List.append_assoc, List.take_append, hsuffix,
            ← Nat.sub_add_eq, List.take_of_length_le (l := ((b.slot i).text s.heap).drop s.k)
              (by omega)]
        · rw [if_neg hmore] at hfree
          simp only [if_neg hmore]
          have hcount : count + byteOffset - s.k =
              s.readCount + (count - s.readCount + byteOffset - s.k) := by omega
          rw [hcount, bytes_helperCopy_text htmp hdata hne _ _ _ (by omega),
            Nat.add_sub_cancel_left, List.take_append_of_le_length
              (by rw [List.length_drop, hlen]; omega)]

end Loop

theorem faultless_takeWhile (count byteOffset : Nat) (sizes : List Nat) (k readCount : Nat) :
    Faultless count byteOffset (sizes.takeWhile (· ≠ 0)) k readCount ↔
      Faultless count byteOffset sizes k readCount := by
  induction sizes generalizing k readCount with
  | nil => rfl
  | cons size sizes ih =>
      by_cases hsize : size = 0
      · simp [Faultless, hsize]
      · rw [List.takeWhile_cons_of_pos (by simpa using hsize), Faultless, Faultless, ih]

theorem faultless_of_readFits {count off : Nat} {sizes : List Nat}
    (hoff : off = 0 ∨ off < sizes.headD (off + 1))
    (hfits : 0 < count → ReadFits count off (sizes.takeWhile (· ≠ 0))) :
    Faultless count off sizes off 0 := by
  by_cases hcount : 0 < count
  · rw [← faultless_takeWhile]
    have hpos : ∀ s ∈ sizes.takeWhile (· ≠ 0), 0 < s := fun s hs => by
      have hne := List.mem_takeWhile_imp hs
      exact Nat.pos_of_ne_zero (by simpa using hne)
    have hfits := hfits hcount
    cases hsizes : sizes.takeWhile (· ≠ 0) with
    | nil => trivial
    | cons size rest =>
        rw [hsizes] at hfits hpos
        have hhead : sizes.headD (off + 1) = size := by
          cases sizes with
          | nil => cases hsizes
          | cons s sizes =>
              rw [List.takeWhile_cons] at hsizes
              split at hsizes
              · exact (List.cons.inj hsizes).1
              · cases hsizes
        rw [hhead] at hoff
        have hsize := hpos size (List.mem_cons_self ..)
        exact (faultless_iff hcount (by omega)
          fun s hs => hpos s (List.mem_cons_of_mem _ hs)).mpr hfits
  · cases sizes with
    | nil => trivial
    | cons size sizes =>
        rw [Faultless, if_pos (Or.inr (by omega))]
        trivial

section Copy
variable {k : Kernel} (p : Placed k) {h : Heap} (r : k.heap.Retains h) {data count index off : Nat}
  (hdata : data < h.next)
  (hapart : ∀ i, k.dev.buffer.Used i → (k.dev.buffer.slot i).buffptr ≠ data)
  (hindex : index < 10)
  (hcount : count < kmallocBound) (hoff : off ≤ (k.dev.buffer.slot index).size) (t : Int → UInt8)

include p hindex in
theorem Placed.used_of_mem {e : BufferEntry}
    (he : e ∈ k.dev.buffer.slotRange (readStop k.dev.buffer index - index) index) :
    ∃ i, k.dev.buffer.Used i ∧ e = k.dev.buffer.slot i := by
  obtain ⟨m, hm, rfl⟩ := mem_slotRange he
  exact ⟨_, p.settled.used_of_lt_readStop hindex hm, rfl⟩

include p hindex in
theorem Placed.size_lt {e : BufferEntry}
    (he : e ∈ k.dev.buffer.slotRange (readStop k.dev.buffer index - index) index) :
    e.size < 2 ^ 63 := by
  obtain ⟨i, hused, rfl⟩ := p.used_of_mem hindex he
  have hlt := (p.slot i hused).2
  unfold kmallocBound at hlt
  omega

include p hindex hcount hoff in
theorem Placed.off_lt : readStop k.dev.buffer index - index = 0 ∨
    toUint off = off ∧ count + off < 2 ^ 32 := by
  rcases Nat.eq_zero_or_pos (readStop k.dev.buffer index - index) with hzero | hpos
  · exact Or.inl hzero
  · have hlt := (p.slot (index + 0) (p.settled.used_of_lt_readStop hindex hpos)).2
    rw [Nat.add_zero] at hlt
    unfold kmallocBound at hlt hcount
    exact Or.inr ⟨toUint_of_lt (by omega), by omega⟩

include p r hapart hindex in
theorem Placed.apart {e : BufferEntry}
    (he : e ∈ k.dev.buffer.slotRange (readStop k.dev.buffer index - index) index) :
    e.buffptr ≠ h.next ∧ e.buffptr ≠ data := by
  obtain ⟨i, hused, rfl⟩ := p.used_of_mem hindex he
  exact ⟨Nat.ne_of_lt ((p.slot i hused).1.trans_le r.next_le), hapart i hused⟩

theorem readHelper_others {q : Nat} (hq : q < h.next) (hne : q ≠ data) (j : Int) :
    (readHelper h k.dev.buffer index (readStop k.dev.buffer index) data count off (some t)).1.load
      q j = h.load q j := by
  simp only [readHelper, kmalloc_some, Heap.alloc_fst]
  rw [Heap.load, block_helperLoop_of_ne _ _ _ _ _ _ _ (Nat.ne_of_lt hq) hne]
  exact Heap.load_alloc_of_ne _ _ _ _ _ (Nat.ne_of_lt hq)

theorem readHelper_none (hzero : readStop k.dev.buffer index - index = 0) :
    readHelper h k.dev.buffer index (readStop k.dev.buffer index) data count off (some t) =
      ((h.alloc count t).2, 0) ∧
      gathered count off (readSizes k.dev.buffer index) off 0 = 0 := by
  simp only [readHelper, readSizes, hzero]
  exact ⟨rfl, rfl⟩

include p hindex hcount hoff

theorem readHelper_count :
    (readHelper h k.dev.buffer index (readStop k.dev.buffer index) data count off (some t)).2 =
      gathered count off (readSizes k.dev.buffer index) off 0 := by
  rcases p.off_lt hindex hcount hoff with hzero | ⟨hk, hlt⟩
  · have hnone := @readHelper_none k h data count index off t hzero
    rw [hnone.1, hnone.2]
  · simp only [readHelper, hk]
    exact readCount_helperLoop _ _ _ _ _ _ (fun _ => p.size_lt hindex) hlt (Or.inr ⟨rfl, rfl⟩)
      (Nat.zero_le _)

include r hdata hapart

theorem readHelper_rest {j : Int} (hj : gathered count off (readSizes k.dev.buffer index) off 0 ≤ j) :
    (readHelper h k.dev.buffer index (readStop k.dev.buffer index) data count off (some t)).1.load
      data j = h.load data j := by
  rcases p.off_lt hindex hcount hoff with hzero | ⟨hk, hlt⟩
  · rw [(readHelper_none t hzero).1]
    exact Heap.load_alloc_of_ne _ _ _ _ _ (Nat.ne_of_lt hdata)
  · simp only [readHelper, kmalloc_some, Heap.alloc_fst, hk]
    refine Eq.trans (load_helperLoop_ge _ _ _ _ _ _ (Nat.ne_of_lt hdata)
      (fun _ => p.apart r hapart hindex) (fun _ => p.size_lt hindex) hlt (Or.inr ⟨rfl, rfl⟩)
      (Nat.zero_le _) j hj) ?_
    exact Heap.load_alloc_of_ne _ _ _ _ _ (Nat.ne_of_lt hdata)

theorem readHelper_bytes (hfree : Faultless count off (readSizes k.dev.buffer index) off 0) :
    (readHelper h k.dev.buffer index (readStop k.dev.buffer index) data count off
      (some t)).1.bytesAt data 0 (gathered count off (readSizes k.dev.buffer index) off 0) =
      handedOver k count index off := by
  rcases p.off_lt hindex hcount hoff with hzero | ⟨hk, hlt⟩
  · rw [handedOver, (@readHelper_none k h data count index off t hzero).2]
    rfl
  · have htexts : readTexts k index = (k.dev.buffer.slotRange
        (readStop k.dev.buffer index - index) index).map fun e => e.text (h.alloc count t).2 := by
      refine List.map_congr_left fun e he => (BufferEntry.text_congr fun j => ?_).symm
      rw [Heap.load_alloc_of_ne _ _ _ _ _ (p.apart r hapart hindex he).1]
      obtain ⟨i, hused, rfl⟩ := p.used_of_mem hindex he
      exact r.load _ (p.slot i hused).1 j
    simp only [readHelper, kmalloc_some, Heap.alloc_fst, hk]
    rw [handedOver, htexts]
    exact bytes_helperLoop_text _ _ _ (Nat.ne_of_lt hdata) (fun _ => p.apart r hapart hindex)
      (fun _ => p.size_lt hindex) hlt (Or.inr ⟨rfl, rfl⟩) (Nat.zero_le _)
      (readSizes_head k.dev.buffer hoff) hfree

theorem readHelper_copiedOut {init : Int → UInt8} (hinit : ∀ j, h.load data j = init j)
    (hfree : Faultless count off (readSizes k.dev.buffer index) off 0) :
    CopiedOut (readHelper h k.dev.buffer index (readStop k.dev.buffer index) data count off
      (some t)).1 data init (gathered count off (readSizes k.dev.buffer index) off 0)
        (handedOver k count index off) where
  bytes := readHelper_bytes p r hdata hapart hindex hcount hoff t hfree
  rest j hj := (readHelper_rest p r hdata hapart hindex hcount hoff t hj).trans (hinit j)

end Copy

structure Lines.Agree (l l' : Lines) : Prop where
  inOffs : l'.inOffs = l.inOffs
  outOffs : l'.outOffs = l.outOffs
  full : l'.full = l.full
  totalSize : l'.totalSize = l.totalSize
  pending : l'.pending = l.pending
  line : ∀ i, l.Used i → l'.line i = l.line i

theorem Lines.Agree.of_eq {l l' : Lines} (h : l' = l) : l.Agree l' := by
  subst h
  exact ⟨rfl, rfl, rfl, rfl, rfl, fun _ _ => rfl⟩

theorem Lines.Agree.used {l l' : Lines} (g : l.Agree l') {i : Nat} : l'.Used i ↔ l.Used i := by
  rw [Lines.Used, Lines.Used, g.full, g.inOffs]

theorem line_contents_of_used {k : Kernel} {i : Nat} (h : k.dev.buffer.Used i) :
    k.contents.lines.line i = (k.dev.buffer.slot i).text k.heap := if_pos h

theorem CircularBuffer.starts_congr {b b' : CircularBuffer} (hout : b'.outOffs = b.outOffs)
    (hsize : ∀ i, (b'.slot i).size = (b.slot i).size) (p : Int) (i off : Nat) :
    b'.Starts p i off ↔ b.Starts p i off := by
  have hsizes : b'.slotSizes = b.slotSizes := by
    refine List.ext_getElem (by simp) fun i h₁ h₂ => ?_
    have hi : i < 10 := by simpa using h₁
    simpa [slotSizes, slot_of_lt _ hi] using hsize i
  simp only [Starts, hout, hsizes, hsize]

namespace Lines.Agree
variable {k k' : Kernel} (g : k.contents.lines.Agree k'.contents.lines)
include g

theorem slotRange (s : Settled k) {index : Nat} (hindex : index < 10) :
    readStop k'.dev.buffer index = readStop k.dev.buffer index ∧
      ∀ i, i < readStop k.dev.buffer index - index →
        (k'.dev.buffer.slot (index + i)).text k'.heap =
          (k.dev.buffer.slot (index + i)).text k.heap := by
  have hfull : k'.dev.buffer.full = k.dev.buffer.full := g.full
  have hin : k'.dev.buffer.inOffs = k.dev.buffer.inOffs := g.inOffs
  have hout : k'.dev.buffer.outOffs = k.dev.buffer.outOffs := g.outOffs
  refine ⟨by rw [readStop, readStop, hfull, hin, hout], fun i hi => ?_⟩
  have hused := s.used_of_lt_readStop hindex hi
  have hline := g.line (index + i) hused
  rwa [line_contents_of_used hused, line_contents_of_used (g.used.mpr hused)] at hline

theorem readTexts (s : Settled k) {index : Nat} (hindex : index < 10) :
    Aesd.readTexts k' index = Aesd.readTexts k index := by
  obtain ⟨hstop, htext⟩ := g.slotRange s hindex
  rw [Aesd.readTexts, Aesd.readTexts, hstop]
  refine List.ext_getElem (by simp) fun i h₁ h₂ => ?_
  simp only [List.getElem_map, CircularBuffer.getElem_slotRange]
  exact htext i (by simpa using h₂)

theorem readSizes (s : Settled k) {index : Nat} (hindex : index < 10) :
    Aesd.readSizes k'.dev.buffer index = Aesd.readSizes k.dev.buffer index := by
  have hlengths : ∀ k : Kernel,
      Aesd.readSizes k.dev.buffer index = (Aesd.readTexts k index).map List.length := by
    intro k
    rw [Aesd.readSizes, Aesd.readTexts, List.map_map]
    exact List.map_congr_left fun e _ => (BufferEntry.length_text k.heap e).symm
  rw [hlengths, hlengths, g.readTexts s hindex]

theorem handedOver (s : Settled k) {index : Nat} (hindex : index < 10) (count off : Nat) :
    Aesd.handedOver k' count index off = Aesd.handedOver k count index off := by
  rw [Aesd.handedOver, Aesd.handedOver, g.readTexts s hindex, g.readSizes s hindex]

end Lines.Agree

theorem readAnswer_congr_lines {k k' : Kernel} (g : k.contents.lines.Agree k'.contents.lines)
    (s : Settled k) (s' : Settled k') {env env' : ReadEnv} (count : Nat) {fPos total : Int}
    (hpos : readPosition k'.dev fPos = readPosition k.dev fPos)
    (hlow : -2 ^ 63 ≤ readPosition k.dev fPos) (hhigh : readPosition k.dev fPos < 2 ^ 63)
    (hstarts : readPosition k.dev fPos < total → ∀ i off,
      k.dev.buffer.Starts (readPosition k.dev fPos) i off →
        k'.dev.buffer.Starts (readPosition k.dev fPos) i off) :
    readAnswer env' k' count fPos total = readAnswer env k count fPos total := by
  obtain ⟨index, off, hstart, hindex, -⟩ :=
    readStart_inside env.stale k.dev.buffer s.outOffs_lt hlow hhigh
  obtain ⟨index', off', hstart', -⟩ :=
    readStart_inside env'.stale k'.dev.buffer s'.outOffs_lt hlow hhigh
  rw [readAnswer, readAnswer, hpos, hstart, hstart', Option.map_some, Option.map_some]
  dsimp only
  by_cases hin : readPosition k.dev fPos < total
  · have hsame := hstarts hin index off (starts_of_readStart s.outOffs_lt hlow hhigh hstart)
    obtain ⟨rfl, rfl⟩ := hsame.unique (starts_of_readStart s'.outOffs_lt hlow hhigh hstart')
    rw [g.readSizes s hindex]
  · rw [if_neg hin, if_neg hin]

theorem ReadInside.faultless {k : Kernel} (s : Settled k) {stale count index off : Nat} {fPos : Int}
    (inside : ReadInside k count fPos) (hlow : -2 ^ 63 ≤ readPosition k.dev fPos)
    (hhigh : readPosition k.dev fPos < 2 ^ 63)
    (hstart : readStart stale k.dev.buffer (readPosition k.dev fPos) = some (index, off)) :
    Faultless count off (readSizes k.dev.buffer index) off 0 := by
  have starts := starts_of_readStart s.outOffs_lt hlow hhigh hstart
  refine faultless_of_readFits ?_ fun hcount => ?_
  · have hoff : off = 0 ∨ off < (k.dev.buffer.slot index).size := by
      unfold CircularBuffer.Starts at starts
      split at starts
      · exact Or.inl starts.2
      · split at starts
        · exact Or.inl starts.2
        · obtain ⟨j, -, -, hlt, -⟩ := starts
          exact Or.inr hlt
    refine hoff.imp_right fun hlt => ?_
    rw [readSizes]
    cases readStop k.dev.buffer index - index with
    | zero => exact Nat.lt_succ_self off
    | succ m => exact hlt
  · rw [← s.stretch_eq]
    exact inside hcount _ index off rfl starts

section Alone
variable {env : ReadEnv} {k : Kernel} {count : Nat} {fPos : Int}

theorem aesdRead_answers (p : Placed k) (ha : env.Allocates) (hcount : count < kmallocBound)
    (h0 : -2 ^ 63 ≤ fPos) (hin : fPos < k.dev.buffer.totalSize) (ubuf : List UInt8) :
    ∃ index off res, readStart env.stale k.dev.buffer (readPosition k.dev fPos) = some (index, off) ∧
      index < 10 ∧ off ≤ (k.dev.buffer.slot index).size ∧
      aesdRead env k ubuf count fPos = some res ∧ k.heap.Extends res.kernel.heap ∧
      readAnswer env k count fPos k.dev.buffer.totalSize = some (res.fPos, res.ret) ∧
      (Faultless count off (readSizes k.dev.buffer index) off 0 → ∃ init h data,
        env.tmpBuf = some init ∧
        CopiedOut h data init (gathered count off (readSizes k.dev.buffer index) off 0)
          (handedOver k count index off) ∧
        res.ubuf = copyToUser h ubuf data count env.uncopied) := by
  obtain ⟨hlow, hhigh⟩ := p.settled.readPosition_range h0 hin
  obtain ⟨index, off, hstart, hindex, hoff⟩ :=
    readStart_inside env.stale k.dev.buffer p.outOffs_lt hlow hhigh
  have hnext := readBlocks_next ha k count
  have hext := readBlocks_extends ha k count
  have hdata : k.heap.next < (readBlocks env k count).next := by omega
  obtain ⟨t, ht⟩ := Option.isSome_iff_exists.mp ha.tmp
  obtain ⟨init, hinit⟩ := Option.isSome_iff_exists.mp ha.tmpBuf
  have hload : ∀ j, (readBlocks env k count).load k.heap.next j = init j := by
    intro j
    have henv : { env with tmpBuf := some init } = env := by rw [← hinit]
    rw [← readBlocks_load ha init j, henv]
  have hread := aesdRead_within ha count ubuf p.unlocked hin
  rw [hstart, Option.map_some, ht] at hread
  have hkept := readHelper_readBlocks_extends ha k count k.dev.buffer index
    (readStop k.dev.buffer index) off
  rw [ht] at hkept
  refine ⟨index, off, _, hstart, hindex, hoff, hread, hkept, ?_, fun hfree =>
    ⟨init, _, k.heap.next, hinit, readHelper_copiedOut p (.of_extends hext) hdata
      (fun i hi => Nat.ne_of_lt (p.slot i hi).1) hindex hcount hoff t hload hfree, rfl⟩⟩
  rw [readAnswer, hstart, Option.map_some]
  dsimp only
  rw [readHelper_count p hindex hcount hoff t]
  split <;> rfl

theorem readSection_answers (p : Placed k.mutexUnlock) (ha : env.Allocates)
    (hcount : count < kmallocBound) (h0 : -2 ^ 63 ≤ fPos) (hin : fPos < k.dev.buffer.totalSize)
    {tmpBuf : Nat} (hdata : tmpBuf < k.heap.next) (hapart : ¬ PointsAt k.dev tmpBuf) :
    ∃ index off heap byteOffset,
      readStart env.stale k.dev.buffer (readPosition k.dev fPos) = some (index, off) ∧
      readSection env k tmpBuf count fPos = some (⟨{ k.dev with seek := false }, heap⟩,
        .copied (readPosition k.dev fPos) byteOffset
          (gathered count off (readSizes k.dev.buffer index) off 0)) ∧
      k.heap.next ≤ heap.next ∧
      (∀ q < k.heap.next, q ≠ tmpBuf → ∀ j, heap.load q j = k.heap.load q j) ∧
      (Faultless count off (readSizes k.dev.buffer index) off 0 → ∀ init,
        (∀ j, k.heap.load tmpBuf j = init j) → CopiedOut heap tmpBuf init
          (gathered count off (readSizes k.dev.buffer index) off 0)
          (handedOver k count index off)) := by
  obtain ⟨hlow, hhigh⟩ := p.settled.readPosition_range h0 hin
  obtain ⟨index, off, hstart, hindex, hoff⟩ :
      ∃ index off, readStart env.stale k.dev.buffer (readPosition k.dev fPos) = some (index, off) ∧
        index < 10 ∧ off ≤ (k.dev.buffer.slot index).size :=
    readStart_inside env.stale k.dev.buffer p.outOffs_lt hlow hhigh
  obtain ⟨t, ht⟩ := Option.isSome_iff_exists.mp ha.tmp
  obtain ⟨o, ho⟩ := Option.isSome_iff_exists.mp ha.byteOffset
  have hext : k.heap.Extends ((k.heap.alloc 8 o).2.check k.heap.next 0) :=
    ((Heap.Extends.refl k.heap).alloc 8 o).check _ _
  have hslots : ∀ i, k.dev.buffer.Used i → (k.dev.buffer.slot i).buffptr ≠ tmpBuf :=
    fun i hused hi => hapart (Or.inl ⟨i, hused, hi⟩)
  have hdata' := hdata.trans_le hext.next_le
  have hsection : readSection env k tmpBuf count fPos = some (⟨{ k.dev with seek := false },
      (readHelper ((k.heap.alloc 8 o).2.check k.heap.next 0) k.dev.buffer index
        (readStop k.dev.buffer index) tmpBuf count off (some t)).1⟩,
      .copied (readPosition k.dev fPos) k.heap.next
        (gathered count off (readSizes k.dev.buffer index) off 0)) := by
    rw [readSection, if_neg (Int.not_le.mpr hin)]
    simp only [Option.bind_eq_bind, ho, kmalloc_some, Heap.alloc_fst, hstart, Option.bind_some, ht]
    refine congrArg (fun n => some (_, ReadSection.copied _ _ n)) ?_
    exact readHelper_count p hindex hcount hoff t
  refine ⟨index, off, _, _, hstart, hsection, ?_, fun q hq hne j => ?_, fun hfree init hinit => ?_⟩
  · exact hext.next_le.trans (next_le_readHelper _ _ _ _ _ _ _ _)
  · rw [readHelper_others t (hq.trans_le hext.next_le) hne]
    exact hext.load hq j
  · exact readHelper_copiedOut p (.of_extends hext) hdata' hslots hindex hcount hoff t
      (fun j => (hext.load hdata j).trans (hinit j)) hfree

end Alone
end Aesd

import Aesd.FileSeek
import Aesd.ReadContents

/-! Two devices that hold the same lines in the same slots. A write keeps them so, and a read whose
copy stays inside the entries hands over the same bytes from both, whatever else their heaps
contain, whatever the fresh blocks of a call contain, and whatever lies in the slots that hold no
line. -/
namespace Aesd
open FixedWidth Memory Concat

namespace Lines

theorem used_add {l : Lines} (text : List UInt8) {i : Nat}
    (h : (l.add text).Used i) : i = l.inOffs ∨ l.Used i := by
  obtain ⟨hi, h⟩ := h
  rw [add] at h
  cases hfull : l.full
  · rw [if_neg (by rw [hfull]; exact Bool.false_ne_true)] at h
    dsimp only at h
    rw [Used, hfull]
    rcases h with h | h
    · split at h
      · rename_i hlast
        unfold maxWriteOperationsSupported at hi hlast
        by_cases heq : i = l.inOffs
        · exact Or.inl heq
        · exact Or.inr ⟨hi, Or.inr (by omega)⟩
      · exact absurd (hfull.symm.trans h) Bool.false_ne_true
    · by_cases heq : i = l.inOffs
      · exact Or.inl heq
      · refine Or.inr ⟨hi, Or.inr ?_⟩
        unfold CircularBuffer.advance at h
        split at h <;> omega
  · exact Or.inr ⟨hi, Or.inl hfull⟩

theorem Agree.add {l l' : Lines} (g : l.Agree l') (hin : l.inOffs < 10) (text : List UInt8) :
    (l.add text).Agree (l'.add text) := by
  have hlen : l.full = true → (l'.line l.inOffs).length = (l.line l.inOffs).length := by
    intro hfull
    rw [g.line _ ⟨hin, Or.inl hfull⟩]
  refine ⟨?_, ?_, ?_, ?_, ?_, fun i hi => ?_⟩
  · rw [Lines.add, Lines.add, g.full, g.inOffs]
    split <;> rfl
  · rw [Lines.add, Lines.add, g.full, g.outOffs]
    split <;> rfl
  · rw [Lines.add, Lines.add, g.full, g.inOffs]
    split <;> rfl
  · rw [Lines.add, Lines.add, g.full, g.totalSize, g.inOffs]
    split
    · rename_i hfull
      rw [hlen hfull]
    · rfl
  · rw [pending_add, pending_add]
  · rw [line_add, line_add, g.inOffs]
    split
    · rfl
    · rename_i hne
      exact g.line i ((used_add text hi).resolve_left hne)

theorem Agree.write {l l' : Lines} (g : l.Agree l') (hin : l.inOffs < 10) (buf : List UInt8) :
    (l.write buf).Agree (l'.write buf) := by
  rw [Lines.write, Lines.write, g.pending]
  split
  · exact g.add hin _
  · exact ⟨g.inOffs, g.outOffs, g.full, g.totalSize, rfl, g.line⟩

theorem agree_of_flush (l l' : Lines) : l.flush.Agree l'.flush :=
  ⟨rfl, rfl, rfl, rfl, rfl, fun i hi => absurd hi.2 (by rintro (h | h) <;> cases h)⟩

end Lines

/-- The reads return the same, which is no more than the `count` bytes asked for, and leave their
files at the same position; and the bytes within the returned count are the same. -/
structure ReadAlike (count : Nat) (res res' : ReadResult) : Prop where
  ret : res'.ret = res.ret
  ret_le : res.ret ≤ count
  fPos : res'.fPos = res.fPos
  delivered : res'.ubuf.take res.ret.toNat = res.ubuf.take res.ret.toNat

theorem gathered_le_count {count off : Nat} {sizes : List Nat} (k readCount : Nat)
    (hrc : readCount ≤ count) (hfree : Faultless count off sizes k readCount)
    (hk : k ≤ off) : gathered count off sizes k readCount ≤ count := by
  induction sizes generalizing k readCount with
  | nil => exact hrc
  | cons size sizes ih =>
      rw [gathered]
      rw [Faultless] at hfree
      split
      · exact hrc
      · rename_i hstop
        rw [if_neg hstop] at hfree
        split
        · rename_i hmore
          rw [if_pos hmore] at hfree
          exact ih 0 _ (by omega) hfree (Nat.zero_le _)
        · rename_i hmore
          rw [if_neg hmore] at hfree
          omega

theorem take_copyToUser {h : Heap} {ubuf : List UInt8} {data count n : Nat} (hn : n ≤ count) :
    (copyToUser h ubuf data count 0).take n = h.bytesAt data 0 n := by
  rw [copyToUser, Nat.sub_zero, List.take_append_of_le_length (by
    rw [Heap.length_bytesAt]; exact hn), Heap.bytesAt_take, Nat.min_eq_left hn]

section Read
variable {env env' : ReadEnv} {k k' : Kernel} {count : Nat} {fPos : Int}

theorem aesdRead_alike (g : k.contents.lines.Agree k'.contents.lines) (p : Placed k)
    (p' : Placed k') (ha : env.Succeeds) (ha' : env'.Succeeds) (hcount : count < kmallocBound)
    (h0 : -2 ^ 63 ≤ fPos) (hpos : readPosition k'.dev fPos = readPosition k.dev fPos)
    (hstarts : fPos < k.dev.buffer.totalSize →
      readPosition k.dev fPos < k.dev.buffer.totalSize → ∀ i off,
        k.dev.buffer.Starts (readPosition k.dev fPos) i off →
          k'.dev.buffer.Starts (readPosition k.dev fPos) i off)
    (inside : fPos < k.dev.buffer.totalSize →
      readPosition k.dev fPos < k.dev.buffer.totalSize → ReadInside k count fPos)
    (ubuf ubuf' : List UInt8) :
    ∃ res res', aesdRead env k ubuf count fPos = some res ∧
      aesdRead env' k' ubuf' count fPos = some res' ∧ ReadAlike count res res' := by
  have htotal : k'.dev.buffer.totalSize = k.dev.buffer.totalSize := g.totalSize
  by_cases hlt : fPos < k.dev.buffer.totalSize
  · obtain ⟨hlow, hhigh⟩ := p.settled.readPosition_range h0 hlt
    obtain ⟨index, off, res, hstart, hindex, -, hcall, -, hanswer, hbytes⟩ :=
      aesdRead_answers p ha.toAllocates hcount h0 hlt ubuf
    obtain ⟨index', off', res', hstart', hindex', -, hcall', -, hanswer', hbytes'⟩ :=
      aesdRead_answers p' ha'.toAllocates hcount h0 (by rw [htotal]; exact hlt) ubuf'
    have hsame : readAnswer env' k' count fPos k.dev.buffer.totalSize =
        readAnswer env k count fPos k.dev.buffer.totalSize :=
      readAnswer_congr_lines g p.settled p'.settled count hpos hlow hhigh (hstarts hlt)
    rw [← htotal, hanswer', htotal, hanswer, Option.some.injEq, Prod.mk.injEq] at hsame
    rw [readAnswer, hstart, Option.map_some, Option.some.injEq] at hanswer
    dsimp only at hanswer
    by_cases hin : readPosition k.dev fPos < k.dev.buffer.totalSize
    · rw [if_pos hin, Prod.mk.injEq] at hanswer
      have hinside := inside hlt hin
      have hfree := hinside.faultless p.settled hlow hhigh hstart
      have hle := gathered_le_count off 0 (Nat.zero_le count) hfree (Nat.le_refl off)
      obtain ⟨rfl, rfl⟩ : index' = index ∧ off' = off := by
        rw [hpos] at hstart'
        exact (hstarts hlt hin _ _ (starts_of_readStart p.outOffs_lt hlow hhigh hstart)).unique
          (starts_of_readStart p'.outOffs_lt hlow hhigh hstart')
      have hsizes := g.readSizes p.settled hindex
      obtain ⟨_, h, data, -, copied, hubuf⟩ := hbytes hfree
      obtain ⟨_, h', data', -, copied', hubuf'⟩ := hbytes' (by rw [hsizes]; exact hfree)
      rw [hsizes, g.handedOver p.settled hindex] at copied'
      unfold kmallocBound at hcount
      rw [toSsize_of_lt (by omega : gathered _ _ _ _ _ < 2 ^ 63)] at hanswer
      refine ⟨res, res', hcall, hcall', hsame.2, by omega, hsame.1, ?_⟩
      rw [← hanswer.2, Int.toNat_natCast, hubuf, hubuf', ha.copied, ha'.copied,
        take_copyToUser hle, take_copyToUser hle, copied.bytes, copied'.bytes]
    · rw [if_neg hin, Prod.mk.injEq] at hanswer
      refine ⟨res, res', hcall, hcall', hsame.2, by omega, hsame.1, ?_⟩
      rw [← hanswer.2]
      rfl
  · have hend := Int.not_lt.mp hlt
    exact ⟨_, _, aesdRead_pastEnd env count ubuf p.unlocked hend,
      aesdRead_pastEnd env' count ubuf' p'.unlocked (by rw [htotal]; exact hend), rfl,
      Int.natCast_nonneg _, rfl, rfl⟩

end Read

section Rings
variable {k k' : Kernel} {r r' : RingBuffer BufferEntry 10}

theorem Mirrors.totalSize_le (hm : Mirrors k.dev.buffer r) (s : Settled k) :
    ∃ n : Nat, k.dev.buffer.totalSize = n ∧ n = (sizes r).sum ∧ n ≤ 10 * kmallocBound := by
  have hall : ∀ n ∈ sizes r, n ≤ kmallocBound := by
    intro n hn
    obtain ⟨j, hj, rfl⟩ := List.getElem_of_mem hn
    rw [length_sizes] at hj
    have hlt := (s.slots _ (r.place j).isLt (hm.used_place hj)).2
    simp only [sizes, List.getElem_map, RingBuffer.getElem_live, ← hm.slot]
    exact hlt.le
  have hsum := List.sum_le_card_nsmul _ _ hall
  have hten : (sizes r).length * kmallocBound ≤ 10 * kmallocBound :=
    Nat.mul_le_mul_right _ (by rw [length_sizes]; exact r.count_le)
  rw [Nat.nsmul_eq_mul] at hsum
  have hle := hsum.trans hten
  refine ⟨_, ?_, rfl, hle⟩
  unfold kmallocBound at hle
  rw [hm.totalSize]
  unfold sizes at hle ⊢
  exact toSsize_of_lt (by omega)

theorem Lines.Agree.sizes (g : k.contents.lines.Agree k'.contents.lines)
    (hm : Mirrors k.dev.buffer r) (hm' : Mirrors k'.dev.buffer r') :
    Aesd.sizes r' = Aesd.sizes r ∧ ∀ j, r'.place j = r.place j := by
  have hfull : k'.dev.buffer.full = k.dev.buffer.full := g.full
  have hin : k'.dev.buffer.inOffs = k.dev.buffer.inOffs := g.inOffs
  have hout : k'.dev.buffer.outOffs = k.dev.buffer.outOffs := g.outOffs
  have hplace : ∀ j, r'.place j = r.place j := by
    intro j
    apply Fin.ext
    rw [place_val, place_val, ← hm.outOffs, ← hm'.outOffs, hout]
  have hcount : r'.count = r.count := by
    rw [RingBuffer.count, RingBuffer.count, ← hm.full, ← hm'.full, ← hm.inOffs, ← hm'.inOffs, hfull,
      hin]
  refine ⟨List.ext_getElem (by simp [hcount]) fun j h₁ h₂ => ?_, hplace⟩
  rw [length_sizes] at h₂
  have hused : k.dev.buffer.Used (r.place j) := ⟨(r.place j).isLt, hm.used_place h₂⟩
  have hlen := congrArg List.length (g.line _ hused)
  rw [length_line_contents, length_line_contents] at hlen
  simp only [Aesd.sizes, List.getElem_map, RingBuffer.getElem_live, hplace, ← hm.slot, ← hm'.slot,
    hlen]

theorem Lines.Agree.starts (g : k.contents.lines.Agree k'.contents.lines) (s : Settled k)
    (s' : Settled k') (hm : Mirrors k.dev.buffer r) (hm' : Mirrors k'.dev.buffer r') {p : Int}
    (h0 : 0 ≤ p) (hp : p < k.dev.buffer.totalSize)
    (hguard : p = 0 ∨ p < (k.dev.buffer.totalChars : Int))
    (hguard' : p = 0 ∨ p < (k'.dev.buffer.totalChars : Int)) (i off : Nat)
    (starts : k.dev.buffer.Starts p i off) : k'.dev.buffer.Starts p i off := by
  obtain ⟨total, htotal, hsum, hle⟩ := hm.totalSize_le s
  obtain ⟨hsizes, hplace⟩ := g.sizes hm hm'
  unfold kmallocBound at hle
  obtain ⟨p, rfl⟩ := Int.eq_ofNat_of_zero_le h0
  obtain ⟨j, byte, hstart⟩ : ∃ j byte, startOf (Aesd.sizes r) p = some (j, byte) := by
    rw [startOf]
    split
    · exact ⟨0, 0, rfl⟩
    · refine exists_locate ?_
      rw [← hsum]
      omega
  have hread := hm.readStart_of_startOf 0 (by omega) (by omega) hstart
  have hread' := hm'.readStart_of_startOf (p := p) 0 (by omega) (by omega)
    (by rw [hsizes]; exact hstart)
  have hat := starts_of_readStart s.outOffs_lt (by omega) (by omega) hread
  obtain ⟨rfl, rfl⟩ := hat.unique starts
  rw [← hplace]
  exact starts_of_readStart s'.outOffs_lt (by omega) (by omega) hread'

end Rings

theorem Placed.read_fPos {k : Kernel} (p : Placed k) {env : ReadEnv} (ha : env.Allocates)
    {count : Nat} (hcount : count < kmallocBound) {fPos : Int} (h0 : -2 ^ 63 ≤ fPos)
    (hsmall : k.dev.buffer.totalSize ≤ 10 * kmallocBound) {ubuf : List UInt8} {res : ReadResult}
    (hcall : aesdRead env k ubuf count fPos = some res) :
    k.dev.buffer.totalSize ≤ fPos ∧ res.ret = 0 ∧ res.fPos = fPos ∨
      fPos < k.dev.buffer.totalSize ∧ 0 ≤ res.ret ∧
        res.fPos = readPosition k.dev fPos + res.ret ∧
        (res.ret = 0 ∨ readPosition k.dev fPos < k.dev.buffer.totalSize) := by
  unfold kmallocBound at hsmall
  by_cases hlt : fPos < k.dev.buffer.totalSize
  · obtain ⟨hlow, -⟩ := p.settled.readPosition_range h0 hlt
    obtain ⟨index, off, res', hstart, hindex, hoff, hcall', -, hanswer, -⟩ :=
      aesdRead_answers p ha hcount h0 hlt ubuf
    rw [hcall, Option.some.injEq] at hcall'
    subst hcall'
    have hbound := gathered_readSizes_lt p.settled hcount hindex hoff
    refine Or.inr ⟨hlt, ?_⟩
    rw [readAnswer, hstart, Option.map_some, Option.some.injEq] at hanswer
    dsimp only at hanswer
    split at hanswer <;> rw [Prod.mk.injEq] at hanswer <;> obtain ⟨hfPos, hret⟩ := hanswer
    · rename_i hin
      rw [← hret, ← hfPos]
      unfold toSsize
      omega
    · omega
  · rw [aesdRead_pastEnd env count ubuf p.unlocked (Int.not_lt.mp hlt), Option.some.injEq] at hcall
    subst hcall
    exact Or.inl ⟨Int.not_lt.mp hlt, rfl, rfl⟩

end Aesd

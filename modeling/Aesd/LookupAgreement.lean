import Aesd.EntryLookup
import Aesd.RecentEntries

/-! The position lookup and the live entries. On a buffer that has only been added to since
`aesd_circular_buffer_init` the lookup inverts the concatenation of the live entries.
Slots that hold no live entry count for its guard all the same, so that it can find what
a flush or the load of the module left in them. -/
namespace Aesd
open FixedWidth Concat

def bytesBefore (es : List BufferEntry) (j : Nat) : Nat := ((es.map BufferEntry.size).take j).sum

def CircularBuffer.liveSlot (b : CircularBuffer) (j : Nat) : Nat := (b.outOffs + j) % 10

/-- The bytes that the slots without a live entry claim to hold. -/
def CircularBuffer.staleBytes (b : CircularBuffer) : Nat :=
  if b.full then 0 else ((b.entry.toList.drop b.inOffs).map BufferEntry.size).sum

namespace Mirrors
variable {b : CircularBuffer} {r : RingBuffer BufferEntry 10}

theorem sum_live (h : Mirrors b r) : (b.live.map BufferEntry.size).sum = (sizes r).sum := by
  rw [h.live, sizes]

theorem staleBytes_eq (h : Mirrors b r) :
    b.staleBytes = (r.stale.map BufferEntry.size).sum := by
  rw [CircularBuffer.staleBytes, RingBuffer.stale, h.full, h.entry, h.inOffs]
  split <;> rfl

theorem totalChars_eq_live (h : Mirrors b r) :
    b.totalChars = ((b.live.map BufferEntry.size).sum + b.staleBytes) % 2 ^ 64 := by
  rw [b.totalChars_eq, h.entry, h.live, h.staleBytes_eq, r.sum_live_add_stale, toSize]
  omega

theorem liveSlot_eq (h : Mirrors b r) (j : Nat) : b.liveSlot j = (r.place j).val := by
  rw [CircularBuffer.liveSlot, h.outOffs, place_val]

theorem locate_eq_some_iff (h : Mirrors b r) (p j n : Nat) :
    locate (sizes r) p = some (j, n) ↔
      ∃ hj : j < b.live.length, n < b.live[j].size ∧ bytesBefore b.live j + n = p := by
  rw [Concat.locate_eq_some_iff, sizes, bytesBefore, h.live]
  simp only [List.length_map, List.getElem_map]

theorem exists_find (h : Mirrors b r) {p : Nat} (hp : p ≠ 0) (hlt : p < b.totalChars)
    (hlive : p < (b.live.map BufferEntry.size).sum) :
    ∃ j n, ∃ hj : j < b.live.length, n < b.live[j].size ∧ bytesBefore b.live j + n = p ∧
      b.findEntryOffsetForFpos p = .entry (b.liveSlot j) (some n) := by
  obtain ⟨j, n, hloc⟩ := exists_locate (h.sum_live ▸ hlive)
  obtain ⟨hj, hn, hsplit⟩ := (h.locate_eq_some_iff p j n).mp hloc
  refine ⟨j, n, hj, hn, hsplit, ?_⟩
  rw [h.liveSlot_eq]
  exact h.find_of_lt_totalChars hp hlt hloc

theorem find_eq_null_iff (h : Mirrors b r) {p : Nat} (hp : p ≠ 0) :
    b.findEntryOffsetForFpos p = .null ↔ b.totalChars ≤ p := by
  have hout : b.outOffs < 10 := by
    rw [h.outOffs]
    exact r.outOffs_lt
  rw [CircularBuffer.findEntryOffsetForFpos, if_neg hp]
  by_cases hle : b.totalChars ≤ p
  · simp [hle]
  · obtain ⟨index, rest, hfound⟩ := b.findLoop_isSome hout (Nat.lt_of_not_le hle)
    rw [if_neg hle, show maxWriteOperationsSupported = 10 from rfl, hfound]
    simp [hle]

end Mirrors

def addEntries (es : List BufferEntry) : CircularBuffer :=
  es.foldl CircularBuffer.addEntry CircularBuffer.init

theorem addEntries_mirrors (es : List BufferEntry) :
    ∃ r : RingBuffer BufferEntry 10, Mirrors (addEntries es) r ∧ r.live = es.rtake 10 ∧
      ∀ e ∈ r.stale, e.size = 0 := by
  induction es using List.reverseRecOn with
  | nil =>
      refine ⟨emptyRing CircularBuffer.init.entry, .fresh _, by simp, fun e he => ?_⟩
      rw [RingBuffer.stale, if_neg (by decide)] at he
      rw [List.eq_of_mem_replicate (List.mem_of_mem_drop he)]
  | append_singleton es e ih =>
      obtain ⟨r, hm, hlive, hstale⟩ := ih
      have hstep : addEntries (es ++ [e]) = (addEntries es).addEntry e := by simp [addEntries]
      rw [hstep]
      refine ⟨r.push e, hm.addEntry e, ?_, fun e' he' => ?_⟩
      · rw [r.live_push, hlive, RingBuffer.rtake_append_rtake]
      · rw [r.stale_push] at he'
        exact hstale e' (List.mem_of_mem_tail he')

/-- The lookup is the inverse of concatenation: a position other than 0 has no entry exactly
when the live entries end before it, otherwise the entry and the byte that are there, and
every byte of a live entry is found at its position. -/
theorem lookup_inverts_concat (es : List BufferEntry)
    (hsum : ((es.rtake 10).map BufferEntry.size).sum < 2 ^ 63) :
    let b := addEntries es
    (∀ p : Nat, 0 < p →
      (b.findEntryOffsetForFpos p = .null ↔ (b.live.map BufferEntry.size).sum ≤ p) ∧
      (p < (b.live.map BufferEntry.size).sum → ∃ j n, ∃ hj : j < b.live.length,
        n < b.live[j].size ∧ bytesBefore b.live j + n = p ∧
          b.findEntryOffsetForFpos p = .entry (b.liveSlot j) (some n))) ∧
    ∀ j n, (hj : j < b.live.length) → n < b.live[j].size → bytesBefore b.live j + n ≠ 0 →
      b.findEntryOffsetForFpos (bytesBefore b.live j + n) = .entry (b.liveSlot j) (some n) := by
  intro b
  obtain ⟨r, (hm : Mirrors b r), hlive, hstale⟩ := addEntries_mirrors es
  have hnone : b.staleBytes = 0 := by
    rw [hm.staleBytes_eq]
    exact List.sum_eq_zero fun n hn => by
      obtain ⟨e, he, rfl⟩ := List.mem_map.mp hn
      exact hstale e he
  have htotal : b.totalChars = (b.live.map BufferEntry.size).sum := by
    rw [hm.totalChars_eq_live, hnone, Nat.add_zero]
    apply Nat.mod_eq_of_lt
    rw [hm.live, hlive]
    exact hsum.trans (by norm_num)
  refine ⟨fun p hp => ⟨?_, fun hlt => ?_⟩, fun j n hj hn hp => ?_⟩
  · rw [← htotal]
    exact hm.find_eq_null_iff (by omega)
  · exact hm.exists_find (by omega) (by rwa [htotal]) hlt
  · have hloc := (hm.locate_eq_some_iff _ j n).mpr ⟨hj, hn, rfl⟩
    rw [hm.liveSlot_eq]
    refine hm.find_of_lt_totalChars hp ?_ hloc
    rw [htotal, hm.sum_live]
    by_contra hge
    rw [(locate_eq_none_iff _ _).mpr (Nat.le_of_not_lt hge)] at hloc
    cases hloc

theorem lookup_inverts_concat_eleven :
    (addEntries ((List.range 11).map fun i => ⟨i + 1, i % 4⟩)).findEntryOffsetForFpos 14 =
      .entry 0 (some 1) := by
  have h := (lookup_inverts_concat ((List.range 11).map fun i => ⟨i + 1, i % 4⟩)
    (by decide)).2 9 1
  exact h (by decide) (by decide) (by decide)

/-- The lookup of `p` says what the byte count says: there is an entry exactly below it, a live
one, with the byte stored. -/
structure LookupAgrees (b : CircularBuffer) (p : Nat) : Prop where
  ends : b.findEntryOffsetForFpos p ≠ .running
  null_iff : b.findEntryOffsetForFpos p ≠ .null ↔ (p : Int) < b.totalSize
  live : ∀ index byte, b.findEntryOffsetForFpos p = .entry index byte →
    ∃ j n, ∃ hj : j < b.live.length, index = b.liveSlot j ∧ byte = some n ∧
      n < b.live[j].size ∧ bytesBefore b.live j + n = p

/-- Agreement of the lookup and the byte count: on a buffer reached from the load of the module
by adding entries and flushing, they agree on a position exactly when it is not 0 and the
stale slots do not move it to the other side of the guard. -/
theorem lookup_agrees_iff (slots : Vector BufferEntry 10) (unset : Unset) (ops : List BufferOp)
    (hsum : (((BufferOp.sinceReset ops).rtake 10).map BufferEntry.size).sum < 2 ^ 63) (p : Nat) :
    let b := (BufferOp.run (initModule slots unset) ops).dev.buffer
    let bytes := (b.live.map BufferEntry.size).sum
    LookupAgrees b p ↔ p ≠ 0 ∧ (p < bytes ↔ p < (bytes + b.staleBytes) % 2 ^ 64) := by
  intro b bytes
  obtain ⟨r, (hm : Mirrors b r), hlive⟩ := BufferOp.run_mirrors slots unset ops
  have hbytes : (sizes r).sum < 2 ^ 63 := by
    rw [sizes, hlive]
    exact hsum
  have htotal : b.totalSize = (bytes : Int) := by
    rw [hm.totalSize, show bytes = (sizes r).sum from hm.sum_live]
    exact toSsize_of_lt hbytes
  rw [← hm.totalChars_eq_live]
  constructor
  · intro agrees
    have hp : p ≠ 0 := by
      rintro rfl
      obtain ⟨j, n, -, -, hbyte, -⟩ := agrees.live b.outOffs none rfl
      cases hbyte
    have hiff := agrees.null_iff
    rw [Ne, hm.find_eq_null_iff hp, htotal, Nat.not_le, Nat.cast_lt] at hiff
    exact ⟨hp, hiff.symm⟩
  · rintro ⟨hp, hiff⟩
    have hnull : b.findEntryOffsetForFpos p ≠ .null ↔ p < bytes := by
      rw [Ne, hm.find_eq_null_iff hp, Nat.not_le, hiff]
    refine ⟨fun hrun => ?_, by rw [hnull, htotal, Nat.cast_lt], fun index byte hentry => ?_⟩
    · have hlt := hnull.mp (by rw [hrun]; simp)
      obtain ⟨j, n, -, -, -, hfind⟩ := hm.exists_find hp (hiff.mp hlt) hlt
      rw [hrun] at hfind
      cases hfind
    · have hlt := hnull.mp (by rw [hentry]; simp)
      obtain ⟨j, n, hj, hn, hsplit, hfind⟩ := hm.exists_find hp (hiff.mp hlt) hlt
      rw [hentry, Lookup.entry.injEq] at hfind
      exact ⟨j, n, hj, hfind.1, hfind.2, hn, hsplit⟩

theorem lookup_agrees_one_entry :
    LookupAgrees (BufferOp.run (initModule CircularBuffer.init.entry .zeroed)
      [.addEntry ⟨1, 3⟩]).dev.buffer 2 :=
  (lookup_agrees_iff CircularBuffer.init.entry .zeroed [.addEntry ⟨1, 3⟩] (by decide) 2).mpr
    (by decide +kernel)

/-- After a flush the lookup finds the entry that has been flushed. -/
theorem lookup_finds_flushed_entry :
    ¬ LookupAgrees (BufferOp.run (initModule CircularBuffer.init.entry .zeroed)
      [.addEntry ⟨1, 3⟩, .flush]).dev.buffer 2 := by
  intro agrees
  exact absurd agrees.null_iff (by decide +kernel)

end Aesd

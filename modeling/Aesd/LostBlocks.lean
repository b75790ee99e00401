import Aesd.ModuleLoad
import Mathlib.Data.List.Perm.Lattice
import Mathlib.Data.List.Nodup

/-! What the driver never gives back. An account kept of the events alone says how many blocks the
ledger has: those that the module still refers to and those that nobody will free. -/
namespace Aesd
open FixedWidth Memory EventRun

def ledgerSize (h : Heap) : Nat :=
  (List.range h.next).countP fun p => (h.block p).live && decide (0 < (h.block p).len)

structure Lists (h : Heap) (l : List Nat) : Prop where
  nodup : l.Nodup
  mem : ∀ p, InLedger h p ↔ p ∈ l

namespace Lists
variable {h h' : Heap} {l l' : List Nat}

theorem size (o : Lists h l) : ledgerSize h = l.length := by
  rw [ledgerSize, List.countP_eq_length_filter]
  refine List.Perm.length_eq ((List.perm_ext_iff_of_nodup (List.nodup_range.filter _) o.nodup).mpr
    fun p => ?_)
  rw [← o.mem, List.mem_filter, List.mem_range, Bool.and_eq_true, decide_eq_true_eq]
  exact ⟨fun hp => hp.2, fun hp => ⟨InLedger.lt_next hp, hp⟩⟩

theorem perm (o : Lists h l) (hperm : l.Perm l') : Lists h l' :=
  ⟨hperm.nodup_iff.mp o.nodup, fun p => (o.mem p).trans hperm.mem_iff⟩

theorem lt_next (o : Lists h l) {p : Nat} (hp : p ∈ l) : p < h.next := ((o.mem p).mpr hp).lt_next

theorem congr (o : Lists h l) (hsame : ∀ p, InLedger h' p ↔ InLedger h p) : Lists h' l :=
  ⟨o.nodup, fun p => (hsame p).trans (o.mem p)⟩

theorem kmalloc (o : Lists h l) (n : Nat) (m : Kmalloc) :
    Lists (Aesd.kmalloc h n m).2 (kmalloced h n m ++ l) := by
  refine ⟨?_, fun p => ?_⟩
  · rw [kmalloced]
    split
    · exact List.nodup_cons.mpr ⟨fun hin => Nat.lt_irrefl _ (o.lt_next hin), o.nodup⟩
    · exact o.nodup
  · rw [inLedger_kmalloc, o.mem, List.mem_append, Or.comm]

theorem free_head {p : Nat} (o : Lists h (p :: l)) : Lists (h.free p) l := by
  obtain ⟨hnot, hnodup⟩ := List.nodup_cons.mp o.nodup
  refine ⟨hnodup, fun q => ?_⟩
  rw [inLedger_free, o.mem, List.mem_cons]
  constructor
  · rintro ⟨hq | hq, hne⟩
    · exact absurd hq hne
    · exact hq
  · intro hq
    refine ⟨Or.inr hq, ?_⟩
    rintro rfl
    exact hnot hq

theorem of_call (o : Lists h l) {got gone : List Nat} (kept freed new : List Nat)
    (hledger : ∀ p, InLedger h' p ↔ (InLedger h p ∨ p ∈ got) ∧ p ∉ gone)
    (hperm : l.Perm (kept ++ freed)) (hgone : ∀ p ∈ l, p ∈ gone ↔ p ∈ freed)
    (hfresh : ∀ p ∈ got, h.next ≤ p) (hnodup : new.Nodup)
    (hnew : ∀ p, p ∈ new ↔ p ∈ got ∧ p ∉ gone) : Lists h' (kept ++ new) := by
  have hsplit := List.nodup_append.mp (hperm.nodup_iff.mp o.nodup)
  have hmem : ∀ p, p ∈ l ↔ p ∈ kept ∨ p ∈ freed := fun p => by rw [hperm.mem_iff, List.mem_append]
  have hkept : ∀ p ∈ kept, p ∈ l := fun p hp => (hmem p).mpr (Or.inl hp)
  refine ⟨List.nodup_append.mpr ⟨hsplit.1, hnodup, fun p hp q hq heq => ?_⟩, fun p => ?_⟩
  · have hlt := o.lt_next (hkept p hp)
    have hle := hfresh q ((hnew q).mp hq).1
    omega
  · rw [hledger, o.mem, List.mem_append, hnew, hmem]
    constructor
    · rintro ⟨(hin | hin) | hin, hnot⟩
      · exact Or.inl hin
      · exact absurd ((hgone p ((hmem p).mpr (Or.inr hin))).mpr hin) hnot
      · exact Or.inr ⟨hin, hnot⟩
    · rintro (hin | hin)
      · refine ⟨Or.inl (Or.inl hin), fun hfree => ?_⟩
        exact hsplit.2.2 p hin p ((hgone p (hkept p hin)).mp hfree) rfl
      · exact ⟨Or.inr hin.1, hin.2⟩

end Lists

def AesdDev.blocks (d : AesdDev) : List Nat :=
  d.buffer.live.map BufferEntry.buffptr ++ if d.isPartial then [d.partialEntry.buffptr] else []

structure FilledBy (b : CircularBuffer) (added : Nat) (r : RingBuffer BufferEntry 10) : Prop where
  mirrors : Mirrors b r
  inOffs : r.inOffs = added % 10
  full : r.full = decide (10 ≤ added)

def olderBlocks (r : RingBuffer BufferEntry 10) : List Nat :=
  if r.full then (r.slots.toList.drop r.inOffs).map BufferEntry.buffptr else []

def newerBlocks (r : RingBuffer BufferEntry 10) : List Nat :=
  (r.slots.toList.take r.inOffs).map BufferEntry.buffptr

namespace FilledBy
variable {b : CircularBuffer} {added : Nat} {r : RingBuffer BufferEntry 10}

theorem push (f : FilledBy b added r) (e : BufferEntry) :
    FilledBy (b.addEntry e) (added + 1) (r.push e) := by
  have hin := r.inOffs_lt
  refine ⟨f.mirrors.addEntry e, ?_, ?_⟩
  · simp only [RingBuffer.push, RingBuffer.next, f.inOffs]
    split <;> omega
  · simp only [RingBuffer.push, f.full, f.inOffs]
    rw [← Bool.decide_or, decide_eq_decide]
    omega

theorem length_live (f : FilledBy b added r) : b.live.length = min added 10 := by
  rw [f.mirrors.live, r.length_live, RingBuffer.count, f.full, f.inOffs]
  by_cases hfull : 10 ≤ added
  · rw [decide_eq_true hfull, if_pos rfl, Nat.min_eq_right hfull]
  · rw [decide_eq_false hfull, if_neg Bool.false_ne_true]
    omega

theorem live_map (f : FilledBy b added r) :
    b.live.map BufferEntry.buffptr = olderBlocks r ++ newerBlocks r := by
  rw [f.mirrors.live, r.live_eq_append, List.map_append, olderBlocks, newerBlocks]
  split <;> rfl

theorem length_older (f : FilledBy b added r) : (olderBlocks r).length = min added 10 - added % 10 := by
  rw [olderBlocks, f.full, f.inOffs]
  by_cases hfull : 10 ≤ added
  · simp [hfull]
  · simp only [hfull, decide_false, Bool.false_eq_true, if_false, List.length_nil]
    omega

theorem mem_released (f : FilledBy b added r) (p : Nat) :
    p ∈ DeviceCall.released b ↔ p ∈ newerBlocks r := by
  have hin := r.inOffs_lt
  rw [DeviceCall.released, newerBlocks, f.mirrors.inOffs, List.mem_map, List.mem_map]
  constructor
  · rintro ⟨i, hi, rfl⟩
    rw [List.mem_filter, decide_eq_true_eq] at hi
    have hslot := f.mirrors.slot ⟨i, hi.2.trans hin⟩
    refine ⟨b.slot i, ?_, rfl⟩
    rw [hslot, List.mem_take_iff_getElem]
    exact ⟨i, by simp [hi.2, hi.2.trans hin], by simp [RingBuffer.slot]⟩
  · rintro ⟨e, he, rfl⟩
    obtain ⟨i, hi, rfl⟩ := List.mem_take_iff_getElem.mp he
    have hlt : i < r.inOffs ∧ i < 10 := by simpa using hi
    have hslot := f.mirrors.slot ⟨i, hlt.2⟩
    refine ⟨i, by simp [hlt.1, hlt.2], ?_⟩
    rw [hslot]
    simp [RingBuffer.slot]

end FilledBy

/-- The ledger has the blocks of the device and `others`. -/
structure Tallied (k : Kernel) (added : Nat) (pending : Bool) (others : List Nat) : Prop where
  unlocked : k.dev.mutex = false
  ring : ∃ r, FilledBy k.dev.buffer added r
  pending : k.dev.isPartial = pending
  lists : Lists k.heap (k.dev.blocks ++ others)

def CompletesLine (env : WriteEnv) (buf : List UInt8) : Prop :=
  env.uncopied = 0 ∧ buf.getLast? = some newline

instance (env : WriteEnv) (buf : List UInt8) : Decidable (CompletesLine env buf) :=
  inferInstanceAs (Decidable (_ ∧ _))

section Begun
variable {k : Kernel} {r : Kernel × Int} {env : WriteEnv} {buf : List UInt8}

theorem write_begun (hunlocked : k.dev.mutex = false) (hclear : k.dev.isPartial = false)
    (halloc : (DeviceCall.write env buf).Allocates) (hvalid : (DeviceCall.write env buf).Valid)
    (hcall : (DeviceCall.write env buf).apply k = some r) :
    (∃ n, r.1.dev = if CompletesLine env buf then
        { k.dev with isPartial := false, buffer := k.dev.buffer.addEntry ⟨k.heap.next + 1, n⟩ }
      else { k.dev with isPartial := true, partialEntry := ⟨k.heap.next + 1, n⟩ }) ∧
      ∀ p, InLedger r.1.heap p ↔ InLedger k.heap p ∨ p = k.heap.next + 1 ∨
        CompletesLine env buf ∧ p = k.heap.next := by
  have hledger := DeviceCall.ledger hunlocked hcall
  have hptrs := Unfilled.writeProlog_blocks halloc k
  obtain ⟨res, hwrite, rfl⟩ := Option.map_eq_some_iff.mp hcall
  rw [aesdWrite_of_unlocked env buf hunlocked] at hwrite
  obtain ⟨sec, hsection, rfl⟩ := Option.map_eq_some_iff.mp hwrite
  obtain ⟨w, hgather, -, hdev⟩ := writeSection_eq_some hsection
  have hsingle : w = (toSsize buf.length, (writeProlog env k buf).2.heap) := by
    rw [← show (writeProlog env k buf).1.count = buf.length from rfl]
    exact gatherLine_of_clear hclear hgather
  have hlast : w.2.load (writeProlog env k buf).1.data (w.1 - 1) ≠ newline ↔
      ¬ CompletesLine env buf := by
    rw [hsingle, toSsize_of_lt hvalid.2, load_writeProlog_last env k hvalid.1, CompletesLine]
    tauto
  have hgather' : gatherLine env (writeProlog env k buf).1 (writeProlog env k buf).2 = some w :=
    hgather
  have hfrees : DeviceCall.kfrees k (.write env buf) =
      (if CompletesLine env buf then [] else [k.heap.next]) ++ [k.heap.next + 2] := by
    simp only [DeviceCall.kfrees, hgather', hclear, hptrs.1, hptrs.2.2, hlast]
    simp
  refine ⟨⟨toSize w.1, ?_⟩, fun p => ?_⟩
  · have hunlock : sec.1.mutexUnlock.dev = { sec.1.dev with mutex := k.dev.mutex } := by
      rw [hunlocked]
      rfl
    by_cases hends : CompletesLine env buf
    · rw [if_neg (mt hlast.mp (not_not_intro hends)), hptrs.2.1] at hdev
      rw [if_pos hends, hunlock, hdev]
      rfl
    · rw [if_pos (hlast.mpr hends), hptrs.2.1] at hdev
      rw [if_neg hends, hunlock, hdev]
      rfl
  · rw [hledger, hfrees]
    obtain ⟨a, ha⟩ := Option.isSome_iff_exists.mp halloc.1
    obtain ⟨d, hd⟩ := Option.isSome_iff_exists.mp halloc.2.1
    obtain ⟨t, ht⟩ := Option.isSome_iff_exists.mp halloc.2.2.1
    have hpos := List.length_pos_iff.mpr hvalid.1
    have hold : InLedger k.heap p → p < k.heap.next := InLedger.lt_next
    by_cases hin : InLedger k.heap p
    · have hlt := hold hin
      by_cases hends : CompletesLine env buf
      · simp [DeviceCall.kmallocs, hin, hends]
        omega
      · simp [DeviceCall.kmallocs, hin, hends]
        omega
    · by_cases hends : CompletesLine env buf
      · simp [DeviceCall.kmallocs, hclear, ha, hd, ht, kmalloced, hpos, hends, hin]
        omega
      · simp [DeviceCall.kmallocs, hclear, ha, hd, ht, kmalloced, hpos, hends, hin]
        omega

end Begun

namespace Tallied
variable {k : Kernel} {added : Nat} {pending : Bool} {others : List Nat} {r : Kernel × Int}

theorem start (slots : Vector BufferEntry 10) (unset : Unset) {h : Heap} (lists : Lists h others) :
    Tallied ⟨(initModule slots unset).dev, h⟩ 0 false others := by
  have m : Mirrors (initModule slots unset).dev.buffer (emptyRing slots) := .fresh slots
  refine ⟨rfl, ⟨emptyRing slots, m, rfl, rfl⟩, rfl, ?_⟩
  have hblocks : (initModule slots unset).dev.blocks = [] := by
    rw [AesdDev.blocks, m.live, live_emptyRing]
    rfl
  rw [hblocks]
  exact lists

theorem read (b : Tallied k added pending others) {env : ReadEnv} {ubuf : List UInt8} {count : Nat}
    {fPos : Int} (halloc : env.Allocates)
    (hcall : (DeviceCall.read env ubuf count fPos).apply k = some r) :
    ∃ lost, Tallied r.1 added pending (others ++ lost) ∧
      lost.length = if count = 0 then 0 else 1 := by
  have hledger := DeviceCall.ledger b.unlocked hcall
  obtain ⟨res, hread, rfl⟩ := Option.map_eq_some_iff.mp hcall
  obtain ⟨-, hdev⟩ := aesdRead_dev b.unlocked hread
  obtain ⟨tmpBuf, byteOffset, stale, tmp, uncopied⟩ := env
  obtain ⟨a, rfl⟩ := Option.isSome_iff_exists.mp (show tmpBuf.isSome from halloc.tmpBuf)
  obtain ⟨o, rfl⟩ := Option.isSome_iff_exists.mp (show byteOffset.isSome from halloc.byteOffset)
  obtain ⟨t, rfl⟩ := Option.isSome_iff_exists.mp (show tmp.isSome from halloc.tmp)
  have hblocks : res.kernel.dev.blocks = k.dev.blocks := by rw [hdev]; rfl
  suffices h : ∃ lost : List Nat, Lists res.kernel.heap ((k.dev.blocks ++ others) ++ lost) ∧
      lost.length = if count = 0 then 0 else 1 by
    obtain ⟨lost, hlists, hlength⟩ := h
    refine ⟨lost, ⟨by rw [hdev]; exact b.unlocked, by rw [hdev]; exact b.ring,
      by rw [hdev]; exact b.pending, ?_⟩, hlength⟩
    rw [hblocks, ← List.append_assoc]
    exact hlists
  have hold : ∀ p ∈ k.dev.blocks ++ others, p < k.heap.next := fun p hp => b.lists.lt_next hp
  by_cases hend : k.dev.buffer.totalSize ≤ fPos
  · refine ⟨if count = 0 then [] else [k.heap.next],
      b.lists.of_call _ [] _ hledger (by simp) ?_ ?_ ?_ ?_, by split <;> rfl⟩
    · simp [DeviceCall.kfrees, hend]
    · simp [DeviceCall.kmallocs, hend, kmalloced]
    · split <;> simp
    · intro p
      by_cases hcount : count = 0
      · simp [DeviceCall.kmallocs, hend, kmalloced, hcount]
      · simp [DeviceCall.kmallocs, DeviceCall.kfrees, hend, kmalloced, hcount,
          Nat.pos_of_ne_zero hcount]
  · refine ⟨if count = 0 then [] else [k.heap.next + 2],
      b.lists.of_call _ [] _ hledger (by simp) ?_ ?_ ?_ ?_, by split <;> rfl⟩
    · intro p hp
      have hlt := hold p hp
      simp [DeviceCall.kfrees, hend]
      omega
    · intro p hp
      by_cases hcount : count = 0
      · simp [DeviceCall.kmallocs, hend, kmalloced, hcount] at hp
        omega
      · simp [DeviceCall.kmallocs, hend, kmalloced, Nat.pos_of_ne_zero hcount] at hp
        omega
    · split <;> simp
    · intro p
      by_cases hcount : count = 0
      · simp [DeviceCall.kmallocs, DeviceCall.kfrees, hend, kmalloced, hcount]
        omega
      · simp [DeviceCall.kmallocs, DeviceCall.kfrees, hend, kmalloced, hcount,
          Nat.pos_of_ne_zero hcount]
        omega

theorem write (b : Tallied k added false others) {env : WriteEnv} {buf : List UInt8}
    (halloc : (DeviceCall.write env buf).Allocates) (hvalid : (DeviceCall.write env buf).Valid)
    (hcall : (DeviceCall.write env buf).apply k = some r) :
    if CompletesLine env buf then
      ∃ lost, Tallied r.1 (added + 1) false (others ++ lost) ∧
        lost.length = if 10 ≤ added then 2 else 1
    else Tallied r.1 added true others := by
  obtain ⟨⟨n, hdev⟩, hledger⟩ := write_begun b.unlocked b.pending halloc hvalid hcall
  have hblocks : k.dev.blocks = k.dev.buffer.live.map BufferEntry.buffptr := by
    simp [AesdDev.blocks, b.pending]
  by_cases hends : CompletesLine env buf
  · rw [if_pos hends]
    rw [if_pos hends] at hdev
    obtain ⟨ring, f⟩ := b.ring
    have f' := f.push ⟨k.heap.next + 1, n⟩
    have hgot : ∀ p, InLedger r.1.heap p ↔
        (InLedger k.heap p ∨ p ∈ [k.heap.next + 1, k.heap.next]) ∧ p ∉ [] := by
      simp [hledger, hends]
    have hlists := b.lists.of_call (k.dev.blocks ++ others) [] [k.heap.next + 1, k.heap.next] hgot
      (by simp) (by simp) (by simp) (by simp) (by simp)
    have hblocks' : r.1.dev.blocks = (ring.push ⟨k.heap.next + 1, n⟩).live.map BufferEntry.buffptr := by
      rw [hdev, AesdDev.blocks, if_neg Bool.false_ne_true, List.append_nil, f'.mirrors.live]
    have htallied : ∀ lost, (k.dev.blocks ++ others ++ [k.heap.next + 1, k.heap.next]).Perm
        (r.1.dev.blocks ++ (others ++ lost)) → Tallied r.1 (added + 1) false (others ++ lost) :=
      fun lost hperm => ⟨by rw [hdev]; exact b.unlocked, ⟨_, by rw [hdev]; exact f'⟩, by rw [hdev],
        hlists.perm hperm⟩
    rw [hblocks, hblocks', f.mirrors.live] at htallied
    by_cases hfull : 10 ≤ added
    · have hfull' : ring.full = true := by rw [f.full, decide_eq_true hfull]
      rw [if_pos hfull]
      rw [ring.live_cons_of_full hfull', ring.live_push_of_full _ hfull'] at htallied
      refine ⟨[k.heap.next, (ring.slot ⟨ring.inOffs, ring.inOffs_lt⟩).buffptr], htallied _ ?_, rfl⟩
      rw [List.perm_iff_count]
      intro p
      simp [List.count_cons]
      omega
    · have hfull' : ring.full = false := by rw [f.full, decide_eq_false hfull]
      rw [if_neg hfull]
      rw [ring.live_push_of_not_full _ hfull'] at htallied
      refine ⟨[k.heap.next], htallied _ ?_, rfl⟩
      rw [List.perm_iff_count]
      intro p
      simp [List.count_cons]
      omega
  · rw [if_neg hends]
    rw [if_neg hends] at hdev
    have hgot : ∀ p, InLedger r.1.heap p ↔
        (InLedger k.heap p ∨ p ∈ [k.heap.next + 1]) ∧ p ∉ [] := by
      simp [hledger, hends]
    have hlists := b.lists.of_call (k.dev.blocks ++ others) [] [k.heap.next + 1] hgot
      (by simp) (by simp) (by simp) (by simp) (by simp)
    refine ⟨by rw [hdev]; exact b.unlocked, by rw [hdev]; exact b.ring, by rw [hdev],
      hlists.perm ?_⟩
    rw [hblocks, hdev, AesdDev.blocks, if_pos rfl, List.append_assoc, List.append_assoc]
    exact List.Perm.append_left _ List.perm_append_comm

theorem length_blocks (b : Tallied k added pending others) :
    k.dev.blocks.length = min added 10 + pending.toNat := by
  obtain ⟨ring, f⟩ := b.ring
  rw [AesdDev.blocks, List.length_append, List.length_map, f.length_live, b.pending]
  cases pending <;> rfl

theorem released (b : Tallied k added pending others) {h : Heap}
    (hledger : ∀ p, InLedger h p ↔ InLedger k.heap p ∧ p ∉ DeviceCall.released k.dev.buffer) :
    ∃ lost, Lists h (others ++ lost) ∧
      lost.length = min added 10 - added % 10 + pending.toNat := by
  obtain ⟨ring, f⟩ := b.ring
  have hnodup := b.lists.nodup
  have hmem := b.lists.mem
  rw [AesdDev.blocks, f.live_map, b.pending] at hnodup hmem
  refine ⟨olderBlocks ring ++ (if pending then [k.dev.partialEntry.buffptr] else []),
    ⟨?_, fun p => ?_⟩, ?_⟩
  · rw [List.nodup_iff_count_le_one] at hnodup ⊢
    intro p
    have hone := hnodup p
    simp only [List.count_append] at hone ⊢
    omega
  · have hone := List.nodup_iff_count_le_one.mp hnodup p
    simp only [List.count_append] at hone
    rw [hledger, hmem, f.mem_released]
    simp only [← List.count_pos_iff, List.count_append]
    omega
  · rw [List.length_append, f.length_older]
    cases pending <;> rfl

theorem flush (b : Tallied k added pending others) (hcall : DeviceCall.flush.apply k = some r) :
    ∃ lost, Tallied r.1 0 false (others ++ lost) ∧
      lost.length = min added 10 - added % 10 + pending.toNat := by
  rw [DeviceCall.apply, aesdIoctl_flush] at hcall
  obtain rfl := Option.some.inj hcall
  obtain ⟨lost, hlists, hlength⟩ := b.released fun p => inLedger_released k.dev.buffer _ k.heap p
  obtain ⟨ring, f⟩ := b.ring
  refine ⟨lost, ⟨b.unlocked, ⟨ring.reset, f.mirrors.reset, rfl, rfl⟩, rfl, ?_⟩, hlength⟩
  have hlive : (aesdFlush k).1.dev.buffer.live = [] := f.mirrors.reset.live.trans ring.live_reset
  rw [AesdDev.blocks, hlive]
  exact hlists

theorem seekto (b : Tallied k added pending others) {target : AesdSeekto}
    (hcall : (DeviceCall.seekto target).apply k = some r) : Tallied r.1 added pending others := by
  rw [DeviceCall.apply, aesdIoctl_seekto] at hcall
  obtain rfl := Option.some.inj hcall
  exact ⟨b.unlocked, b.ring, b.pending, b.lists.congr fun _ => Iff.rfl⟩

end Tallied

/-- What can be said of the module's memory by its events: how many lines have come since the device
was last empty, whether one is pending, and how many blocks nobody will free. -/
structure BlockAccount where
  loaded : Bool
  added : Nat
  pending : Bool
  lost : Nat

namespace BlockAccount

def start : BlockAccount := ⟨false, 0, false, 0⟩

def held (a : BlockAccount) : Nat :=
  if a.loaded then min a.added 10 + a.pending.toNat + 2 else 0

def left (a : BlockAccount) : Nat := min a.added 10 - a.added % 10 + a.pending.toNat

def after (a : BlockAccount) : LifeEvent → BlockAccount
  | .load env =>
      match env.region with
      | .error _ => { a with
          lost := a.lost + [env.mutex, env.buffer, env.partialEntry].countP Option.isSome }
      | .ok _ =>
          if env.cdevAdd ≠ 0 then { a with lost := a.lost + 13 }
          else ⟨true, 0, false, a.lost + 11⟩
  | .call (.read _ _ count _) => { a with lost := a.lost + if count = 0 then 0 else 1 }
  | .call (.write env buf) =>
      if CompletesLine env buf then
        { a with added := a.added + 1, lost := a.lost + if 10 ≤ a.added then 2 else 1 }
      else { a with pending := true }
  | .call (.seekto _) => a
  | .call .flush => { a with added := 0, pending := false, lost := a.lost + a.left }
  | .unload => ⟨false, 0, false, a.lost + a.left⟩

/-- The kernel has memory for everything that is used, and a write begins a line. -/
def Allows (a : BlockAccount) : LifeEvent → Prop
  | .load env => 0 < env.mutexSize ∧ ∀ major, env.region = .ok major →
      env.mutex.isSome ∧ env.buffer.isSome ∧ env.partialEntry.isSome ∧
        ∀ i < maxWriteOperationsSupported, (env.entries i).isSome
  | .call (.write env buf) => a.pending = false ∧ (DeviceCall.write env buf).Allocates ∧
      (DeviceCall.write env buf).Valid
  | .call c => c.device.Allocates
  | .unload => True

end BlockAccount

inductive Accords : ModuleHost → BlockAccount → Prop
  | unloaded {h : Heap} {lost : List Nat} {n : Nat} (lists : Lists h lost)
      (length : lost.length = n) : Accords ⟨h, [], [], none⟩ ⟨false, 0, false, n⟩
  | loaded {h : Heap} {l : LoadedModule} {added : Nat} {pending : Bool} {lost : List Nat} {n : Nat}
      (tallied : Tallied ⟨l.dev, h⟩ added pending ([l.buffer, l.partialEntry] ++ lost))
      (length : lost.length = n) :
      Accords ⟨h, [mkdev l.major aesdMinor], [mkdev l.major aesdMinor], some l⟩
        ⟨true, added, pending, n⟩

theorem kmalloced_of_isSome (h : Heap) {n : Nat} (hn : 0 < n) {m : Kmalloc} (hsome : m.isSome) :
    kmalloced h n m = [(kmalloc h n m).1] := by
  obtain ⟨init, rfl⟩ := Option.isSome_iff_exists.mp hsome
  rw [kmalloced, if_pos ⟨rfl, hn⟩]
  rfl

theorem length_kmalloced (h : Heap) {n : Nat} (hn : 0 < n) (m : Kmalloc) :
    (kmalloced h n m).length = [m].countP Option.isSome := by
  cases m with
  | none => rfl
  | some init =>
      rw [kmalloced_of_isSome h hn rfl]
      rfl

theorem Lists.fillSlots {h : Heap} {l : List Nat} (o : Lists h l) {entries : Nat → Kmalloc}
    (n : Nat) (hall : ∀ i < n, (entries i).isSome) :
    ∃ new, Lists (fillSlots entries n h).1 (new ++ l) ∧ new.length = n := by
  induction n with
  | zero => exact ⟨[], o, rfl⟩
  | succ n ih =>
      obtain ⟨new, hlists, hlength⟩ := ih fun i hi => hall i (Nat.lt_succ_of_lt hi)
      have hnext := hlists.kmalloc entrySize (entries n)
      rw [kmalloced_of_isSome _ (by decide) (hall n (Nat.lt_succ_self n)), ← List.append_assoc]
        at hnext
      exact ⟨_, hnext.congr fun _ => Iff.rfl, by simp [hlength]⟩

namespace Accords
variable {s s' : ModuleHost} {a : BlockAccount}

theorem load (o : Accords s a) (hnone : s.loaded = none) {env : LoadEnv}
    (hallows : a.Allows (.load env)) :
    Accords (aesdInitModule env s).1 (a.after (.load env)) := by
  cases o with
  | loaded tallied length => cases hnone
  | @unloaded h lost n lists length =>
      have hm := lists.kmalloc env.mutexSize env.mutex
      have hb := hm.kmalloc circularBufferSize env.buffer
      have he := hb.kmalloc entrySize env.partialEntry
      cases hregion : env.region with
      | error result =>
          simp only [aesdInitModule, hregion, BlockAccount.after]
          refine .unloaded he ?_
          rw [List.length_append, List.length_append, List.length_append,
            length_kmalloced _ hallows.1, length_kmalloced _ (by decide),
            length_kmalloced _ (by decide), length]
          simp only [List.countP_cons, List.countP_nil]
          omega
      | ok major =>
          obtain ⟨hmutex, hbuffer, hpartial, hentries⟩ := hallows.2 major hregion
          rw [kmalloced_of_isSome _ hallows.1 hmutex, kmalloced_of_isSome _ (by decide) hbuffer,
            kmalloced_of_isSome _ (by decide) hpartial] at he
          rcases heqm : kmalloc h env.mutexSize env.mutex with ⟨m, h₁⟩
          rcases heqb : kmalloc h₁ circularBufferSize env.buffer with ⟨b, h₂⟩
          rcases heqe : kmalloc h₂ entrySize env.partialEntry with ⟨e, h₃⟩
          simp only [heqm, heqb, heqe] at he
          have hready : Lists (((h₃.checkRange m 0 env.mutexSize).checkRange b 0
              circularBufferSize).checkRange e 8 8) ([e] ++ ([b] ++ ([m] ++ lost))) :=
            he.congr fun _ => Iff.rfl
          obtain ⟨new, hlists, hnew⟩ := hready.fillSlots _ hentries
          simp only [aesdInitModule, hregion, heqm, heqb, heqe, aesdSetupCdev, BlockAccount.after]
          generalize fillSlots env.entries maxWriteOperationsSupported (((h₃.checkRange m 0
            env.mutexSize).checkRange b 0 circularBufferSize).checkRange e 8 8) = slots at hlists ⊢
          by_cases hadd : env.cdevAdd = 0
          · simp only [hadd, ne_eq, not_true_eq_false, if_true, if_false, devMajor_mkdev]
            have hperm : (new ++ ([e] ++ ([b] ++ ([m] ++ lost)))).Perm
                ([b, e] ++ (new ++ m :: lost)) := by
              rw [List.perm_iff_count]
              intro p
              simp [List.count_cons]
              omega
            refine @Accords.loaded slots.1 ⟨_, major, m, b, e⟩ 0 false (new ++ m :: lost) _
              (.start _ _ (hlists.perm hperm)) ?_
            simp [hnew, length, maxWriteOperationsSupported]
            omega
          · simp only [hadd, ne_eq, not_false_eq_true, if_true, if_false, List.erase_cons_head]
            refine .unloaded hlists ?_
            simp [hnew, length, maxWriteOperationsSupported]
            omega

theorem call (o : Accords s a) {c : FopsCall} (hallows : a.Allows (.call c))
    (hstep : lifeStep s (.call c) = some s') : Accords s' (a.after (.call c)) := by
  cases o with
  | unloaded lists length => cases hstep
  | @loaded h l added pending lost n tallied length =>
      obtain ⟨r, hcall, heq⟩ := Option.bind_eq_some_iff.mp hstep
      obtain rfl := Option.some.inj heq
      have hlater : ∀ added' pending' new, Tallied r.1 added' pending'
          ([l.buffer, l.partialEntry] ++ lost ++ new) →
          Accords ⟨r.1.heap, [mkdev l.major aesdMinor], [mkdev l.major aesdMinor],
            some { l with dev := r.1.dev }⟩ ⟨true, added', pending', n + new.length⟩ := by
        intro added' pending' new t
        rw [List.append_assoc] at t
        exact @Accords.loaded r.1.heap { l with dev := r.1.dev } _ _ (lost ++ new) _ t
          (by rw [List.length_append, length])
      cases c with
      | flush =>
          obtain ⟨new, t, hnew⟩ := tallied.flush hcall
          have hend := hlater _ _ _ t
          rw [hnew] at hend
          exact hend
      | seekto target =>
          have hend := hlater _ _ [] (by rw [List.append_nil]; exact tallied.seekto hcall)
          exact hend
      | read env ubuf count fPos =>
          obtain ⟨new, t, hnew⟩ := tallied.read hallows hcall
          have hend := hlater _ _ _ t
          rw [hnew] at hend
          exact hend
      | write env buf =>
          obtain ⟨hclear, halloc, hvalid⟩ := hallows
          obtain rfl : pending = false := hclear
          have t := tallied.write halloc hvalid hcall
          simp only [BlockAccount.after]
          by_cases hends : CompletesLine env buf
          · rw [if_pos hends] at t ⊢
            obtain ⟨new, t, hnew⟩ := t
            have hend := hlater _ _ _ t
            rw [hnew] at hend
            exact hend
          · rw [if_neg hends] at t ⊢
            exact hlater _ _ [] (by rw [List.append_nil]; exact t)

theorem unload (o : Accords s a) (hstep : lifeStep s .unload = some s') :
    Accords s' (a.after .unload) := by
  cases o with
  | unloaded lists length => cases hstep
  | @loaded h l added pending lost n tallied length =>
      obtain rfl := Option.some.inj hstep
      obtain ⟨new, hlists, hnew⟩ := tallied.released
        fun p => inLedger_released l.dev.buffer maxWriteOperationsSupported h p
      have hfreed : Lists _ (lost ++ new) := hlists.free_head.free_head
      simp only [aesdCleanupModule, List.erase_cons_head]
      refine .unloaded hfreed ?_
      rw [List.length_append, length, hnew]
      rfl

theorem step (o : Accords s a) {e : LifeEvent} (hallows : a.Allows e)
    (hstep : lifeStep s e = some s') : Accords s' (a.after e) := by
  cases e with
  | load env =>
      rw [lifeStep] at hstep
      split at hstep
      · rename_i hnone
        obtain rfl := Option.some.inj hstep
        exact o.load (Option.isNone_iff_eq_none.mp hnone) hallows
      · cases hstep
  | call c => exact o.call hallows hstep
  | unload => exact o.unload hstep

end Accords

/-- For every order of loads, calls and unloads: the device number and the character device are
registered while the module is loaded and no longer, and the ledger has as many blocks as the account
says that the module refers to and that nobody will free. -/
theorem lost_blocks_accounted (events : List LifeEvent) {s : ModuleHost}
    (hrun : run lifeStep .start events = some s)
    (hallows : ∀ front e later, events = front ++ e :: later →
      (front.foldl BlockAccount.after .start).Allows e) :
    let a := events.foldl BlockAccount.after .start
    ledgerSize s.heap = a.held + a.lost ∧ s.regions = s.loaded.toList.map (mkdev ·.major aesdMinor) ∧
      s.cdevs = s.regions ∧ s.loaded.isSome = a.loaded := by
  have hempty : Lists Heap.empty [] := ⟨List.nodup_nil, fun p => by simp [InLedger, Heap.empty]⟩
  have hstart : Accords .start .start := .unloaded hempty rfl
  have hend := follows Accords BlockAccount.after BlockAccount.Allows
    (fun s a e s' o hallows hstep => o.step hallows hstep) hstart hallows hrun
  dsimp only
  generalize events.foldl BlockAccount.after .start = a at hend
  cases hend with
  | unloaded lists length => exact ⟨by simp [lists.size, BlockAccount.held, length], rfl, rfl, rfl⟩
  | loaded tallied length =>
      refine ⟨?_, rfl, rfl, rfl⟩
      rw [tallied.lists.size, List.length_append, tallied.length_blocks, List.length_append, length,
        ← Nat.add_assoc]
      rfl

def LoadEnv.zeroed : LoadEnv :=
  ⟨32, some fun _ => 0, some fun _ => 0, some fun _ => 0, .ok 240, fun _ => some fun _ => 0, 0⟩

theorem LoadEnv.zeroed_allows (a : BlockAccount) : a.Allows (.load .zeroed) :=
  ⟨by decide, fun _ _ => ⟨rfl, rfl, rfl, fun _ _ => rfl⟩⟩

def lineThenRead : List FopsCall :=
  [.write .zeroed [97, 10], .read (ReadCall.zeroed 4).env [] 4 0]

theorem lost_blocks_accounted_line :
    ∃ s, run lifeStep .start (.load { LoadEnv.zeroed with region := .error (-16) } :: .load .zeroed ::
        (lineThenRead.map .call ++ [.unload])) = some s ∧ ledgerSize s.heap = 16 ∧
      s.regions = s.loaded.toList.map (mkdev ·.major aesdMinor) := by
  have hend : (run lifeStep .start (.load { LoadEnv.zeroed with region := .error (-16) } ::
      .load .zeroed :: (lineThenRead.map .call ++ [.unload]))).isSome = true := by decide +kernel
  obtain ⟨s, hrun⟩ := Option.isSome_iff_exists.mp hend
  have haccount := lost_blocks_accounted _ hrun
    (allows_cons ⟨by decide, fun _ h => by cases h⟩
      (allows_cons (LoadEnv.zeroed_allows _)
        (allows_cons ⟨rfl, ⟨rfl, rfl, rfl, rfl⟩, by simp, by simp⟩
          (allows_cons ⟨rfl, rfl, rfl⟩
            (allows_cons trivial fun front e later h => by cases front <;> cases h)))))
  exact ⟨s, hrun, haccount.1.trans (by decide +kernel), haccount.2.1⟩

def FopsCall.Plain : FopsCall → Prop
  | .read env _ count _ => env.Allocates ∧ count ≠ 0
  | .write env buf => (DeviceCall.write env buf).Allocates ∧ (DeviceCall.write env buf).Valid ∧
      CompletesLine env buf
  | _ => False

def FopsCall.isWrite : FopsCall → Bool
  | .write _ _ => true
  | _ => false

theorem BlockAccount.plain_calls {calls : List FopsCall} (hplain : ∀ c ∈ calls, c.Plain) :
    (calls.map LifeEvent.call).foldl after ⟨true, 0, false, 11⟩ =
      ⟨true, calls.countP FopsCall.isWrite, false,
        11 + calls.length + (calls.countP FopsCall.isWrite - 10)⟩ := by
  induction calls using List.reverseRecOn with
  | nil => rfl
  | append_singleton calls c ih =>
      have hc := hplain c (by simp)
      rw [List.map_append, List.foldl_append, ih fun c' hc' => hplain c' (by simp [hc'])]
      cases c with
      | flush => exact hc.elim
      | seekto target => exact hc.elim
      | read env ubuf count fPos =>
          simp [after, hc.2, FopsCall.isWrite]
          omega
      | write env buf =>
          simp only [List.map_cons, List.map_nil, List.foldl_cons, List.foldl_nil, after, hc.2.2,
            if_true, List.countP_append, List.length_append, mk.injEq]
          simp [FopsCall.isWrite]
          split <;> omega

theorem BlockAccount.allows_plain {env : LoadEnv} {calls : List FopsCall} {front later : List LifeEvent}
    {e : LifeEvent} (hload : start.Allows (.load env))
    (hafter : start.after (.load env) = ⟨true, 0, false, 11⟩) (hplain : ∀ c ∈ calls, c.Plain)
    (hsplit : .load env :: (calls.map .call ++ [.unload]) = front ++ e :: later) :
    (front.foldl after start).Allows e := by
  cases front with
  | nil =>
      obtain ⟨rfl, -⟩ := List.cons.inj hsplit
      exact hload
  | cons first front =>
      obtain ⟨rfl, hrest⟩ := List.cons.inj hsplit
      rw [List.foldl_cons, hafter]
      rcases List.append_eq_append_iff.mp hrest with ⟨more, -, hmore⟩ | ⟨more, hcalls, hmore⟩
      · have hunload : e = .unload := by
          have hmem : e ∈ [LifeEvent.unload] := by simp [hmore]
          exact List.mem_singleton.mp hmem
        rw [hunload]
        trivial
      · cases more with
        | nil =>
            obtain ⟨rfl, -⟩ := List.cons.inj hmore
            trivial
        | cons e' more =>
            obtain ⟨rfl, -⟩ := List.cons.inj hmore
            obtain ⟨before, behind, rfl, rfl, hbehind⟩ := List.map_eq_append_iff.mp hcalls
            obtain ⟨c, behind', rfl, rfl, -⟩ := List.map_eq_cons_iff.mp hbehind
            rw [plain_calls fun c' hc' => hplain c' (by simp [hc'])]
            have hc := hplain c (by simp)
            cases c with
            | flush => exact hc.elim
            | seekto target => exact hc.elim
            | read env ubuf count fPos => exact hc.1
            | write env buf => exact ⟨rfl, hc.1, hc.2.1⟩

/-- What a life of the module costs in which lines are written and read: eleven blocks for itself, one
for each call, and the block of each line but the last `writes % 10` ones. -/
theorem lines_lost_of_life (env : LoadEnv) (calls : List FopsCall) {s : ModuleHost} {major : Nat}
    (hload : BlockAccount.start.Allows (.load env)) (hregion : env.region = .ok major)
    (hcdev : env.cdevAdd = 0) (hplain : ∀ c ∈ calls, c.Plain)
    (hrun : run lifeStep .start (.load env :: (calls.map .call ++ [.unload])) = some s) :
    ledgerSize s.heap = 11 + calls.length +
      (calls.countP FopsCall.isWrite - calls.countP FopsCall.isWrite % 10) := by
  have hafter : BlockAccount.start.after (.load env) = ⟨true, 0, false, 11⟩ := by
    simp [BlockAccount.after, hregion, hcdev, BlockAccount.start]
  have haccount := lost_blocks_accounted _ hrun fun front e later hsplit =>
    BlockAccount.allows_plain hload hafter hplain hsplit
  dsimp only at haccount
  rw [haccount.1, List.foldl_cons, hafter, List.foldl_append, BlockAccount.plain_calls hplain]
  simp [BlockAccount.after, BlockAccount.held, BlockAccount.left]
  omega

theorem lines_lost_of_life_lineThenRead :
    ∃ s, run lifeStep .start (.load .zeroed :: (lineThenRead.map .call ++ [.unload])) = some s ∧
      ledgerSize s.heap = 13 := by
  have hend : (run lifeStep .start
      (.load .zeroed :: (lineThenRead.map .call ++ [.unload]))).isSome = true := by decide +kernel
  obtain ⟨s, hrun⟩ := Option.isSome_iff_exists.mp hend
  have hplain : ∀ c ∈ lineThenRead, c.Plain := by
    intro c hc
    simp only [lineThenRead, List.mem_cons, List.not_mem_nil, or_false] at hc
    rcases hc with rfl | rfl
    · exact ⟨⟨rfl, rfl, rfl, rfl⟩, ⟨by simp, by simp⟩, rfl, rfl⟩
    · exact ⟨⟨rfl, rfl, rfl⟩, by decide⟩
  exact ⟨s, hrun, lines_lost_of_life .zeroed lineThenRead (LoadEnv.zeroed_allows _) rfl rfl hplain hrun⟩

end Aesd

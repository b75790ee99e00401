import Aesd.ReadDelivery

/-! `AESDCHAR_IOCSEEKTO` against the position lookup. The command adds up slots from the
start of the array, the lookup goes through the lines from the oldest one on; a command
leads to the byte that it names exactly when the two sums are the same. -/
namespace Aesd
open FixedWidth Memory Concat

def slotBytes (b : CircularBuffer) (c : Nat) : Nat :=
  ((List.range c).map fun i => (b.slot i).size).sum

def lineBytes (lines : List (List UInt8)) (c : Nat) : Nat := ((lines.map List.length).take c).sum

/-- The command `(c, o)` leads to byte `o` of line `c`: it records that byte's position, what the
next read hands over starts with the line's bytes from there on and is the log from there on
where no access leaves its block, and the lookup finds the line's slot. -/
structure SeekLands (k : Kernel) (lines : List (List UInt8)) (c o : Nat) : Prop where
  ret : (aesdIoctl k iocSeekto (some ⟨c, o⟩)).2 = 0
  recorded : (aesdIoctl k iocSeekto (some ⟨c, o⟩)).1.dev.seektoPosition =
    (lineBytes lines c + o : Nat)
  read : ∀ call : ReadCall, call.Valid lines → ∀ fPos < k.dev.buffer.totalSize,
    ∃ res, aesdRead call.env (aesdIoctl k iocSeekto (some ⟨c, o⟩)).1 call.ubuf call.count fPos =
        some res ∧ ∃ n : Nat, 1 ≤ n ∧ res.ret = n ∧
      ((lines.getD c []).drop o).take call.count <+: res.ubuf.take n ∧
      (res.kernel.heap.fault = false → res.ubuf.take n = ((lines.drop c).flatten.drop o).take n)
  found : lineBytes lines c + o ≠ 0 →
    k.dev.buffer.findEntryOffsetForFpos (lineBytes lines c + o) =
      .entry ((k.dev.buffer.outOffs + c) % 10) (some o)

/-- The slots before slot `c` are as long as the lines before line `c`, and the sizes of all ten
slots, added up in 64 bits, reach beyond the byte that `(c, o)` names, unless that is byte 0. -/
def SeekCounts (b : CircularBuffer) (lines : List (List UInt8)) (c o : Nat) : Prop :=
  slotBytes b c = lineBytes lines c ∧
    (lineBytes lines c + o = 0 ∨ lineBytes lines c + o < b.slotSizes.sum % 2 ^ 64)

@[simp] theorem slotBytes_succ (b : CircularBuffer) (c : Nat) :
    slotBytes b (c + 1) = slotBytes b c + (b.slot c).size := by
  simp [slotBytes, List.range_succ]

theorem lineBytes_succ (lines : List (List UInt8)) (c : Nat) (hc : c < lines.length) :
    lineBytes lines (c + 1) = lineBytes lines c + lines[c].length := by
  rw [lineBytes, lineBytes, List.sum_take_succ _ _ (by simpa using hc), List.getElem_map]

theorem lineBytes_add_lt {lines : List (List UInt8)} {c o : Nat} (hc : c < lines.length)
    (ho : o < lines[c].length) : lineBytes lines c + o < (contents lines).length := by
  have hsplit := List.sum_take_add_sum_drop (lines.map List.length) (c + 1)
  rw [← lineBytes, lineBytes_succ _ _ hc, ← length_contents] at hsplit
  omega

theorem slotBytes_le {b : CircularBuffer} {c n : Nat} (h : ∀ i < c, (b.slot i).size ≤ n) :
    slotBytes b c ≤ c * n := by
  induction c with
  | zero => simp [slotBytes]
  | succ c ih =>
      have hold := ih fun i hi => h i (by omega)
      have hnew := h c (by omega)
      rw [slotBytes_succ, Nat.succ_mul]
      omega

theorem slotBytes_congr {b b' : CircularBuffer} {c : Nat}
    (h : ∀ i < c, (b'.slot i).size = (b.slot i).size) : slotBytes b' c = slotBytes b c := by
  rw [slotBytes, slotBytes]
  congr 1
  exact List.map_congr_left fun i hi => h i (List.mem_range.mp hi)

theorem rounds_slotBytes (b : CircularBuffer) (c : Nat) :
    rounds (fun i pos => toSsize (pos + (b.slot i).size)) c (0 : Int) =
      toSsize (slotBytes b c) := by
  induction c with
  | zero => simp [rounds, slotBytes, toSsize]
  | succ c ih => rw [rounds, ih, toSsize_toSsize_add, slotBytes_succ, Nat.cast_add]

theorem seektoTarget_eq (d : AesdDev) {c : Nat} (hc : c ≤ 10) (o : Nat) :
    seektoTarget d ⟨c, o⟩ = toSsize (slotBytes d.buffer c + o : Nat) := by
  have hsame : ∀ n ≤ c, rounds (fun i pos => toSsize (pos + d.sizeAt i)) n (0 : Int) =
      rounds (fun i pos => toSsize (pos + (d.buffer.slot i).size)) n (0 : Int) := by
    intro n hn
    induction n with
    | zero => rfl
    | succ n ih => rw [rounds, rounds, ih (by omega), d.sizeAt_of_lt (by omega)]
  rw [seektoTarget, hsame c (Nat.le_refl c), rounds_slotBytes, toSsize_toSsize_add, Nat.cast_add]

namespace Stores
variable {k : Kernel} {r : RingBuffer BufferEntry 10} {lines : List (List UInt8)}

theorem slotBytes_lt (s : Stores k r lines) {c : Nat} (hc : c < lines.length) :
    slotBytes k.dev.buffer c < 9 * lineBound := by
  have hcount := r.count_le
  have hlen := s.length_eq
  have hslots : slotBytes k.dev.buffer c ≤ c * (lineBound - 1) :=
    slotBytes_le fun i hi => Nat.le_sub_one_of_lt (s.slot_lt (by omega))
  have hmul : c * (lineBound - 1) ≤ 9 * (lineBound - 1) := Nat.mul_le_mul_right _ (by omega)
  unfold lineBound at hslots hmul ⊢
  omega

theorem seekto (s : Stores k r lines) {c o : Nat} (hc : c < lines.length)
    (ho : o < lines[c].length) :
    let k' := (aesdIoctl k iocSeekto (some ⟨c, o⟩)).1
    Stores k' r lines ∧ k'.dev.seek = true ∧
      k'.dev.seektoPosition = (slotBytes k.dev.buffer c + o : Nat) := by
  have hcount := r.count_le
  have hlen := s.length_eq
  have hline := s.small _ (List.getElem_mem hc)
  have hslots := s.slotBytes_lt hc
  refine ⟨s.of_extends ⟨Nat.le_refl _, fun _ _ => rfl⟩ rfl s.unlocked ?_, rfl, ?_⟩
  · have hten : ¬ maxWriteOperationsSupported < c := by
      unfold maxWriteOperationsSupported
      omega
    show (k.heap.fault || decide (maxWriteOperationsSupported < c)) = false
    rw [s.faultless, decide_eq_false hten, Bool.or_false]
  · show seektoTarget k.dev ⟨c, o⟩ = _
    rw [seektoTarget_eq _ (by omega), toSsize_of_lt]
    unfold lineBound at hline hslots
    omega

theorem locate_line (s : Stores k r lines) {c o : Nat} (hc : c < lines.length)
    (ho : o < lines[c].length) : locate (sizes r) (lineBytes lines c + o) = some (c, o) := by
  rw [s.sizes_eq]
  exact (locate_eq_some_iff _ _ _ _).mpr ⟨by simpa using hc, by simpa using ho, rfl⟩

theorem read_line (s : Stores k r lines) {c o : Nat} (hc : c < lines.length)
    (ho : o < lines[c].length)
    (hguard : lineBytes lines c + o = 0 ∨ lineBytes lines c + o < k.dev.buffer.totalChars)
    {call : ReadCall} (valid : call.Valid lines) {fPos : Int} (hlt : fPos < k.dev.buffer.totalSize)
    (hpos : readPosition k.dev fPos = (lineBytes lines c + o : Nat)) :
    ∃ res, aesdRead call.env k call.ubuf call.count fPos = some res ∧ ∃ n : Nat, 1 ≤ n ∧
      res.ret = n ∧ ((lines.getD c []).drop o).take call.count <+: res.ubuf.take n ∧
      (res.kernel.heap.fault = false →
        res.ubuf.take n = ((lines.drop c).flatten.drop o).take n) := by
  have hcount := valid.count_pos
  obtain ⟨j, off, res, hcall, ra⟩ := s.read_at call.ubuf valid.succeeds hcount valid.size hlt hpos
    hguard (lineBytes_add_lt hc ho)
  obtain ⟨rfl, rfl⟩ := s.readAt_unique ra hc ho rfl
  obtain ⟨n, hret, hle, hhead⟩ := ra.head
  refine ⟨res, hcall, n, by omega, hret, ?_, fun hfree => ?_⟩
  · have hfirst : ((lines.getD j []).drop off).take call.count =
        res.ubuf.take (min call.count (lines[j].length - off)) := by
      rw [hhead, List.getD_eq_getElem?_getD, List.getElem?_eq_getElem hc, Option.getD_some,
        ← List.length_drop, ← List.take_eq_take_min]
    rw [hfirst]
    exact List.take_prefix_take_left hle
  · obtain ⟨n', -, -, -, -, hret', -, hbytes⟩ := ra.delivered hfree
    have hsame : n' = n := by omega
    rw [← hsame, hbytes, contents, lineBytes, drop_flatten]

theorem seekLands_iff (s : Stores k r lines) {c o : Nat} (hc : c < lines.length)
    (ho : o < lines[c].length) :
    SeekLands k lines c o ↔ SeekCounts k.dev.buffer lines c o := by
  obtain ⟨s', hseek, hpos⟩ := s.seekto hc ho
  have htotal : k.dev.buffer.totalChars = k.dev.buffer.slotSizes.sum % 2 ^ 64 := by
    rw [k.dev.buffer.totalChars_eq, CircularBuffer.slotSizes]
    unfold toSize
    omega
  constructor
  · intro lands
    have hrec := lands.recorded
    rw [hpos] at hrec
    refine ⟨by omega, or_iff_not_imp_left.mpr fun hne => ?_⟩
    have hfound := lands.found hne
    rw [CircularBuffer.findEntryOffsetForFpos, if_neg hne] at hfound
    rw [← htotal]
    by_contra hle
    rw [if_pos (Nat.le_of_not_lt hle)] at hfound
    cases hfound
  · rintro ⟨heq, hguard⟩
    rw [heq] at hpos
    rw [← htotal] at hguard
    refine ⟨rfl, hpos, fun call valid fPos hlt => ?_, fun hne => ?_⟩
    · exact s'.read_line hc ho hguard valid hlt (by rw [readPosition, hseek, if_pos rfl, hpos])
    · rw [s.mirrors.find_of_lt_totalChars hne (hguard.resolve_left hne) (s.locate_line hc ho),
        s.mirrors.outOffs]
      rfl

end Stores

/-- A command `(c, o)` leads to byte `o` of line `c` exactly when the slots before slot `c` are as long
as the lines before line `c`, and the guard of the lookup lets the position pass. -/
theorem seek_lands_iff_counts (slots : Vector BufferEntry 10) (unset : Unset) (ops : List LogOp)
    (hv : ∀ op ∈ ops, op.Valid) (c o : Nat) (hc : c < (LogOp.log ops).length)
    (ho : o < (LogOp.log ops)[c].length) :
    let k := LogOp.run (initModule slots unset) ops
    SeekLands k (LogOp.log ops) c o ↔ SeekCounts k.dev.buffer (LogOp.log ops) c o := by
  obtain ⟨r, s, -⟩ := LogOp.run_stores slots unset ops hv
  exact s.seekLands_iff hc ho

theorem seek_lands_two_lines :
    SeekLands
      (LogOp.run (initModule CircularBuffer.init.entry .zeroed) [.commit [97, 10], .commit [98, 10]])
      [[97, 10], [98, 10]] 1 1 :=
  (seek_lands_iff_counts CircularBuffer.init.entry .zeroed
    [.commit [97, 10], .commit [98, 10]] (by simp [LogOp.Valid, lineBound]) 1 1 (by decide)
    (by decide)).mpr ⟨rfl, Or.inr (by decide)⟩

/-- Eleven lines of 1 to 11 bytes: slot 0 holds the newest line, so command 1 records
position 11 and not 2. -/
theorem seek_misses_after_eleven :
    let ops := (List.range 11).map fun i => LogOp.commit (List.replicate (i + 1) 10)
    1 < (LogOp.log ops).length ∧
      ¬ SeekLands (LogOp.run (initModule CircularBuffer.init.entry .zeroed) ops) (LogOp.log ops) 1 0 :=
  ⟨by decide +kernel, fun lands => absurd lands.recorded (by decide +kernel)⟩

end Aesd

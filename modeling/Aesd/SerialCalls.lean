import Aesd.DeviceContents

/-! Calls through `aesd_fops` one after the other. What a list of calls makes of the lines depends
on its writes and flushes alone; a read and a seek command matter to the pending seek only. -/
namespace Aesd
open FixedWidth Memory

namespace FopsCall

/-- No kernel call of it fails, a read asks for less than an allocation can have, and a write has a
byte: one without any looks at `data[-1]`. -/
def Valid : FopsCall → Prop
  | read env _ count fPos => env.Allocates ∧ count < kmallocBound ∧ -2 ^ 63 ≤ fPos
  | write env buf => env.Succeeds ∧ buf ≠ []
  | _ => True

def Fits (l : Lines) : FopsCall → Prop
  | write _ buf => (l.pending.getD []).length + buf.length < kmallocBound
  | _ => True

def act (a : Contents) : FopsCall → Contents
  | flush => a.flush
  | seekto target => a.seekto target
  | read _ _ _ fPos => a.read fPos
  | write _ buf => a.write buf

def actLines (l : Lines) : FopsCall → Lines
  | flush => l.flush
  | write _ buf => l.write buf
  | _ => l

def changes : FopsCall → Bool
  | flush => true
  | write _ _ => true
  | _ => false

def IsSeek : FopsCall → Prop
  | seekto _ => True
  | _ => False

def Clears (l : Lines) : FopsCall → Prop
  | flush => True
  | read _ _ _ fPos => fPos < l.totalSize
  | _ => False

variable {c : FopsCall} {k k' : Kernel}

theorem lines_act (c : FopsCall) (a : Contents) : (c.act a).lines = c.actLines a.lines := by
  cases c <;> rfl

theorem actLines_of_not_changes (h : c.changes = false) (l : Lines) : c.actLines l = l := by
  cases c with
  | seekto | read => rfl
  | flush | write => cases h

theorem fits_of_not_changes (h : c.changes = false) (l : Lines) : c.Fits l := by
  cases c with
  | seekto | read => exact trivial
  | flush | write => cases h

theorem seek_act (hc : ¬ c.IsSeek) (a : Contents) :
    (c.act a).seek = true ↔ a.seek = true ∧ ¬ c.Clears a.lines := by
  cases c with
  | flush => simp [act, Contents.flush, Clears]
  | seekto target => exact absurd trivial hc
  | read env ubuf count fPos => simp [act, Contents.read, Clears]
  | write env buf => simp [act, Contents.write, Clears]

theorem apply_act (p : Placed k) (hv : c.Valid) (hfits : c.Fits k.contents.lines) :
    ∃ k', c.apply k = some k' ∧ k'.contents = c.act k.contents := by
  cases c with
  | flush => exact ⟨_, rfl, contents_flush p⟩
  | seekto target => exact ⟨_, rfl, contents_seekto k target⟩
  | read env ubuf count fPos =>
      obtain ⟨res, hcall, hcontents, -⟩ := p.read hv.1 hv.2.1 hv.2.2 ubuf
      exact ⟨res.kernel, by rw [apply, hcall]; rfl, hcontents⟩
  | write env buf =>
      rw [Fits, pendingSize_contents] at hfits
      obtain ⟨res, hcall, hcontents, -⟩ := p.write hv.1 (Or.inl hv.2) hfits
      exact ⟨res.kernel, by rw [apply, hcall]; rfl, hcontents⟩

theorem apply_reached {k₀ : Kernel} (reached : Reached k₀ k) (hfits : c.Fits k.contents.lines)
    (happly : c.apply k = some k') : Reached k₀ k' := by
  cases c with
  | flush =>
      rw [apply, Option.some.injEq, ← aesdIoctl_flush k none] at happly
      exact happly ▸ reached.ioctl _ _
  | seekto target =>
      rw [apply, Option.some.injEq, ← aesdIoctl_seekto] at happly
      exact happly ▸ reached.ioctl _ _
  | read env ubuf count fPos =>
      obtain ⟨res, hcall, rfl⟩ := Option.map_eq_some_iff.mp happly
      exact reached.read hcall
  | write env buf =>
      obtain ⟨res, hcall, rfl⟩ := Option.map_eq_some_iff.mp happly
      refine reached.write ?_ hcall
      rw [Fits, pendingSize_contents, Nat.add_comm] at hfits
      exact hfits

end FopsCall

section Order
variable {ι : Type} (call : ι → FopsCall)

def after (a : Contents) (order : List ι) : Contents := order.foldl (fun a i => (call i).act a) a

def linesAfter (l : Lines) (order : List ι) : Lines :=
  order.foldl (fun l i => (call i).actLines l) l

def FitAll (l : Lines) : List ι → Prop
  | [] => True
  | i :: order => (call i).Fits l ∧ FitAll ((call i).actLines l) order

def Cleared (l : Lines) : List ι → Prop
  | [] => False
  | i :: order => (call i).Clears l ∨ Cleared ((call i).actLines l) order

def serially (k : Kernel) (order : List ι) : Option Kernel :=
  order.foldlM (fun k i => (call i).apply k) k

variable {call}

theorem lines_after (a : Contents) (order : List ι) :
    (after call a order).lines = linesAfter call a.lines order := by
  induction order generalizing a with
  | nil => rfl
  | cons i order ih =>
      rw [after, List.foldl_cons, ← after, ih, FopsCall.lines_act]
      rfl

theorem linesAfter_append (l : Lines) (first second : List ι) :
    linesAfter call l (first ++ second) = linesAfter call (linesAfter call l first) second :=
  List.foldl_append

theorem linesAfter_filter (l : Lines) (order : List ι) :
    linesAfter call l (order.filter fun i => (call i).changes) = linesAfter call l order := by
  induction order generalizing l with
  | nil => rfl
  | cons i order ih =>
      cases hi : (call i).changes
      · rw [List.filter_cons_of_neg (by rw [hi]; exact Bool.false_ne_true), ih, linesAfter,
          linesAfter, List.foldl_cons, FopsCall.actLines_of_not_changes hi]
      · rw [List.filter_cons_of_pos (by rw [hi])]
        exact ih _

theorem fitAll_filter (l : Lines) (order : List ι) :
    FitAll call l (order.filter fun i => (call i).changes) ↔ FitAll call l order := by
  induction order generalizing l with
  | nil => rfl
  | cons i order ih =>
      cases hi : (call i).changes
      · rw [List.filter_cons_of_neg (by rw [hi]; exact Bool.false_ne_true), FitAll, ih,
          FopsCall.actLines_of_not_changes hi, and_iff_right (FopsCall.fits_of_not_changes hi l)]
      · rw [List.filter_cons_of_pos (by rw [hi]), FitAll, FitAll, ih]

theorem fitAll_append_singleton (l : Lines) (order : List ι) (i : ι) :
    FitAll call l (order ++ [i]) ↔
      FitAll call l order ∧ (call i).Fits (linesAfter call l order) := by
  induction order generalizing l with
  | nil => simp [FitAll, linesAfter]
  | cons j order ih => rw [List.cons_append, FitAll, FitAll, ih, and_assoc]; rfl

theorem cleared_append_singleton (l : Lines) (order : List ι) (i : ι) :
    Cleared call l (order ++ [i]) ↔
      Cleared call l order ∨ (call i).Clears (linesAfter call l order) := by
  induction order generalizing l with
  | nil => simp [Cleared, linesAfter]
  | cons j order ih => rw [List.cons_append, Cleared, Cleared, ih, or_assoc]; rfl

theorem cleared_of_flush {order : List ι} {i : ι} (hi : i ∈ order) (hcall : call i = .flush)
    (l : Lines) : Cleared call l order := by
  induction order generalizing l with
  | nil => cases hi
  | cons j order ih =>
      rcases List.mem_cons.mp hi with rfl | hrest
      · rw [Cleared, hcall]
        exact Or.inl trivial
      · exact Or.inr (ih hrest _)

theorem seek_after {order : List ι} (hseek : ∀ i ∈ order, ¬ (call i).IsSeek) (a : Contents) :
    (after call a order).seek = true ↔ a.seek = true ∧ ¬ Cleared call a.lines order := by
  induction order generalizing a with
  | nil => simp [after, Cleared]
  | cons i order ih =>
      rw [List.forall_mem_cons] at hseek
      rw [after, List.foldl_cons, ← after, ih hseek.2, FopsCall.seek_act hseek.1, Cleared,
        FopsCall.lines_act, not_or, and_assoc]

theorem position_after {order : List ι} (hseek : ∀ i ∈ order, ¬ (call i).IsSeek)
    (hflush : ∀ i ∈ order, call i ≠ .flush) (a : Contents) :
    (after call a order).position = a.position := by
  induction order generalizing a with
  | nil => rfl
  | cons i order ih =>
      rw [List.forall_mem_cons] at hseek hflush
      have hhead : ((call i).act a).position = a.position := by
        cases hi : call i with
        | flush => exact absurd hi hflush.1
        | seekto target => exact absurd (by rw [hi]; trivial) hseek.1
        | read | write => rfl
      rw [after, List.foldl_cons, ← after, ih hseek.2 hflush.2, hhead]

theorem not_cleared_of_writes {order : List ι}
    (hwrites : ∀ i ∈ order, ∃ env buf, call i = .write env buf) (l : Lines) :
    ¬ Cleared call l order := by
  induction order generalizing l with
  | nil => exact id
  | cons i order ih =>
      rw [List.forall_mem_cons] at hwrites
      obtain ⟨⟨env, buf, hi⟩, hrest⟩ := hwrites
      rw [Cleared, hi]
      exact fun h => h.elim id (ih hrest _)

theorem serially_cons (k : Kernel) (i : ι) (order : List ι) :
    serially call k (i :: order) = ((call i).apply k).bind fun k' => serially call k' order := rfl

theorem serially_contents {slots : Vector BufferEntry 10} {unset : Unset} {k : Kernel}
    {order : List ι} (reached : Reached (initModule slots unset) k)
    (hvalid : ∀ i, (call i).Valid) (hfit : FitAll call k.contents.lines order) :
    ∃ k', serially call k order = some k' ∧ Reached (initModule slots unset) k' ∧
      k'.contents = after call k.contents order := by
  induction order generalizing k with
  | nil => exact ⟨k, rfl, reached, rfl⟩
  | cons i order ih =>
      obtain ⟨hhead, hrest⟩ := hfit
      obtain ⟨k₁, happly, hact⟩ := FopsCall.apply_act reached.placed (hvalid i) hhead
      rw [← FopsCall.lines_act, ← hact] at hrest
      obtain ⟨k', hrun, hreached, hcontents⟩ :=
        ih (FopsCall.apply_reached reached hhead happly) hrest
      refine ⟨k', by rw [serially_cons, happly, Option.bind_some, hrun], hreached, ?_⟩
      rw [hcontents, hact]
      rfl

end Order

/-- The live lines, the indices and counters, the partial line and the pending seek. -/
structure DeviceState where
  live : List (List UInt8)
  inOffs : Nat
  outOffs : Nat
  full : Bool
  totalSize : Int
  partialLine : Option (List UInt8)
  pendingSeek : Option Int
  deriving DecidableEq

def Kernel.state (k : Kernel) : DeviceState where
  live := k.dev.buffer.live.map fun e => e.text k.heap
  inOffs := k.dev.buffer.inOffs
  outOffs := k.dev.buffer.outOffs
  full := k.dev.buffer.full
  totalSize := k.dev.buffer.totalSize
  partialLine := if k.dev.isPartial then some (k.dev.partialEntry.text k.heap) else none
  pendingSeek := if k.dev.seek then some k.dev.seektoPosition else none

def Lines.Filled (l : Lines) : Prop := l.full = false → l.outOffs = 0

theorem Reached.filled {slots : Vector BufferEntry 10} {unset : Unset} {k : Kernel}
    (reached : Reached (initModule slots unset) k) : k.contents.lines.Filled := by
  obtain ⟨r, hm⟩ := reached.mirrors
  intro hfull
  exact hm.outOffs.trans (r.outOffs_zero (hm.full.symm.trans hfull))

theorem state_eq_contents {k : Kernel} (hfilled : k.contents.lines.Filled) : k.state =
    { live := (List.range (if k.contents.lines.full then maxWriteOperationsSupported
        else k.contents.lines.inOffs)).map fun i =>
          k.contents.lines.line ((k.contents.lines.outOffs + i) % maxWriteOperationsSupported)
      inOffs := k.contents.lines.inOffs
      outOffs := k.contents.lines.outOffs
      full := k.contents.lines.full
      totalSize := k.contents.lines.totalSize
      partialLine := k.contents.lines.pending
      pendingSeek := if k.contents.seek then some k.contents.position else none } := by
  have hlive : k.state.live = (List.range (if k.contents.lines.full then maxWriteOperationsSupported
        else k.contents.lines.inOffs)).map fun i =>
      k.contents.lines.line ((k.contents.lines.outOffs + i) % maxWriteOperationsSupported) := by
    rw [Kernel.state, CircularBuffer.live, List.map_map]
    refine List.map_congr_left fun i hi => ?_
    have hlt := List.mem_range.mp hi
    have hused : k.dev.buffer.Used ((k.dev.buffer.outOffs + i) % maxWriteOperationsSupported) := by
      refine ⟨Nat.mod_lt _ (Nat.succ_pos 9), ?_⟩
      cases hfull : k.dev.buffer.full
      · have hzero : k.dev.buffer.outOffs = 0 := hfilled hfull
        rw [hfull, if_neg Bool.false_ne_true] at hlt
        rw [hzero, Nat.zero_add]
        exact Or.inr ((Nat.mod_le _ _).trans_lt hlt)
      · exact Or.inl rfl
    exact (if_pos hused).symm
  exact congrArg (fun live => { k.state with live := live }) hlive

theorem state_congr {k k' : Kernel} (hfilled : k.contents.lines.Filled) (hlines : k'.contents.lines = k.contents.lines)
    (hseek : k'.contents.seek = k.contents.seek)
    (hposition : k.contents.seek = true → k'.contents.position = k.contents.position) :
    k'.state = k.state := by
  have hfilled' : k'.contents.lines.Filled := by
    rw [hlines]
    exact hfilled
  rw [state_eq_contents hfilled, state_eq_contents hfilled', hlines, hseek]
  congr 1
  split
  · rename_i hset
    rw [hposition hset]
  · rfl

theorem Reached.state {slots : Vector BufferEntry 10} {unset : Unset} {k : Kernel}
    (reached : Reached (initModule slots unset) k) :
    k.state.totalSize = (k.state.live.map List.length).sum ∧
      (k.state.full = true → k.state.inOffs = k.state.outOffs) := by
  obtain ⟨r, hm⟩ := reached.mirrors
  have hlive : k.state.live.map List.length = r.live.map BufferEntry.size := by
    rw [Kernel.state, hm.live, List.map_map]
    exact List.map_congr_left fun e _ => BufferEntry.length_text _ _
  have hall : ∀ n ∈ r.live.map BufferEntry.size, n ≤ kmallocBound := by
    intro n hn
    obtain ⟨e, he, rfl⟩ := List.mem_map.mp hn
    obtain ⟨j, hj, rfl⟩ := List.getElem_of_mem he
    have hused := hm.used_place (show j < r.count by simpa using hj)
    rw [RingBuffer.getElem_live, ← hm.slot]
    exact (reached.placed.slot _ ⟨(r.place j).isLt, hused⟩).2.le
  have hsum := List.sum_le_card_nsmul _ _ hall
  have hten : r.count * kmallocBound ≤ 10 * kmallocBound := Nat.mul_le_mul_right _ r.count_le
  rw [List.length_map, RingBuffer.length_live, Nat.nsmul_eq_mul] at hsum
  unfold kmallocBound at hsum hten
  constructor
  · rw [hlive]
    exact hm.totalSize.trans (toSsize_of_lt (by omega))
  · intro hfull
    show k.dev.buffer.inOffs = k.dev.buffer.outOffs
    rw [hm.inOffs, hm.outOffs]
    exact r.offs_eq (hm.full.symm.trans hfull)

end Aesd

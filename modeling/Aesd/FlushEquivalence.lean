import Aesd.DeviceSimulation
import Aesd.FilePositions
import Aesd.Lib.Replay
import Aesd.SeekCommand

/-! A flushed device against a new one. `aesd_flush` clears the indices and the counters and
leaves the slots as they are; the position that a seek command records is a sum over slots
which no index bounds, so it alone can tell the two devices apart. -/
namespace Aesd
open FixedWidth Memory Replay

/-- The calls of one client. A write, a seek command and a flush do not look at the position of
the file they are made on. -/
inductive FileCall (F : Type)
  | write (env : WriteEnv) (buf : List UInt8)
  | read (file : F) (env : ReadEnv) (ubuf : List UInt8) (count : Nat)
  | seekto (target : AesdSeekto)
  | flush

structure Returned where
  ret : Int
  delivered : List UInt8
  deriving DecidableEq

def CircularBuffer.inUse (b : CircularBuffer) : Nat :=
  if b.full then maxWriteOperationsSupported else b.inOffs

/-- The device with its open files. `rewritten` counts the slots, from the first one on, that
have been written since the files were opened. -/
structure Session (F : Type) extends OpenFiles F where
  rewritten : Nat

namespace Session
variable {F : Type}

def opened (k : Kernel) : Session F := ⟨⟨k, fun _ => 0⟩, 0⟩

def after (s : Session F) (k : Kernel) (fPos : F → Int) : Session F :=
  ⟨⟨k, fPos⟩, max s.rewritten k.dev.buffer.inUse⟩

end Session

namespace FileCall
variable {F : Type}

def apply [DecidableEq F] (s : Session F) : FileCall F → Option (Session F × Returned)
  | write env buf => (aesdWrite env s.kernel buf).map fun res =>
      (s.after res.kernel s.fPos, ⟨res.ret, []⟩)
  | read file env ubuf count => (aesdRead env s.kernel ubuf count (s.fPos file)).map fun res =>
      (s.after res.kernel (Function.update s.fPos file res.fPos),
        ⟨res.ret, res.ubuf.take res.ret.toNat⟩)
  | seekto target =>
      let r := aesdIoctl s.kernel iocSeekto (some target)
      some (s.after r.1 s.fPos, ⟨r.2, []⟩)
  | flush =>
      let r := aesdIoctl s.kernel iocFlush none
      some (s.after r.1 s.fPos, ⟨r.2, []⟩)

/-- No line is longer than an allocation can be, and every write has a byte to look at. -/
def Fits (s : Session F) : FileCall F → Prop
  | write _ buf => buf.length + s.kernel.dev.pendingSize < kmallocBound ∧
      0 < buf.length + s.kernel.dev.pendingSize
  | _ => True

/-- The slots that a seek command adds up have been written since the files were opened, or are
empty. -/
def PassesNothingOld (s : Session F) : FileCall F → Prop
  | seekto target => ∀ i, s.rewritten ≤ i → i < target.writeCmd →
      (s.kernel.dev.buffer.slot i).size = 0
  | _ => True

/-- A read that starts in the data copies nothing from outside the entries, and the sizes of all
ten slots, added up in 64 bits, reach beyond its position unless that is 0. -/
def ReadsData (s : Session F) : FileCall F → Prop
  | read file _ _ count =>
      let p := readPosition s.kernel.dev (s.fPos file)
      s.fPos file < s.kernel.dev.buffer.totalSize → p < s.kernel.dev.buffer.totalSize →
        (p = 0 ∨ p < (s.kernel.dev.buffer.slotSizes.sum % 2 ^ 64 : Nat)) ∧
          ReadInside s.kernel count (s.fPos file)
  | _ => True

/-- The same call in two runs, with no failing kernel call and arguments of their types. What the
fresh blocks of a call contain may differ. -/
inductive Same : FileCall F → FileCall F → Prop
  | write {env env' : WriteEnv} (hs : env.Succeeds) (hs' : env'.Succeeds) (buf : List UInt8) :
      Same (.write env buf) (.write env' buf)
  | read (file : F) {env env' : ReadEnv} (hs : env.Succeeds) (hs' : env'.Succeeds)
      (ubuf : List UInt8) {count : Nat} (hcount : count < kmallocBound) :
      Same (.read file env ubuf count) (.read file env' ubuf count)
  | seekto {target : AesdSeekto} (hcmd : target.writeCmd ≤ 10)
      (hoffset : target.writeCmdOffset < 2 ^ 32) : Same (.seekto target) (.seekto target)
  | flush : Same .flush .flush

end FileCall

def Indistinguishable {F : Type} [DecidableEq F] (k k' : Kernel) (calls calls' : List (FileCall F)) :
    Prop :=
  ∃ t t', replay FileCall.apply (.opened k) calls = some t ∧
    replay FileCall.apply (.opened k') calls' = some t' ∧ t'.2 = t.2

theorem slot_size_add {k k₁ : Kernel} {text : List UInt8}
    (hlines : k₁.contents.lines = k.contents.lines.add text) (i : Nat) :
    (k₁.dev.buffer.slot i).size =
      if i = k.dev.buffer.inOffs then text.length else (k.dev.buffer.slot i).size := by
  rw [← length_line_contents, hlines, Lines.line_add, apply_ite List.length, length_line_contents]
  rfl

theorem inUse_add {k k₁ : Kernel} {text : List UInt8}
    (hlines : k₁.contents.lines = k.contents.lines.add text) :
    k₁.dev.buffer.inUse = if k.dev.buffer.full then 10 else k.dev.buffer.inOffs + 1 := by
  have hfull₁ : k₁.dev.buffer.full = (k.contents.lines.add text).full := congrArg Lines.full hlines
  have hin₁ : k₁.dev.buffer.inOffs = (k.contents.lines.add text).inOffs :=
    congrArg Lines.inOffs hlines
  rw [CircularBuffer.inUse, hfull₁, hin₁, Lines.add]
  by_cases hfull : k.dev.buffer.full = true
  · have hwas : k.contents.lines.full = true := hfull
    rw [if_pos hwas, if_pos hfull]
    exact if_pos hwas
  · have hwas : ¬ k.contents.lines.full = true := hfull
    have hin : k.contents.lines.inOffs = k.dev.buffer.inOffs := rfl
    rw [if_neg hwas, if_neg hfull]
    dsimp only
    rw [hin, CircularBuffer.advance]
    by_cases hlast : k.dev.buffer.inOffs + 1 = maxWriteOperationsSupported
    · rw [if_pos hlast, if_pos rfl, hlast]
    · rw [if_neg hlast, if_neg hwas, if_neg hlast]

structure Resumes {F : Type} (s s' : Session F) : Prop where
  agree : s.kernel.contents.lines.Agree s'.kernel.contents.lines
  placed : Placed s.kernel
  placed' : Placed s'.kernel
  ring : ∃ r, Mirrors s.kernel.dev.buffer r
  ring' : ∃ r, Mirrors s'.kernel.dev.buffer r
  goesOn : ¬ EndsLine (s.kernel.contents.lines.pending.getD [])
  rewritten : ∀ i < s.rewritten,
    (s'.kernel.dev.buffer.slot i).size = (s.kernel.dev.buffer.slot i).size
  blank : ∀ i, s.rewritten ≤ i → (s'.kernel.dev.buffer.slot i).size = 0
  small : ∀ i, (s'.kernel.dev.buffer.slot i).size < kmallocBound
  inUse_le : s.kernel.dev.buffer.inUse ≤ s.rewritten
  fPos : s'.fPos = s.fPos
  fPos_nonneg : ∀ file, 0 ≤ s.fPos file
  seek : s'.kernel.dev.seek = s.kernel.dev.seek
  target : s.kernel.dev.seek = true →
    s'.kernel.dev.seektoPosition = s.kernel.dev.seektoPosition ∧ 0 ≤ s.kernel.dev.seektoPosition

namespace Resumes
variable {F : Type} {s s' : Session F}

theorem keep (q : Resumes s s') {k k' : Kernel} (agree : k.contents.lines.Agree k'.contents.lines)
    (placed : Placed k) (placed' : Placed k') (ring : ∃ r, Mirrors k.dev.buffer r)
    (ring' : ∃ r, Mirrors k'.dev.buffer r)
    (goesOn : ¬ EndsLine (k.contents.lines.pending.getD []))
    (hslot : ∀ i, (k.dev.buffer.slot i).size = (s.kernel.dev.buffer.slot i).size)
    (hslot' : ∀ i, (k'.dev.buffer.slot i).size = (s'.kernel.dev.buffer.slot i).size)
    (hin : k.dev.buffer.inUse ≤ s.rewritten) {fPos : F → Int} (h0 : ∀ file, 0 ≤ fPos file)
    (hseek : k'.dev.seek = k.dev.seek)
    (htarget : k.dev.seek = true →
      k'.dev.seektoPosition = k.dev.seektoPosition ∧ 0 ≤ k.dev.seektoPosition) :
    Resumes (s.after k fPos) (s'.after k' fPos) := by
  have hmax : (s.after k fPos).rewritten = s.rewritten := Nat.max_eq_left hin
  refine ⟨agree, placed, placed', ring, ring', goesOn, fun i hi => ?_, fun i hi => ?_, fun i => ?_,
    Nat.le_max_right _ _, rfl, h0, hseek, htarget⟩
  · rw [hmax] at hi
    exact (hslot' i).trans ((q.rewritten i hi).trans (hslot i).symm)
  · rw [hmax] at hi
    exact (hslot' i).trans (q.blank i hi)
  · exact (hslot' i).trans_lt (q.small i)

theorem add (q : Resumes s s') {k k' : Kernel} {text : List UInt8} (hsize : text.length < kmallocBound)
    (hlines : k.contents.lines = s.kernel.contents.lines.add text)
    (hlines' : k'.contents.lines = s'.kernel.contents.lines.add text)
    (placed : Placed k) (placed' : Placed k') (ring : ∃ r, Mirrors k.dev.buffer r)
    (ring' : ∃ r, Mirrors k'.dev.buffer r) (hseek : k.dev.seek = s.kernel.dev.seek)
    (hseek' : k'.dev.seek = s'.kernel.dev.seek)
    (htarget : k.dev.seektoPosition = s.kernel.dev.seektoPosition)
    (htarget' : k'.dev.seektoPosition = s'.kernel.dev.seektoPosition) :
    Resumes (s.after k s.fPos) (s'.after k' s.fPos) := by
  have hinOffs : s'.kernel.dev.buffer.inOffs = s.kernel.dev.buffer.inOffs := q.agree.inOffs
  have hslot := slot_size_add hlines
  have hslot' := slot_size_add hlines'
  rw [hinOffs] at hslot'
  have hmax : (s.after k s.fPos).rewritten =
      max s.rewritten (if s.kernel.dev.buffer.full then 10 else s.kernel.dev.buffer.inOffs + 1) := by
    rw [Session.after, inUse_add hlines]
  have hin := q.placed.inOffs_lt
  have hused := q.inUse_le
  unfold CircularBuffer.inUse maxWriteOperationsSupported at hused
  have hlast : s.kernel.dev.buffer.inOffs < (s.after k s.fPos).rewritten := by
    rw [hmax]
    split <;> omega
  have hold : ∀ i < (s.after k s.fPos).rewritten, i ≠ s.kernel.dev.buffer.inOffs →
      i < s.rewritten := by
    intro i hi hne
    rw [hmax] at hi
    split at hi <;> rename_i hfull
    · rw [if_pos hfull] at hused
      omega
    · rw [if_neg hfull] at hused
      omega
  refine ⟨?_, placed, placed', ring, ring', ?_, fun i hi => ?_, fun i hi => ?_, fun i => ?_,
    Nat.le_max_right _ _, rfl, q.fPos_nonneg, hseek'.trans (q.seek.trans hseek.symm), fun hset => ?_⟩
  · show k.contents.lines.Agree k'.contents.lines
    rw [hlines, hlines']
    exact q.agree.add hin text
  · show ¬ EndsLine (k.contents.lines.pending.getD [])
    rw [hlines, Lines.pending_add]
    exact (by decide : ¬ EndsLine [])
  · show (k'.dev.buffer.slot i).size = (k.dev.buffer.slot i).size
    rw [hslot, hslot']
    split
    · rfl
    · rename_i hne
      exact q.rewritten i (hold i hi hne)
  · show (k'.dev.buffer.slot i).size = 0
    rw [hslot', if_neg (by omega)]
    exact q.blank i ((Nat.le_max_left _ _).trans hi)
  · show (k'.dev.buffer.slot i).size < kmallocBound
    rw [hslot']
    split
    · exact hsize
    · exact q.small i
  · show k'.dev.seektoPosition = k.dev.seektoPosition ∧ 0 ≤ k.dev.seektoPosition
    rw [htarget, htarget']
    exact q.target (hseek.symm.trans hset)

variable [DecidableEq F] {c c' : FileCall F}

theorem ring_write {k : Kernel} {env : WriteEnv} {buf : List UInt8} {res : WriteResult}
    (hunlocked : k.dev.mutex = false) (hring : ∃ r, Mirrors k.dev.buffer r)
    (hcall : aesdWrite env k buf = some res) : ∃ r, Mirrors res.kernel.dev.buffer r := by
  obtain ⟨r, hm⟩ := hring
  rw [aesdWrite_added hunlocked hcall]
  cases res.added with
  | none => exact ⟨r, hm⟩
  | some e => exact ⟨r.push e, hm.addEntry e⟩

theorem write (q : Resumes s s') {env env' : WriteEnv} (hs : env.Succeeds) (hs' : env'.Succeeds)
    (buf : List UInt8) (hfits : FileCall.Fits s (.write env buf)) :
    ∃ r r', FileCall.apply s (.write env buf) = some r ∧
      FileCall.apply s' (.write env' buf) = some r' ∧ r'.2 = r.2 ∧ Resumes r.1 r'.1 := by
  obtain ⟨hsize, hpos⟩ := hfits
  have hpending : s'.kernel.dev.pendingSize = s.kernel.dev.pendingSize := by
    rw [← pendingSize_contents, ← pendingSize_contents, q.agree.pending]
  have htakes : s.kernel.contents.lines.Takes buf := by
    by_cases hne : buf = []
    · refine Or.inr ⟨fun hnil => ?_, q.goesOn⟩
      rw [← pendingSize_contents, hnil, hne] at hpos
      exact absurd hpos (Nat.lt_irrefl 0)
    · exact Or.inl hne
  have htakes' : s'.kernel.contents.lines.Takes buf := by
    rw [Lines.Takes, q.agree.pending]
    exact htakes
  obtain ⟨res, hcall, hcontents, placed, hret⟩ :=
    q.placed.write hs htakes (by rw [Nat.add_comm]; exact hsize)
  obtain ⟨res', hcall', hcontents', placed', hret'⟩ :=
    q.placed'.write hs' htakes' (by rw [hpending, Nat.add_comm]; exact hsize)
  have ring := ring_write q.placed.unlocked q.ring hcall
  have ring' := ring_write q.placed'.unlocked q.ring' hcall'
  have hlines : res.kernel.contents.lines = s.kernel.contents.lines.write buf :=
    congrArg Contents.lines hcontents
  have hlines' : res'.kernel.contents.lines = s'.kernel.contents.lines.write buf :=
    congrArg Contents.lines hcontents'
  have hseek : res.kernel.dev.seek = s.kernel.dev.seek := congrArg Contents.seek hcontents
  have hseek' : res'.kernel.dev.seek = s'.kernel.dev.seek := congrArg Contents.seek hcontents'
  have htarget : res.kernel.dev.seektoPosition = s.kernel.dev.seektoPosition :=
    congrArg Contents.position hcontents
  have htarget' : res'.kernel.dev.seektoPosition = s'.kernel.dev.seektoPosition :=
    congrArg Contents.position hcontents'
  refine ⟨(s.after res.kernel s.fPos, ⟨res.ret, []⟩), (s'.after res'.kernel s'.fPos, ⟨res'.ret, []⟩),
    by rw [FileCall.apply, hcall]; rfl, by rw [FileCall.apply, hcall']; rfl, by rw [hret, hret'], ?_⟩
  rw [q.fPos]
  by_cases hends : EndsLine buf
  · rw [Lines.write, if_pos hends] at hlines hlines'
    rw [q.agree.pending] at hlines'
    refine q.add ?_ hlines hlines' placed placed' ring ring' hseek hseek' htarget htarget'
    rw [List.length_append, pendingSize_contents]
    omega
  · have hopen : ∀ {k k₁ : Kernel}, k₁.contents.lines = k.contents.lines.write buf →
        (∀ i, (k₁.dev.buffer.slot i).size = (k.dev.buffer.slot i).size) ∧
          k₁.dev.buffer.inUse = k.dev.buffer.inUse ∧
          k₁.contents.lines.pending.getD [] = k.contents.lines.pending.getD [] ++ buf := by
      intro k k₁ h
      rw [Lines.write, if_neg hends] at h
      refine ⟨fun i => ?_, ?_, ?_⟩
      · rw [← length_line_contents, h, length_line_contents]
      · have hfull : k₁.dev.buffer.full = k.dev.buffer.full := congrArg Lines.full h
        have hin : k₁.dev.buffer.inOffs = k.dev.buffer.inOffs := congrArg Lines.inOffs h
        rw [CircularBuffer.inUse, CircularBuffer.inUse, hfull, hin]
      · rw [h]
        rfl
    obtain ⟨hslot, hinUse, hpend⟩ := hopen hlines
    obtain ⟨hslot', -, -⟩ := hopen hlines'
    refine q.keep ?_ placed placed' ring ring' ?_ hslot hslot' (hinUse.trans_le q.inUse_le)
      q.fPos_nonneg (by rw [hseek, hseek', q.seek]) fun hset => ?_
    · rw [hlines, hlines']
      exact q.agree.write q.placed.inOffs_lt buf
    · rw [hpend, EndsLine, List.getLast?_eq_some_getLast htakes.ne_nil, Option.some.injEq,
        ← htakes.endsLine_iff]
      exact hends
    · rw [htarget, htarget']
      exact q.target (hseek.symm.trans hset)

omit [DecidableEq F] in
theorem readPosition (q : Resumes s s') (file : F) :
    Aesd.readPosition s'.kernel.dev (s.fPos file) = Aesd.readPosition s.kernel.dev (s.fPos file) ∧
      0 ≤ Aesd.readPosition s.kernel.dev (s.fPos file) := by
  rw [Aesd.readPosition, Aesd.readPosition, q.seek]
  split
  · rename_i hset
    exact q.target hset
  · exact ⟨rfl, q.fPos_nonneg file⟩

omit [DecidableEq F] in
theorem guard (q : Resumes s s') {p : Int} (hp : p < s.kernel.dev.buffer.totalSize) :
    p < (s'.kernel.dev.buffer.totalChars : Int) := by
  obtain ⟨r', hm'⟩ := q.ring'
  have htotal : s'.kernel.dev.buffer.totalSize = s.kernel.dev.buffer.totalSize := q.agree.totalSize
  obtain ⟨total, heq, hsum, -⟩ := hm'.totalSize_le q.placed'.settled
  have hslots := sum_slots_le r' fun i => by
    rw [← hm'.slot]
    exact (q.small i).le
  have hlive := r'.sum_live_le BufferEntry.size
  rw [hm'.totalChars_eq_sum (hslots.trans_lt (by decide))]
  unfold sizes at hsum
  omega

theorem read (q : Resumes s s') (file : F) {env env' : ReadEnv} (hs : env.Succeeds)
    (hs' : env'.Succeeds) (ubuf : List UInt8) {count : Nat} (hcount : count < kmallocBound)
    (hreads : FileCall.ReadsData s (.read file env ubuf count)) :
    ∃ r r', FileCall.apply s (.read file env ubuf count) = some r ∧
      FileCall.apply s' (.read file env' ubuf count) = some r' ∧ r'.2 = r.2 ∧ Resumes r.1 r'.1 := by
  obtain ⟨r, hm⟩ := q.ring
  obtain ⟨r', hm'⟩ := q.ring'
  obtain ⟨hpos, h0⟩ := q.readPosition file
  have hfile : -2 ^ 63 ≤ s.fPos file := by
    have hge := q.fPos_nonneg file
    omega
  obtain ⟨res, res', hcall, hcall', alike⟩ := aesdRead_alike q.agree q.placed q.placed' hs hs' hcount
    hfile hpos (fun hlt hin => q.agree.starts q.placed.settled
      q.placed'.settled hm hm' h0 hin (by
        rw [CircularBuffer.totalChars_eq_mod]
        exact (hreads hlt hin).1) (Or.inr (q.guard hin)))
    (fun hlt hin => (hreads hlt hin).2) ubuf ubuf
  obtain ⟨_, hsame, hcontents, placed, hdev, -⟩ :=
    q.placed.read hs.toAllocates hcount hfile ubuf
  obtain ⟨_, hsame', hcontents', placed', hdev', -⟩ :=
    q.placed'.read hs'.toAllocates hcount hfile ubuf
  rw [hcall, Option.some.injEq] at hsame
  rw [hcall', Option.some.injEq] at hsame'
  subst hsame hsame'
  refine ⟨(s.after res.kernel (Function.update s.fPos file res.fPos),
      ⟨res.ret, res.ubuf.take res.ret.toNat⟩),
    (s'.after res'.kernel (Function.update s'.fPos file res'.fPos),
      ⟨res'.ret, res'.ubuf.take res'.ret.toNat⟩), by rw [FileCall.apply, hcall]; rfl,
    by rw [FileCall.apply, q.fPos, hcall']; rfl, by rw [alike.ret, alike.delivered], ?_⟩
  have hlines : res.kernel.contents.lines = s.kernel.contents.lines := by rw [hcontents]; rfl
  have hlines' : res'.kernel.contents.lines = s'.kernel.contents.lines := by rw [hcontents']; rfl
  have htotal : s'.kernel.dev.buffer.totalSize = s.kernel.dev.buffer.totalSize := q.agree.totalSize
  have hgiven : res'.kernel.dev.seek = res.kernel.dev.seek := by
    rw [(aesdRead_dev q.placed.unlocked hcall).2, (aesdRead_dev q.placed'.unlocked hcall').2, q.seek,
      htotal]
  rw [q.fPos, alike.fPos]
  refine q.keep ?_ placed placed' ⟨r, by rw [hdev]; exact hm⟩ ⟨r', by rw [hdev']; exact hm'⟩ ?_
    (fun i => by rw [hdev]) (fun i => by rw [hdev']) (by rw [hdev]; exact q.inUse_le) (fun f => ?_)
    hgiven fun hset => ?_
  · rw [hlines, hlines']
    exact q.agree
  · rw [hlines]
    exact q.goesOn
  · rw [Function.update_apply]
    split
    · obtain ⟨total, htotal, -, hle⟩ := hm.totalSize_le q.placed.settled
      have hleft := q.placed.read_fPos hs.toAllocates hcount (by omega) (by omega) hcall
      omega
    · exact q.fPos_nonneg f
  · rw [hdev] at hset
    rw [hdev, hdev']
    exact q.target (Bool.and_eq_true_iff.mp hset).1

theorem seekto (q : Resumes s s') {target : AesdSeekto} (hcmd : target.writeCmd ≤ 10)
    (hoffset : target.writeCmdOffset < 2 ^ 32)
    (hold : FileCall.PassesNothingOld s (.seekto target)) :
    ∃ r r', FileCall.apply s (.seekto target) = some r ∧
      FileCall.apply s' (.seekto target) = some r' ∧ r'.2 = r.2 ∧ Resumes r.1 r'.1 := by
  refine ⟨_, _, rfl, rfl, by rw [aesdIoctl_seekto, aesdIoctl_seekto]; rfl, ?_⟩
  have hsame : slotBytes s'.kernel.dev.buffer target.writeCmd =
      slotBytes s.kernel.dev.buffer target.writeCmd := slotBytes_congr fun i hi => by
    by_cases hnew : i < s.rewritten
    · exact q.rewritten i hnew
    · rw [q.blank i (Nat.le_of_not_lt hnew), hold i (Nat.le_of_not_lt hnew) hi]
  have hbytes := slotBytes_le (b := s'.kernel.dev.buffer) (c := target.writeCmd)
    fun i _ => (q.small i).le
  have hten : target.writeCmd * kmallocBound ≤ 10 * kmallocBound := Nat.mul_le_mul_right _ hcmd
  have htarget : seektoTarget s.kernel.dev target =
      (slotBytes s.kernel.dev.buffer target.writeCmd + target.writeCmdOffset : Nat) := by
    unfold kmallocBound at hbytes hten
    rw [seektoTarget_eq _ hcmd, toSsize_of_lt (by omega)]
  have htarget' : seektoTarget s'.kernel.dev target = seektoTarget s.kernel.dev target := by
    rw [seektoTarget_eq _ hcmd, seektoTarget_eq _ hcmd, hsame]
  have hlines := congrArg Contents.lines (contents_seekto s.kernel target)
  have hlines' := congrArg Contents.lines (contents_seekto s'.kernel target)
  dsimp only
  rw [q.fPos, aesdIoctl_seekto, aesdIoctl_seekto]
  refine q.keep ?_ (q.placed.seektoIoctl target) (q.placed'.seektoIoctl target) q.ring q.ring' ?_
    (fun _ => rfl) (fun _ => rfl) q.inUse_le q.fPos_nonneg rfl fun _ => ⟨htarget', ?_⟩
  · rw [hlines, hlines']
    exact q.agree
  · rw [hlines]
    exact q.goesOn
  · show 0 ≤ seektoTarget s.kernel.dev target
    rw [htarget]
    exact Int.natCast_nonneg _

theorem flush (q : Resumes s s') :
    ∃ r r', FileCall.apply s .flush = some r ∧ FileCall.apply s' .flush = some r' ∧ r'.2 = r.2 ∧
      Resumes r.1 r'.1 := by
  refine ⟨_, _, rfl, rfl, by rw [aesdIoctl_flush, aesdIoctl_flush]; rfl, ?_⟩
  obtain ⟨r, hm⟩ := q.ring
  obtain ⟨r', hm'⟩ := q.ring'
  have hlines := congrArg Contents.lines (contents_flush q.placed)
  have hlines' := congrArg Contents.lines (contents_flush q.placed')
  dsimp only
  rw [q.fPos, aesdIoctl_flush, aesdIoctl_flush]
  refine q.keep ?_ (placed_of_loaded (aesdFlush_dev q.placed.unlocked))
    (placed_of_loaded (aesdFlush_dev q.placed'.unlocked)) ⟨r.reset, hm.reset⟩ ⟨r'.reset, hm'.reset⟩
    ?_ (fun _ => rfl) (fun _ => rfl) (Nat.zero_le _) q.fPos_nonneg rfl
    fun hset => absurd hset Bool.false_ne_true
  · rw [hlines, hlines']
    exact Lines.agree_of_flush _ _
  · rw [hlines]
    exact (by decide : ¬ EndsLine [])

theorem step (q : Resumes s s') (same : FileCall.Same c c')
    (hc : c.Fits s ∧ c.PassesNothingOld s ∧ c.ReadsData s) :
    ∃ r r', FileCall.apply s c = some r ∧ FileCall.apply s' c' = some r' ∧ r'.2 = r.2 ∧
      Resumes r.1 r'.1 := by
  cases same with
  | write hs hs' buf => exact q.write hs hs' buf hc.1
  | read file hs hs' ubuf hcount => exact q.read file hs hs' ubuf hcount hc.2.2
  | seekto hcmd hoffset => exact q.seekto hcmd hoffset hc.2.1
  | flush => exact q.flush

omit [DecidableEq F] in
theorem start {k k' : Kernel} {slots : Vector BufferEntry 10} {unset unset' : Unset}
    (hdev : k.dev = (initModule slots unset).dev)
    (hdev' : k'.dev = (initModule CircularBuffer.init.entry unset').dev) :
    Resumes (F := F) (.opened k) (.opened k') := by
  obtain ⟨dev, heap⟩ := k
  obtain ⟨dev', heap'⟩ := k'
  subst hdev hdev'
  have hblank : ∀ i, (CircularBuffer.init.slot i).size = 0 := fun i =>
    congrArg BufferEntry.size (CircularBuffer.slot_init i)
  exact ⟨⟨rfl, rfl, rfl, rfl, rfl, fun i hi => absurd hi.2 (by rintro (h | h) <;> cases h)⟩,
    placed_of_loaded rfl, placed_of_loaded rfl, ⟨_, .fresh slots⟩, ⟨_, .fresh _⟩,
    (by decide : ¬ EndsLine []), fun i hi => absurd hi (Nat.not_lt_zero i), fun i _ => hblank i,
    fun i => (hblank i).trans_lt (by decide), Nat.le_refl _, rfl, fun _ => Int.le_refl _, rfl,
    fun hset => absurd hset Bool.false_ne_true⟩

end Resumes

/-- A flushed device is a new one to every client whose seek commands add up no slot with an old
size and whose reads of the data copy nothing from outside the entries: from any state that a run
from the load of the module reaches, the calls behind a flush return the same values and deliver
the same bytes as on a device that `aesd_circular_buffer_init` has just zeroed, with no pending
line and no pending seek. -/
theorem flush_like_init {F : Type} [DecidableEq F] {slots : Vector BufferEntry 10} {unset : Unset}
    (k : Kernel) (reached : Reached (initModule slots unset) k) (fresh : Kernel) (unset' : Unset)
    (hfresh : fresh.dev = (initModule CircularBuffer.init.entry unset').dev)
    (calls calls' : List (FileCall F)) (same : List.Forall₂ FileCall.Same calls calls')
    (hclear : Throughout FileCall.apply
      (fun s c => c.Fits s ∧ c.PassesNothingOld s ∧ c.ReadsData s) (.opened (aesdFlush k).1)
      calls) :
    Indistinguishable (aesdFlush k).1 fresh calls calls' := by
  have start := Resumes.start (F := F) (aesdFlush_dev reached.settled.unlocked) hfresh
  obtain ⟨t, t', hrun, hrun', hshown, -⟩ := replay_agree Resumes FileCall.Same
    (fun s s' c c' q hsame hc => q.step hsame hc) start same hclear
  exact ⟨t, t', hrun, hrun', hshown⟩

def oneLine : Kernel := LogOp.run (initModule CircularBuffer.init.entry .zeroed) [.write .zeroed [97, 98, 10]]

theorem oneLine_reached : Reached (initModule CircularBuffer.init.entry .zeroed) oneLine := by
  obtain ⟨res, hcall⟩ := Option.isSome_iff_exists.mp (show (aesdWrite .zeroed
    (initModule CircularBuffer.init.entry .zeroed) [97, 98, 10]).isSome = true by decide +kernel)
  have heq : oneLine = res.kernel := by
    simp only [oneLine, LogOp.run, List.foldl_cons, List.foldl_nil, LogOp.apply, hcall,
      Option.map_some, Option.getD_some]
  rw [heq]
  exact .write .load (by decide) hcall

def readThree (b : UInt8) : FileCall Unit :=
  .read () { (ReadCall.zeroed 3).env with tmpBuf := some fun _ => b } [] 3

theorem flush_like_init_rewritten :
    Indistinguishable (aesdFlush oneLine).1 (initModule CircularBuffer.init.entry .zeroed)
      [.write .zeroed [99, 100, 10], readThree 0, .seekto ⟨1, 0⟩]
      [.write .zeroed [99, 100, 10], readThree 1, .seekto ⟨1, 0⟩] := by
  have hwritten : (FileCall.apply (.opened (aesdFlush oneLine).1)
      (.write .zeroed [99, 100, 10] : FileCall Unit)).map (fun r =>
        (r.1.fPos (), r.1.kernel.dev.seek)) = some (0, false) := by decide +kernel
  have hread : ((FileCall.apply (.opened (aesdFlush oneLine).1)
      (.write .zeroed [99, 100, 10] : FileCall Unit)).bind fun r =>
        FileCall.apply r.1 (readThree 0)).map (fun r => r.1.rewritten) = some 1 := by decide +kernel
  have hfits : ([99, 100, 10] : List UInt8).length + (aesdFlush oneLine).1.dev.pendingSize <
      kmallocBound := by decide +kernel
  refine flush_like_init oneLine oneLine_reached _ .zeroed rfl _ _
    (.cons (.write WriteEnv.zeroed_succeeds WriteEnv.zeroed_succeeds _) (.cons (.read ()
      ⟨⟨rfl, rfl, rfl⟩, rfl⟩ ⟨⟨rfl, rfl, rfl⟩, rfl⟩ [] (by decide)) (.cons (.seekto (by decide)
        (by decide)) .nil)))
    ⟨⟨⟨hfits, Nat.succ_pos _⟩, trivial, trivial⟩, fun r hr => ⟨⟨trivial, trivial, fun _ _ => ?_⟩,
      fun r' hr' => ⟨⟨trivial, fun i hi hlt => ?_, trivial⟩, fun _ _ => trivial⟩⟩⟩
  · rw [hr, Option.map_some, Option.some.injEq, Prod.mk.injEq] at hwritten
    have hpos : readPosition r.1.kernel.dev (r.1.fPos ()) = 0 := by
      rw [readPosition, hwritten.2, hwritten.1]
      rfl
    refine ⟨Or.inl hpos, fun _ p i off hp starts => Or.inl ?_⟩
    rw [CircularBuffer.Starts, if_pos (hp.trans hpos)] at starts
    exact starts.2
  · rw [hr, Option.bind_some, hr', Option.map_some, Option.some.injEq] at hread
    rw [hread] at hi
    dsimp only at hlt
    omega

/-- The seek command comes before the line: it adds up the size of the line that was flushed. -/
theorem flush_unlike_init_stale :
    ¬ Indistinguishable (aesdFlush oneLine).1 (initModule CircularBuffer.init.entry .zeroed)
      [.seekto ⟨1, 0⟩, .write .zeroed [99, 100, 10], readThree 0]
      [.seekto ⟨1, 0⟩, .write .zeroed [99, 100, 10], readThree 0] := by
  rintro ⟨t, t', hrun, hrun', hshown⟩
  have hflushed : (replay FileCall.apply (.opened (aesdFlush oneLine).1)
      [.seekto ⟨1, 0⟩, .write .zeroed [99, 100, 10], readThree 0]).map Prod.snd =
      some [⟨0, []⟩, ⟨3, []⟩, ⟨0, []⟩] := by decide +kernel
  have hfresh : (replay FileCall.apply (.opened (initModule CircularBuffer.init.entry .zeroed))
      [.seekto ⟨1, 0⟩, .write .zeroed [99, 100, 10], readThree 0]).map Prod.snd =
      some [⟨0, []⟩, ⟨3, []⟩, ⟨3, [99, 100, 10]⟩] := by decide +kernel
  rw [hrun, Option.map_some, Option.some.injEq] at hflushed
  rw [hrun', Option.map_some, Option.some.injEq, hshown, hflushed] at hfresh
  exact absurd hfresh (by decide)

end Aesd

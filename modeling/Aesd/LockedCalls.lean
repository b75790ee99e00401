import Aesd.LockedEffects

/-! Reads and writes that come between each other, each in the order of its locked region. The calls
that have been through theirs leave the device as `aesd_read` and `aesd_write` do, called one after the
other in that order. What a read returns is what it returns there, but for the tests of the mutex and
for the last test of the position, which sees the total that later calls have left. -/
namespace Aesd
open FixedWidth Memory Interleaving

section Outcomes
variable {ι : Type} (call : ι → FopsCall) (k₀ : Kernel) (order : List ι) (i : ι)

/-- What a read returns: the position, the return value and the user's buffer. `order` lists the calls
that have been through their locked regions. -/
inductive ReadOutcome (env : ReadEnv) (ubuf : List UInt8) (count : Nat) (fPos : Int) :
    Int → Int → List UInt8 → Prop
  | refused (unplaced : i ∉ order) : ReadOutcome env ubuf count fPos fPos (-ENOMEM) ubuf
  | pastEnd {before later : List ι} {k : Kernel} (place : order = before ++ i :: later)
      (serial : serially call k₀ before = some k) (ended : k.dev.buffer.totalSize ≤ fPos) :
      ReadOutcome env ubuf count fPos fPos 0 ubuf
  | contended {before later : List ι} {k : Kernel} (place : order = before ++ i :: later)
      (serial : serially call k₀ before = some k) (inside : fPos < k.dev.buffer.totalSize) :
      ReadOutcome env ubuf count fPos (readPosition k.dev fPos) (-ENOMEM) ubuf
  | served {before between later : List ι} {k k' : Kernel} {res : ReadResult} {pos ret : Int}
      {ubuf' : List UInt8} (place : order = before ++ i :: (between ++ later))
      (serial : serially call k₀ before = some k) (inside : fPos < k.dev.buffer.totalSize)
      (alone : aesdRead env k ubuf count fPos = some res)
      (serial' : serially call k₀ (before ++ i :: between) = some k')
      (answer : readAnswer env k count fPos k'.dev.buffer.totalSize = some (pos, ret))
      (same : (readPosition k.dev fPos < k'.dev.buffer.totalSize ↔
        readPosition k.dev fPos < k.dev.buffer.totalSize) → pos = res.fPos ∧ ret = res.ret)
      (bytes : ReadInside k count fPos → ubuf' = res.ubuf) :
      ReadOutcome env ubuf count fPos pos ret ubuf'

inductive WriteOutcome (buf : List UInt8) : Int → Prop
  | refused (unplaced : i ∉ order) : WriteOutcome buf (-ENOMEM)
  | contended (placed : i ∈ order) : WriteOutcome buf (-ENOMEM)
  | stored (placed : i ∈ order) : WriteOutcome buf buf.length

structure ReadSoFar (env : ReadEnv) (ubuf : List UInt8) (count : Nat) (fPos : Int)
    (before later : List ι) (k : Kernel) (res : ReadResult) (h : Heap) (c : ReadLocals) : Prop where
  place : order = before ++ i :: later
  serial : serially call k₀ before = some k
  inside : fPos < k.dev.buffer.totalSize
  alone : aesdRead env k ubuf count fPos = some res
  own : readAnswer env k count fPos k.dev.buffer.totalSize = some (res.fPos, res.ret)
  position : c.fPos = readPosition k.dev fPos
  answer : ∀ total, readAnswer env k count fPos total = some (if c.fPos < total then
    (toSsize (c.fPos + c.readCount), toSsize c.readCount) else (c.fPos, 0))
  bytes : ReadInside k count fPos →
    copyToUser h ubuf c.tmpBuf count env.uncopied = res.ubuf

def FreshBlock (env : ReadEnv) (h : Heap) (tmpBuf : Nat) : Prop :=
  ∃ init, env.tmpBuf = some init ∧ ∀ j, h.load tmpBuf j = init j

def ReadPastEnd (fPos : Int) : Prop :=
  ∃ before later k, order = before ++ i :: later ∧ serially call k₀ before = some k ∧
    k.dev.buffer.totalSize ≤ fPos

def ReadBehind (env : ReadEnv) (ubuf : List UInt8) (count : Nat) (fPos : Int) (h : Heap)
    (c : ReadLocals) : Prop :=
  ∃ before later k res, ReadSoFar call k₀ order i env ubuf count fPos before later k res h c

def ReadCarries (env : ReadEnv) (ubuf : List UInt8) (count : Nat) (fPos : Int) (h : Heap) :
    ReadPhase → Prop
  | .called => True
  | .prepared tmpBuf => FreshBlock env h tmpBuf
  | .admitted tmpBuf => FreshBlock env h tmpBuf
  | .locked tmpBuf => FreshBlock env h tmpBuf
  | .entered tmpBuf => FreshBlock env h tmpBuf
  | .pastEnd => ReadPastEnd call k₀ order i fPos
  | .dismissed => ReadPastEnd call k₀ order i fPos
  | .copied c => ReadBehind call k₀ order i env ubuf count fPos h c
  | .released c => ReadBehind call k₀ order i env ubuf count fPos h c
  | .checked c => ReadBehind call k₀ order i env ubuf count fPos h c
  | .returned pos ret ubuf' => ReadOutcome call k₀ order i env ubuf count fPos pos ret ubuf'

def WriteBehind (buf : List UInt8) (c : WriteCall) : Prop :=
  c.count = buf.length ∧ buf.length < kmallocBound ∧ i ∈ order

def WriteCarries (buf : List UInt8) (h : Heap) : WritePhase → Prop
  | .called => True
  | .prepared c => Prepared h c buf
  | .admitted c => Prepared h c buf
  | .locked c => Prepared h c buf
  | .entered c => Prepared h c buf
  | .written c => WriteBehind order i buf c
  | .released c => WriteBehind order i buf c
  | .checked c => WriteBehind order i buf c
  | .returned ret => WriteOutcome order i buf ret

def Carries (h : Heap) : LockingCall → LockingPhase → Prop
  | .read env ubuf count fPos, .read p => ReadCarries call k₀ order i env ubuf count fPos h p
  | .write _ buf, .write p => WriteCarries order i buf h p
  | _, _ => False

end Outcomes

/-! ### Steps of other calls -/

section Frame
variable {ι : Type} {call : ι → FopsCall} {k₀ : Kernel} {order : List ι} {i j : ι}
  {env : ReadEnv} {ubuf : List UInt8} {count : Nat} {fPos : Int} {h h' : Heap}

theorem ReadOutcome.append {pos ret : Int} {ubuf' : List UInt8} (hji : i ≠ j)
    (o : ReadOutcome call k₀ order i env ubuf count fPos pos ret ubuf') :
    ReadOutcome call k₀ (order ++ [j]) i env ubuf count fPos pos ret ubuf' := by
  cases o with
  | refused unplaced => exact .refused (by simp [unplaced, hji])
  | pastEnd place serial ended =>
      exact .pastEnd (by rw [place, List.append_assoc, List.cons_append]) serial ended
  | contended place serial inside =>
      exact .contended (by rw [place, List.append_assoc, List.cons_append]) serial inside
  | @served before between later _ _ _ _ _ _ place serial inside alone serial' answer same bytes =>
      have hplace : order ++ [j] = before ++ i :: (between ++ (later ++ [j])) := by
        rw [place, List.append_assoc, List.cons_append, List.append_assoc]
      exact .served hplace serial inside alone serial' answer same bytes

theorem WriteOutcome.append {buf : List UInt8} {ret : Int} (hji : i ≠ j)
    (o : WriteOutcome order i buf ret) : WriteOutcome (order ++ [j]) i buf ret := by
  cases o with
  | refused unplaced => exact .refused (by simp [unplaced, hji])
  | contended placed => exact .contended (List.mem_append_left _ placed)
  | stored placed => exact .stored (List.mem_append_left _ placed)

theorem ReadPastEnd.append (o : ReadPastEnd call k₀ order i fPos) :
    ReadPastEnd call k₀ (order ++ [j]) i fPos := by
  obtain ⟨before, later, k, place, rest⟩ := o
  exact ⟨before, later ++ [j], k, by rw [place, List.append_assoc, List.cons_append], rest⟩

theorem ReadBehind.append {c : ReadLocals} (o : ReadBehind call k₀ order i env ubuf count fPos h c) :
    ReadBehind call k₀ (order ++ [j]) i env ubuf count fPos h c := by
  obtain ⟨before, later, k, res, s⟩ := o
  exact ⟨before, later ++ [j], k, res,
    { s with place := by rw [s.place, List.append_assoc, List.cons_append] }⟩

theorem ReadBehind.of_load {c : ReadLocals} (o : ReadBehind call k₀ order i env ubuf count fPos h c)
    (hload : ∀ m, h'.load c.tmpBuf m = h.load c.tmpBuf m) :
    ReadBehind call k₀ order i env ubuf count fPos h' c := by
  obtain ⟨before, later, k, res, s⟩ := o
  refine ⟨before, later, k, res, { s with bytes := fun hin => ?_ }⟩
  rw [← s.bytes hin, copyToUser, copyToUser, Heap.bytesAt_congr fun _ _ => hload _]

theorem FreshBlock.of_load {tmpBuf : Nat} (o : FreshBlock env h tmpBuf)
    (hload : ∀ m, h'.load tmpBuf m = h.load tmpBuf m) : FreshBlock env h' tmpBuf := by
  obtain ⟨init, hinit, hbytes⟩ := o
  exact ⟨init, hinit, fun m => (hload m).trans (hbytes m)⟩

theorem Carries.append {c : LockingCall} {p : LockingPhase} (hji : i ≠ j)
    (o : Carries call k₀ order i h c p) : Carries call k₀ (order ++ [j]) i h c p := by
  cases c with
  | read env ubuf count fPos =>
      cases p with
      | write p => exact o.elim
      | read p =>
          cases p with
          | called | prepared tmpBuf | admitted tmpBuf | locked tmpBuf | entered tmpBuf => exact o
          | pastEnd | dismissed => exact ReadPastEnd.append o
          | copied c | released c | checked c => exact ReadBehind.append o
          | returned pos ret ubuf' => exact ReadOutcome.append hji o
  | write env buf =>
      cases p with
      | read p => exact o.elim
      | write p =>
          cases p with
          | called | prepared c | admitted c | locked c | entered c => exact o
          | written c | released c | checked c => exact ⟨o.1, o.2.1, List.mem_append_left _ o.2.2⟩
          | returned ret => exact WriteOutcome.append hji o

theorem Carries.of_load {c : LockingCall} {p : LockingPhase} (o : Carries call k₀ order i h c p)
    (hnext : h.next ≤ h'.next) (hload : ∀ q, p.Owns q → ∀ m, h'.load q m = h.load q m) :
    Carries call k₀ order i h' c p := by
  cases c with
  | read env ubuf count fPos =>
      cases p with
      | write p => exact o.elim
      | read p =>
          cases p with
          | called | pastEnd | dismissed | returned pos ret ubuf' => exact o
          | prepared tmpBuf | admitted tmpBuf | locked tmpBuf | entered tmpBuf =>
              exact FreshBlock.of_load o (hload tmpBuf rfl)
          | copied c | released c | checked c => exact ReadBehind.of_load o (hload c.tmpBuf rfl)
  | write env buf =>
      cases p with
      | read p => exact o.elim
      | write p =>
          cases p with
          | called | written c | released c | checked c | returned ret => exact o
          | prepared c | admitted c | locked c | entered c =>
              exact Prepared.of_load o hnext (hload c.data ⟨c, rfl, Or.inl rfl⟩)

end Frame

/-! ### Steps of the call itself -/

theorem serially_append_singleton {ι : Type} {call : ι → FopsCall} (k : Kernel) (order : List ι)
    (i : ι) : serially call k (order ++ [i]) =
      (serially call k order).bind fun k' => (call i).apply k' := by
  simp [serially]

section Own
variable {ι : Type} {call : ι → FopsCall} {k₀ k k₁ : Kernel} {order : List ι} {i : ι}

theorem readStart_of_contents (pl : Placed k.mutexUnlock) (pl₁ : Placed k₁)
    (hsame : k₁.contents = k.contents) {fPos : Int} (h0 : -2 ^ 63 ≤ fPos)
    (hin : fPos < k.dev.buffer.totalSize) :
    readPosition k₁.dev fPos = readPosition k.dev fPos ∧ ∀ stale,
      readStart stale k₁.dev.buffer (readPosition k.dev fPos) =
        readStart stale k.dev.buffer (readPosition k.dev fPos) := by
  have hposition : readPosition k₁.dev fPos = readPosition k.dev fPos := by
    have hseek : k₁.dev.seek = k.dev.seek := congrArg Contents.seek hsame
    have hstored : k₁.dev.seektoPosition = k.dev.seektoPosition := congrArg Contents.position hsame
    rw [readPosition, readPosition, hseek, hstored]
  obtain ⟨hlow, hhigh⟩ := pl.settled.readPosition_range h0 hin
  refine ⟨hposition, fun stale => ?_⟩
  obtain ⟨index, off, hstart, -⟩ :=
    readStart_inside stale k.dev.buffer pl.settled.outOffs_lt hlow hhigh
  obtain ⟨index₁, off₁, hstart₁, -⟩ :=
    readStart_inside stale k₁.dev.buffer pl₁.settled.outOffs_lt hlow hhigh
  have hlines := congrArg Contents.lines hsame
  have hsize : ∀ i, (k₁.dev.buffer.slot i).size = (k.dev.buffer.slot i).size := by
    intro i
    rw [← length_line_contents k₁, hlines, length_line_contents]
  have hout : k₁.dev.buffer.outOffs = k.dev.buffer.outOffs := congrArg Lines.outOffs hlines
  have starts := (CircularBuffer.starts_congr hout hsize _ index₁ off₁).mp
    (starts_of_readStart pl₁.settled.outOffs_lt hlow hhigh hstart₁)
  obtain ⟨rfl, rfl⟩ := starts.unique (starts_of_readStart pl.settled.outOffs_lt hlow hhigh hstart)
  exact hstart₁.trans hstart.symm

/-- The locked region of a read finds the device as the calls before it leave it. -/
theorem readCarries_entered {env : ReadEnv} {ubuf : List UInt8} {count : Nat} {fPos : Int}
    (hv : (FopsCall.read env ubuf count fPos).Valid) (pl : Placed k.mutexUnlock) (pl₁ : Placed k₁)
    (hserial : serially call k₀ order = some k₁) (hsame : k₁.contents = k.contents) {tmpBuf : Nat}
    (hdata : tmpBuf < k.heap.next) (hapart : ¬ PointsAt k.dev tmpBuf)
    (hfresh : FreshBlock env k.heap tmpBuf) {r : Kernel × ReadPhase}
    (hstep : readStep env ubuf count fPos k (.entered tmpBuf) = some r) :
    ReadCarries call k₀ (order ++ [i]) i env ubuf count fPos r.1.heap r.2 := by
  obtain ⟨ha, hcount, h0⟩ := hv
  have hlines := congrArg Contents.lines hsame
  have agree : k.mutexUnlock.contents.lines.Agree k₁.contents.lines := .of_eq hlines
  have htotal : k₁.dev.buffer.totalSize = k.dev.buffer.totalSize := congrArg Lines.totalSize hlines
  by_cases hin : fPos < k.dev.buffer.totalSize
  · obtain ⟨index, off, heap, byteOffset, hstart, hsection, -, -, hcopied⟩ :=
      readSection_answers pl ha hcount h0 hin hdata hapart
    have hin₁ : fPos < k₁.dev.buffer.totalSize := by rw [htotal]; exact hin
    obtain ⟨index₁, off₁, res, hstart₁, hindex, -, halone, -, hown, hbytes⟩ :=
      aesdRead_answers pl₁ ha hcount h0 hin₁ ubuf
    obtain ⟨hposition, hsamestart⟩ := readStart_of_contents pl pl₁ hsame h0 hin
    obtain ⟨hlow, hhigh⟩ := pl₁.settled.readPosition_range h0 hin₁
    obtain ⟨rfl, rfl⟩ : index₁ = index ∧ off₁ = off := by
      rw [hposition, hsamestart, hstart, Option.some.injEq, Prod.mk.injEq] at hstart₁
      exact ⟨hstart₁.1.symm, hstart₁.2.symm⟩
    have hsizes : readSizes k₁.dev.buffer index₁ = readSizes k.dev.buffer index₁ :=
      agree.readSizes pl.settled hindex
    have hover : handedOver k₁ count index₁ off₁ = handedOver k count index₁ off₁ :=
      agree.handedOver pl.settled hindex count off₁
    rw [readStep, hsection] at hstep
    cases hstep
    refine ⟨order, [], k₁, res, rfl, hserial, hin₁, halone, hown, hposition.symm, fun total => ?_,
      fun hinside => ?_⟩
    · rw [readAnswer, hstart₁, Option.map_some, hsizes, hposition]
    · have hfree := hinside.faultless pl₁.settled hlow hhigh hstart₁
      obtain ⟨init, hinit, hload⟩ := hfresh
      obtain ⟨init₁, heap₁, data, hinit₁, hcopied₁, hubuf⟩ := hbytes hfree
      obtain rfl := Option.some.inj (hinit.symm.trans hinit₁)
      rw [hsizes] at hfree
      rw [hsizes, hover] at hcopied₁
      rw [hubuf, copyToUser, copyToUser, hcopied₁.bytesAt_eq (hcopied hfree init hload)]
  · have hend : k.dev.buffer.totalSize ≤ fPos := Int.not_lt.mp hin
    rw [readStep, readSection, if_pos hend] at hstep
    cases hstep
    exact ⟨order, [], k₁, rfl, hserial, by rw [htotal]; exact hend⟩

theorem readReturn_answer (env : ReadEnv) (k : Kernel) (c : ReadLocals) (count : Nat)
    (ubuf : List UInt8) :
    ((readReturn env k c count ubuf).fPos, (readReturn env k c count ubuf).ret) =
        (if c.fPos < k.dev.buffer.totalSize then
          (toSsize (c.fPos + c.readCount), toSsize c.readCount) else (c.fPos, 0)) ∧
      (readReturn env k c count ubuf).ubuf = copyToUser k.heap ubuf c.tmpBuf count env.uncopied := by
  rw [readReturn]
  dsimp only
  split <;> exact ⟨rfl, rfl⟩

theorem ReadBehind.returned {env : ReadEnv} {ubuf : List UInt8} {count : Nat} {fPos : Int}
    {c : ReadLocals} (o : ReadBehind call k₀ order i env ubuf count fPos k.heap c)
    (hserial : serially call k₀ order = some k₁)
    (htotal : k₁.dev.buffer.totalSize = k.dev.buffer.totalSize) :
    ReadOutcome call k₀ order i env ubuf count fPos (readReturn env k c count ubuf).fPos
      (readReturn env k c count ubuf).ret (readReturn env k c count ubuf).ubuf := by
  obtain ⟨before, later, k', res, s⟩ := o
  obtain ⟨hanswer, hubuf⟩ := readReturn_answer env k c count ubuf
  have htold : readAnswer env k' count fPos k₁.dev.buffer.totalSize =
      some ((readReturn env k c count ubuf).fPos, (readReturn env k c count ubuf).ret) := by
    rw [htotal, hanswer, s.answer]
  refine .served (by rw [List.append_nil, s.place]) s.serial s.inside s.alone
    (by rw [← s.place, hserial]) htold (fun hsame => ?_) fun hin => ?_
  · rw [readAnswer_congr hsame, s.own, Option.some.injEq, Prod.mk.injEq] at htold
    exact ⟨htold.1.symm, htold.2.symm⟩
  · rw [hubuf, s.bytes hin]

theorem readCarries_step {env : ReadEnv} {ubuf : List UInt8} {count : Nat} {fPos : Int}
    (hv : (FopsCall.read env ubuf count fPos).Valid) (pl : Placed k.mutexUnlock) (pl₁ : Placed k₁)
    (hserial : serially call k₀ order = some k₁) (hsame : k₁.contents = k.contents) {p : ReadPhase}
    (hahead : (LockingPhase.read p).stage = .ahead → i ∉ order)
    (hheld : (LockingPhase.read p).stage = .holding → k.dev.mutex = true)
    (howned : ∀ q, (LockingPhase.read p).Owns q → q < k.heap.next ∧ ¬ PointsAt k.dev q)
    (o : ReadCarries call k₀ order i env ubuf count fPos k.heap p) {r : Kernel × ReadPhase}
    (hstep : readStep env ubuf count fPos k p = some r) :
    ReadCarries call k₀ (if (LockingPhase.read p).enters then order ++ [i] else order) i env ubuf
      count fPos r.1.heap r.2 := by
  cases p with
  | called =>
      obtain ⟨init, hinit⟩ := Option.isSome_iff_exists.mp hv.1.tmpBuf
      cases hstep
      refine ⟨init, hinit, fun j => ?_⟩
      rw [hinit, kmalloc_some, Heap.alloc_fst, Heap.load, Heap.block_alloc_self]
  | prepared tmpBuf =>
      cases hstep
      cases k.dev.mutex
      · exact o
      · exact .refused (hahead rfl)
  | admitted tmpBuf =>
      rw [readStep] at hstep
      split at hstep
      · cases hstep
      · cases hstep
        exact o
  | locked tmpBuf =>
      rw [readStep, hheld rfl] at hstep
      cases hstep
      exact o
  | entered tmpBuf =>
      obtain ⟨hdata, hapart⟩ := howned tmpBuf rfl
      exact readCarries_entered hv pl pl₁ hserial hsame hdata hapart o hstep
  | pastEnd =>
      cases hstep
      exact o
  | dismissed =>
      cases hstep
      obtain ⟨before, later, k', place, serial, ended⟩ := o
      exact .pastEnd place serial ended
  | copied c =>
      cases hstep
      exact o
  | released c =>
      cases hstep
      cases k.dev.mutex
      · exact o
      · obtain ⟨before, later, k', res, s⟩ := o
        have hcontended : ReadOutcome call k₀ order i env ubuf count fPos
            (readPosition k'.dev fPos) (-ENOMEM) ubuf := .contended s.place s.serial s.inside
        rw [← s.position] at hcontended
        exact hcontended
  | checked c =>
      cases hstep
      exact ReadBehind.returned o hserial (congrArg (fun a => a.lines.totalSize) hsame)
  | returned pos ret ubuf' => cases hstep

theorem writeCarries_step {env : WriteEnv} {buf : List UInt8}
    (hv : (FopsCall.write env buf).Valid) {p : WritePhase}
    (hfits : (LockingPhase.write p).enters = true →
      k.dev.pendingSize + buf.length < kmallocBound)
    (hahead : (LockingPhase.write p).stage = .ahead → i ∉ order)
    (hheld : (LockingPhase.write p).stage = .holding → k.dev.mutex = true)
    (o : WriteCarries order i buf k.heap p) {r : Driver Unit × WritePhase}
    (hstep : writeStep (fun _ => env) (fun _ => buf) () ⟨k, []⟩ p = some r) :
    WriteCarries (if (LockingPhase.write p).enters then order ++ [i] else order) i buf
      r.1.kernel.heap r.2 := by
  cases p with
  | called =>
      cases hstep
      exact writeProlog_prepared hv.1 k buf
  | prepared c =>
      cases hstep
      cases k.dev.mutex
      · exact o
      · exact .refused (hahead rfl)
  | admitted c =>
      rw [writeStep] at hstep
      split at hstep
      · cases hstep
      · cases hstep
        exact o
  | locked c =>
      rw [writeStep, hheld rfl] at hstep
      cases hstep
      exact o
  | entered c =>
      obtain ⟨sec, -, rfl⟩ := Option.map_eq_some_iff.mp hstep
      exact ⟨o.count, (Nat.le_add_left _ _).trans_lt (hfits rfl),
        List.mem_append_right _ (List.mem_singleton_self i)⟩
  | written c =>
      cases hstep
      exact o
  | released c =>
      cases hstep
      cases k.dev.mutex
      · exact o
      · exact .contended o.2.2
  | checked c =>
      cases hstep
      obtain ⟨hcount, hlen, hmem⟩ := o
      unfold kmallocBound at hlen
      have hret : toSsize c.count = buf.length := by rw [hcount, toSsize_of_lt (by omega)]
      have hstored : WriteOutcome order i buf buf.length := .stored hmem
      rw [← hret] at hstored
      exact hstored
  | returned ret => cases hstep

end Own

section Runs
variable {ι : Type} (calls : ι → LockingCall)

def RegionFits (s : State ι (LockedDriver ι) LockingPhase) (i : ι) : Prop :=
  ∀ env buf c, calls i = .write env buf → s.party i = .write (.entered c) →
    s.shared.kernel.dev.pendingSize + buf.length < kmallocBound

def LockingPhase.Nears (p : LockingPhase) : Prop := p.tests = true ∨ p.enters = true

/-- The calls of `order` have been through their locked regions. The last to lock the mutex may have
its own still before it. -/
structure InLockOrder [DecidableEq ι] (slots : Vector BufferEntry 10) (unset : Unset)
    (k₀ : Kernel) (s : State ι (LockedDriver ι) LockingPhase) (order : List ι) : Prop where
  uses : UsesLock s.shared.record fun i => (s.party i).stage
  sections : SectionOrder (fun i => (s.party i).Nears) s.shared.locks order
  placed : Placed s.shared.kernel.mutexUnlock
  serial : ∃ k, serially (fun i => (calls i).fops) k₀ order = some k ∧
    Reached (initModule slots unset) k ∧
    k.contents = s.shared.kernel.contents
  owns : ∀ i q, (s.party i).Owns q → q < s.shared.kernel.heap.next ∧ ¬ PointsAt s.shared.kernel.dev q
  disjoint : ∀ i j q, i ≠ j → (s.party i).Owns q → ¬ (s.party j).Owns q
  carries : ∀ i, Carries (fun i => (calls i).fops) k₀ order i s.shared.kernel.heap (calls i)
    (s.party i)

variable {calls}

theorem LockingPhase.Nears.holding {p : LockingPhase} (h : p.Nears) : p.stage = .holding :=
  LockingPhase.stage_eq_holding_iff.mpr (h.imp_right Or.inl)

theorem LockingPhase.next_cases (p : LockingPhase) :
    p.enters = true ∧ p.tests = false ∧ p.locks = false ∨
      p.enters = false ∧ (p.tests = true ∧ p.locks = false ∨ p.tests = false) := by
  cases p with
  | read p => cases p <;> simp [enters, tests, locks]
  | write p => cases p <;> simp [enters, tests, locks]

theorem readStep_nears {env : ReadEnv} {ubuf : List UInt8} {count : Nat} {fPos : Int} {k : Kernel}
    {p : ReadPhase} {r : Kernel × ReadPhase}
    (hheld : (LockingPhase.read p).stage = .holding → k.dev.mutex = true)
    (hstep : readStep env ubuf count fPos k p = some r) : (LockingPhase.read r.2).Nears ↔
      (LockingPhase.read p).locks = true ∨ (LockingPhase.read p).tests = true := by
  cases p with
  | called | pastEnd | dismissed | copied c | checked c =>
      cases hstep
      simp [LockingPhase.Nears, LockingPhase.tests, LockingPhase.enters, LockingPhase.locks]
  | prepared tmpBuf | released c =>
      cases hstep
      cases k.dev.mutex <;>
        simp [LockingPhase.Nears, LockingPhase.tests, LockingPhase.enters, LockingPhase.locks]
  | admitted tmpBuf =>
      rw [readStep] at hstep
      split at hstep
      · cases hstep
      · cases hstep
        exact iff_of_true (Or.inl rfl) (Or.inl rfl)
  | locked tmpBuf =>
      rw [readStep, hheld rfl] at hstep
      cases hstep
      exact iff_of_true (Or.inr rfl) (Or.inr rfl)
  | entered tmpBuf =>
      obtain ⟨⟨k', sec⟩, -, rfl⟩ := Option.map_eq_some_iff.mp hstep
      cases sec <;>
        simp [LockingPhase.Nears, LockingPhase.tests, LockingPhase.enters, LockingPhase.locks]
  | returned pos ret ubuf' => cases hstep

theorem writeStep_nears {env : Unit → WriteEnv} {buf : Unit → List UInt8} {k : Kernel}
    {p : WritePhase} {r : Driver Unit × WritePhase}
    (hheld : (LockingPhase.write p).stage = .holding → k.dev.mutex = true)
    (hstep : writeStep env buf () ⟨k, []⟩ p = some r) : (LockingPhase.write r.2).Nears ↔
      (LockingPhase.write p).locks = true ∨ (LockingPhase.write p).tests = true := by
  cases p with
  | called | written c | checked c =>
      cases hstep
      simp [LockingPhase.Nears, LockingPhase.tests, LockingPhase.enters, LockingPhase.locks]
  | prepared c | released c =>
      cases hstep
      cases k.dev.mutex <;>
        simp [LockingPhase.Nears, LockingPhase.tests, LockingPhase.enters, LockingPhase.locks]
  | admitted c =>
      rw [writeStep] at hstep
      split at hstep
      · cases hstep
      · cases hstep
        exact iff_of_true (Or.inl rfl) (Or.inl rfl)
  | locked c =>
      rw [writeStep, hheld rfl] at hstep
      cases hstep
      exact iff_of_true (Or.inr rfl) (Or.inr rfl)
  | entered c =>
      obtain ⟨sec, -, rfl⟩ := Option.map_eq_some_iff.mp hstep
      simp [LockingPhase.Nears, LockingPhase.tests, LockingPhase.enters, LockingPhase.locks]
  | returned ret => cases hstep

structure LockStep (call : LockingCall) (fops : ι → FopsCall) (k₀ : Kernel) (order : List ι) (i : ι)
    (k : Kernel) (p : LockingPhase) (k' : Kernel) (p' : LockingPhase) : Prop where
  effect : LockEffect call k p k' p'
  nears : p'.Nears ↔ p.locks = true ∨ p.tests = true
  carries : Carries fops k₀ (if p.enters then order ++ [i] else order) i k'.heap call p'

theorem LockStep.of_step {call : LockingCall} {fops : ι → FopsCall} {k₀ k k₁ : Kernel}
    {order : List ι} {i : ι} {p : LockingPhase} {r : Kernel × LockingPhase}
    (hv : call.fops.Valid) (pl : Placed k.mutexUnlock) (pl₁ : Placed k₁)
    (hserial : serially fops k₀ order = some k₁) (hsame : k₁.contents = k.contents)
    (hahead : p.stage = .ahead → i ∉ order) (hheld : p.stage = .holding → k.dev.mutex = true)
    (howned : ∀ q, p.Owns q → q < k.heap.next ∧ ¬ PointsAt k.dev q)
    (hfits : ∀ env buf, call = .write env buf → p.enters = true →
      k.dev.pendingSize + buf.length < kmallocBound)
    (o : Carries fops k₀ order i k.heap call p) (hstep : call.step k p = some r) :
    LockStep call fops k₀ order i k p r.1 r.2 := by
  cases call with
  | read env ubuf count fPos =>
      cases p with
      | write p => cases hstep
      | read p =>
          obtain ⟨r, hread, rfl⟩ := Option.map_eq_some_iff.mp hstep
          exact ⟨.read pl hv howned hread, readStep_nears hheld hread,
            readCarries_step hv pl pl₁ hserial hsame hahead hheld howned o hread⟩
  | write env buf =>
      cases p with
      | read p => cases hstep
      | write p =>
          obtain ⟨r, hwrite, rfl⟩ := Option.map_eq_some_iff.mp hstep
          have hready : ∀ c, p.ready = some c → Prepared k.heap c buf := by
            intro c hc
            cases p <;> cases hc <;> exact o
          exact ⟨.write pl hv (fun h => hheld (LockingPhase.Nears.holding (Or.inr h))) hready howned
            (hfits env buf rfl) hwrite, writeStep_nears hheld hwrite,
            writeCarries_step hv (hfits env buf rfl) hahead hheld o hwrite⟩

def AnsweredInOrder (fops : ι → FopsCall) (k₀ : Kernel) (order : List ι) (i : ι) :
    LockingCall → LockingPhase → Prop
  | .read env ubuf count fPos, .read (.returned pos ret ubuf') =>
      ReadOutcome fops k₀ order i env ubuf count fPos pos ret ubuf'
  | .write _ buf, .write (.returned ret) => WriteOutcome order i buf ret
  | _, _ => True

theorem Carries.answered {fops : ι → FopsCall} {k₀ : Kernel} {order : List ι} {i : ι} {h : Heap}
    {call : LockingCall} {p : LockingPhase} (o : Carries fops k₀ order i h call p) :
    AnsweredInOrder fops k₀ order i call p := by
  cases call with
  | read env ubuf count fPos =>
      cases p with
      | write p => trivial
      | read p =>
          cases p with
          | returned pos ret ubuf' => exact o
          | _ => trivial
  | write env buf =>
      cases p with
      | read p => trivial
      | write p =>
          cases p with
          | returned ret => exact o
          | _ => trivial

/-! ### A step of a run -/

variable [DecidableEq ι] {slots : Vector BufferEntry 10} {unset : Unset} {k₀ : Kernel}
  {s s' : State ι (LockedDriver ι) LockingPhase}
  {order : List ι} {i : ι}

namespace InLockOrder

theorem notMem_of_ahead (inv : InLockOrder calls slots unset k₀ s order)
    (hahead : (s.party i).stage = .ahead) : i ∉ order := by
  intro hi
  have hagrees := inv.uses.agrees i
  rw [hahead] at hagrees
  exact absurd (inv.sections.prefix_locks.subset hi) (List.count_eq_zero.mp hagrees.1)

theorem nodup (inv : InLockOrder calls slots unset k₀ s order) : order.Nodup :=
  (List.nodup_iff_count_le_one.mpr inv.uses.locks_le_one).sublist inv.sections.prefix_locks.sublist

theorem mutex_of_holding (inv : InLockOrder calls slots unset k₀ s order)
    (hi : (s.party i).stage = .holding) : s.shared.kernel.dev.mutex = true :=
  inv.uses.locked_of_holding hi

theorem eq_of_holding (inv : InLockOrder calls slots unset k₀ s order) {j : ι}
    (hi : (s.party i).stage = .holding) (hj : (s.party j).stage = .holding) : j = i :=
  inv.uses.exclusive.unique j i hj hi

theorem fits (inv : InLockOrder calls slots unset k₀ s order) (hfits : RegionFits calls s i)
    {env : WriteEnv} {buf : List UInt8} (hcall : calls i = .write env buf)
    (henters : (s.party i).enters = true) :
    s.shared.kernel.dev.pendingSize + buf.length < kmallocBound := by
  have o := inv.carries i
  rw [hcall] at o
  cases hp : s.party i with
  | read p =>
      rw [hp] at o
      exact o.elim
  | write p =>
      rw [hp] at henters
      cases p with
      | entered c => exact hfits env buf c hcall hp
      | _ => cases henters

theorem lockStep (inv : InLockOrder calls slots unset k₀ s order)
    (hvalid : ∀ i, (calls i).fops.Valid) (hfits : RegionFits calls s i) {r : Kernel × LockingPhase}
    (hstep : (calls i).step s.shared.kernel (s.party i) = some r) :
    LockStep (calls i) (fun i => (calls i).fops) k₀ order i s.shared.kernel (s.party i) r.1 r.2 := by
  obtain ⟨k₁, hserial, hreached, hsame⟩ := inv.serial
  exact .of_step (hvalid i) inv.placed hreached.placed hserial hsame inv.notMem_of_ahead
    inv.mutex_of_holding (inv.owns i) (fun _ _ hcall henters => inv.fits hfits hcall henters)
    (inv.carries i) hstep

section Act
variable {r : Kernel × LockingPhase} (inv : InLockOrder calls slots unset k₀ s order)
  (hstep : (calls i).step s.shared.kernel (s.party i) = some r)
  (step : LockStep (calls i) (fun i => (calls i).fops) k₀ order i s.shared.kernel (s.party i)
    r.1 r.2)
include inv step

theorem owns_act (j q) (hq : (Function.update s.party i r.2 j).Owns q) :
    q < r.1.heap.next ∧ ¬ PointsAt r.1.dev q := by
  by_cases hji : j = i
  · rw [hji, Function.update_self] at hq
    obtain ⟨hlt, hapart, -⟩ := step.effect.owns q hq
    exact ⟨hlt, hapart⟩
  · rw [Function.update_of_ne hji] at hq
    obtain ⟨hlt, hapart⟩ := inv.owns j q hq
    refine ⟨hlt.trans_le step.effect.next_le, fun hpoints => ?_⟩
    exact (step.effect.pointsAt q hpoints).elim hapart (inv.disjoint j i q hji hq)

theorem disjoint_act (j j' q) (hne : j ≠ j') (hq : (Function.update s.party i r.2 j).Owns q) :
    ¬ (Function.update s.party i r.2 j').Owns q := by
  have hnew : ∀ j, j ≠ i → r.2.Owns q → ¬ (s.party j).Owns q := by
    intro j hji hi hj
    rcases (step.effect.owns q hi).2.2 with hold | hge
    · exact inv.disjoint i j q (Ne.symm hji) hold hj
    · exact absurd (inv.owns j q hj).1 (Nat.not_lt.mpr hge)
  intro hq'
  by_cases hji : j = i
  · have hj'i : j' ≠ i := fun h => hne (hji.trans h.symm)
    rw [hji, Function.update_self] at hq
    rw [Function.update_of_ne hj'i] at hq'
    exact hnew j' hj'i hq hq'
  · rw [Function.update_of_ne hji] at hq
    by_cases hj'i : j' = i
    · rw [hj'i, Function.update_self] at hq'
      exact hnew j hji hq' hq
    · rw [Function.update_of_ne hj'i] at hq'
      exact inv.disjoint j j' q hne hq hq'

theorem carries_act (j : ι) : Carries (fun i => (calls i).fops) k₀
    (if (s.party i).enters then order ++ [i] else order) j r.1.heap (calls j)
      (Function.update s.party i r.2 j) := by
  by_cases hji : j = i
  · rw [hji, Function.update_self]
    exact step.carries
  · rw [Function.update_of_ne hji]
    have hcarries := (inv.carries j).of_load step.effect.next_le fun q hq =>
      step.effect.load q (inv.owns j q hq).1 (inv.disjoint j i q hji hq)
    split
    · exact hcarries.append hji
    · exact hcarries

theorem serial_act (hvalid : ∀ i, (calls i).fops.Valid) (hfits : RegionFits calls s i) :
    ∃ k, serially (fun i => (calls i).fops) k₀
        (if (s.party i).enters then order ++ [i] else order) = some k ∧
      Reached (initModule slots unset) k ∧ k.contents = r.1.contents := by
  obtain ⟨k₁, hserial, hreached, hsame⟩ := inv.serial
  rw [step.effect.contents]
  split
  · rename_i henters
    have hfit : (calls i).fops.Fits k₁.contents.lines := by
      cases hcall : calls i with
      | read env ubuf count fPos => trivial
      | write env buf =>
          have hlt := inv.fits hfits hcall henters
          rw [← pendingSize_contents, ← hsame] at hlt
          exact hlt
    obtain ⟨k, happly, hact⟩ := FopsCall.apply_act hreached.placed (hvalid i) hfit
    refine ⟨k, ?_, FopsCall.apply_reached hreached hfit happly, by rw [hact, hsame]⟩
    rw [serially_append_singleton, hserial, Option.bind_some, happly]
  · exact ⟨k₁, hserial, hreached, hsame⟩

end Act

theorem act (inv : InLockOrder calls slots unset k₀ s order) (hvalid : ∀ i, (calls i).fops.Valid)
    (hfits : RegionFits calls s i) (hact : Interleaving.act (lockingStep calls) s i = some s') :
    InLockOrder calls slots unset k₀ s' (if (s.party i).enters then order ++ [i] else order) := by
  have huses := inv.uses.act (disciplined calls) hact
  obtain ⟨shared, p', hlocking, rfl⟩ := act_eq_some hact
  obtain ⟨r, hstep, heq⟩ := Option.map_eq_some_iff.mp hlocking
  cases heq
  have step := inv.lockStep hvalid hfits hstep
  refine ⟨huses, ?_, step.effect.placed, inv.serial_act step hvalid hfits, inv.owns_act step,
    inv.disjoint_act step, inv.carries_act step⟩
  have hself : (Function.update s.party i r.2 i).Nears ↔
      (s.party i).locks = true ∨ (s.party i).tests = true := by
    rw [Function.update_self]
    exact step.nears
  have hother : ∀ j, j ≠ i → ((Function.update s.party i r.2 j).Nears ↔ (s.party j).Nears) := by
    intro j hji
    rw [Function.update_of_ne hji]
  dsimp only
  rcases (s.party i).next_cases with ⟨henters, htests, hlocks⟩ | ⟨henters, htests⟩
  · rw [henters, hlocks, if_neg Bool.false_ne_true, if_pos rfl]
    refine inv.sections.pass (Or.inr henters) fun j hj => ?_
    by_cases hji : j = i
    · rw [hji, hself, htests, hlocks] at hj
      exact hj.elim Bool.false_ne_true Bool.false_ne_true
    · have hi : (s.party i).Nears := Or.inr henters
      exact hji (inv.eq_of_holding hi.holding ((hother j hji).mp hj).holding)
  · rw [henters, if_neg Bool.false_ne_true]
    rcases htests with ⟨htests, hlocks⟩ | htests
    · rw [hlocks, if_neg Bool.false_ne_true]
      refine inv.sections.congr fun j => ?_
      by_cases hji : j = i
      · rw [hji]
        exact iff_of_true (hself.mpr (Or.inr htests)) (Or.inl htests)
      · exact hother j hji
    · have hnot : ¬ (s.party i).Nears := by
        rintro (h | h)
        · exact Bool.false_ne_true (htests.symm.trans h)
        · exact Bool.false_ne_true (henters.symm.trans h)
      cases hlocks : (s.party i).locks
      · rw [if_neg Bool.false_ne_true]
        refine inv.sections.congr fun j => ?_
        by_cases hji : j = i
        · rw [hji]
          refine iff_of_false (fun h => ?_) hnot
          rw [hself, hlocks, htests] at h
          exact h.elim Bool.false_ne_true Bool.false_ne_true
        · exact hother j hji
      · rw [if_pos rfl]
        have hi := hself.mpr (Or.inl hlocks)
        have honly : ∀ j, (Function.update s.party i r.2 j).Nears → j = i :=
          fun j hj => huses.exclusive.unique j i hj.holding hi.holding
        refine inv.sections.lock (fun j hj => ?_) hi honly
        by_cases hji : j = i
        · exact hnot (hji ▸ hj)
        · exact hji (honly j ((hother j hji).mpr hj))

theorem start {k₀ : Kernel} (reached : Reached (initModule slots unset) k₀) :
    InLockOrder calls slots unset k₀ (LockedDriver.start calls k₀) [] := by
  have hstart : ∀ i, (calls i).start = .read .called ∨ (calls i).start = .write .called := by
    intro i
    cases calls i
    · exact Or.inl rfl
    · exact Or.inr rfl
  have hunowned : ∀ i q, ¬ (calls i).start.Owns q := by
    intro i q hq
    rcases hstart i with h | h <;> rw [h] at hq
    · cases hq
    · obtain ⟨c, hc, -⟩ := hq
      cases hc
  have hrecord : (LockedDriver.start calls k₀).shared.record = ⟨false, [], []⟩ := by
    rw [← reached.placed.unlocked]
    rfl
  refine ⟨?_, .start fun i hi => ?_, ?_, ⟨k₀, rfl, reached, rfl⟩,
    fun i q hq => absurd hq (hunowned i q), fun i j q _ hq => absurd hq (hunowned i q), fun i => ?_⟩
  · rw [hrecord]
    refine .start fun i => ?_
    dsimp only [LockedDriver.start]
    rcases hstart i with h | h <;> rw [h] <;> rfl
  · dsimp only [LockedDriver.start] at hi
    rcases hstart i with h | h <;> rw [h] at hi <;> rcases hi with hi | hi <;> cases hi
  · have hdev : k₀.mutexUnlock.dev = k₀.dev := by
      rw [Kernel.mutexUnlock, ← reached.placed.unlocked]
    exact reached.placed.of_next_le k₀.dev.seek hdev (Nat.le_refl _)
  · dsimp only [LockedDriver.start]
    cases calls i <;> trivial

end InLockOrder

/-! ### Real time -/

variable (calls) in
/-- A call that has returned at some moment comes before every call that locks the mutex later. -/
def InRealTime (s₀ : State ι (LockedDriver ι) LockingPhase) (schedule order : List ι) : Prop :=
  ∀ first second t, schedule = first ++ second → run (lockingStep calls) s₀ first = some t →
    ∃ earlier later, order = earlier ++ later ∧ (∀ i ∈ earlier, (t.party i).stage ≠ .ahead) ∧
      ∀ i ∈ later, (t.party i).isReturned = false

theorem LockingCall.step_of_returned {call : LockingCall} {p : LockingPhase}
    (hp : p.isReturned = true) (k : Kernel) : call.step k p = none := by
  cases call <;> cases p with
  | read p => cases p <;> first | rfl | cases hp
  | write p => cases p <;> first | rfl | cases hp

theorem not_returned_of_act {t : State ι (LockedDriver ι) LockingPhase} {second : List ι}
    (hrun : run (lockingStep calls) t second = some s)
    (hact : act (lockingStep calls) s i = some s') : (t.party i).isReturned = false := by
  by_contra hret
  rw [Bool.not_eq_false] at hret
  have hnone : ∀ s : State ι (LockedDriver ι) LockingPhase, s.party i = t.party i →
      act (lockingStep calls) s i = none := by
    intro s hs
    rw [act, lockingStep, hs, LockingCall.step_of_returned hret]
    rfl
  have hsame : s.party i = t.party i := by
    refine run_invariant (fun s j s' (h : s.party i = t.party i) hstep => ?_) rfl second hrun
    have hji : i ≠ j := by
      rintro rfl
      rw [hnone s h] at hstep
      cases hstep
    obtain ⟨shared, l, -, rfl⟩ := act_eq_some hstep
    exact (Function.update_of_ne hji _ _).trans h
  rw [hnone s hsame] at hact
  cases hact

theorem InRealTime.append {s₀ : State ι (LockedDriver ι) LockingPhase} {schedule : List ι}
    (o : InRealTime calls s₀ schedule order)
    (hrun : run (lockingStep calls) s₀ schedule = some s)
    (hact : act (lockingStep calls) s i = some s') {order' : List ι}
    (horder : order' = order ∨ order' = order ++ [i])
    (hahead : ∀ j ∈ order', (s'.party j).stage ≠ .ahead) :
    InRealTime calls s₀ (schedule ++ [i]) order' := by
  intro first second t hsplit ht
  rcases List.eq_nil_or_concat second with rfl | ⟨second, j, rfl⟩
  · rw [List.append_nil] at hsplit
    rw [← hsplit, run_append_singleton, hrun, Option.bind_some, hact, Option.some.injEq] at ht
    subst ht
    exact ⟨order', [], (List.append_nil _).symm, hahead, fun j hj => absurd hj List.not_mem_nil⟩
  · rw [List.concat_eq_append, ← List.append_assoc] at hsplit
    obtain ⟨hprev, -⟩ := List.append_singleton_inj.mp hsplit
    obtain ⟨earlier, later, hparts, hearlier, hlater⟩ := o first second t hprev ht
    rw [hprev, run_append, ht, Option.bind_some] at hrun
    rcases horder with rfl | rfl
    · exact ⟨earlier, later, hparts, hearlier, hlater⟩
    · refine ⟨earlier, later ++ [i], by rw [hparts, List.append_assoc], hearlier, fun j hj => ?_⟩
      rcases List.mem_append.mp hj with hj | hj
      · exact hlater j hj
      · obtain rfl := List.mem_singleton.mp hj
        exact not_returned_of_act hrun hact

theorem inLockOrder_of_run {k₀ : Kernel} (hvalid : ∀ i, (calls i).fops.Valid)
    (reached : Reached (initModule slots unset) k₀) (schedule : List ι)
    (hrun : run (lockingStep calls) (LockedDriver.start calls k₀) schedule = some s)
    (hfits : Meets (lockingStep calls) (RegionFits calls) (LockedDriver.start calls k₀) schedule) :
    ∃ order, InLockOrder calls slots unset k₀ s order ∧
      InRealTime calls (LockedDriver.start calls k₀) schedule order := by
  induction schedule using List.reverseRecOn generalizing s with
  | nil =>
      cases hrun
      refine ⟨[], .start reached, fun first second t _ _ => ⟨[], [], rfl, ?_, ?_⟩⟩
      · exact fun i hi => absurd hi List.not_mem_nil
      · exact fun i hi => absurd hi List.not_mem_nil
  | append_singleton schedule i ih =>
      rw [run_append_singleton] at hrun
      obtain ⟨t, hprev, hlast⟩ := Option.bind_eq_some_iff.mp hrun
      obtain ⟨hbefore, hguard⟩ := (meets_append_singleton _ hprev).mp hfits
      obtain ⟨order, inv, realTime⟩ := ih hprev hbefore
      have inv' := inv.act hvalid hguard hlast
      refine ⟨_, inv', realTime.append hprev hlast ?_ fun j hj hahead => ?_⟩
      · split
        · exact Or.inr rfl
        · exact Or.inl rfl
      · exact inv'.notMem_of_ahead hahead hj

end Runs

/-- Reads and writes take effect one after the other, in the order in which they have locked the mutex,
however their steps come between each other. -/
theorem locked_calls_in_order {ι : Type} [DecidableEq ι] (calls : ι → LockingCall)
    (hvalid : ∀ i, (calls i).fops.Valid) {slots : Vector BufferEntry 10} {unset : Unset}
    {k₀ : Kernel}
    (reached : Reached (initModule slots unset) k₀) (schedule : List ι)
    {s : State ι (LockedDriver ι) LockingPhase}
    (hrun : run (lockingStep calls) (LockedDriver.start calls k₀) schedule = some s)
    (hfits : Meets (lockingStep calls) (RegionFits calls) (LockedDriver.start calls k₀) schedule) :
    ∃ order : List ι, order.Nodup ∧ order <+: s.shared.locks ∧
      InRealTime calls (LockedDriver.start calls k₀) schedule order ∧
      (∃ k, serially (fun i => (calls i).fops) k₀ order = some k ∧
        k.state = s.shared.kernel.state) ∧
      ∀ i, AnsweredInOrder (fun i => (calls i).fops) k₀ order i (calls i) (s.party i) := by
  obtain ⟨order, inv, realTime⟩ := inLockOrder_of_run hvalid reached schedule hrun hfits
  obtain ⟨k, hserial, hreached, hsame⟩ := inv.serial
  refine ⟨order, inv.nodup, inv.sections.prefix_locks, realTime, ⟨k, hserial, ?_⟩,
    fun i => (inv.carries i).answered⟩
  exact (state_congr hreached.filled (congrArg Contents.lines hsame.symm)
    (congrArg Contents.seek hsame.symm) fun _ => congrArg Contents.position hsame.symm).symm

def addedOnceAdmitted : List Bool :=
  [false, false, true, true, true, true, true, true, false, false, false, false, false, false]

def LockingPhase.readReturned : LockingPhase → Option (Int × Int × List UInt8)
  | .read (.returned pos ret ubuf) => some (pos, ret, ubuf)
  | _ => none

theorem LockingPhase.eq_of_readReturned {p : LockingPhase} {pos ret : Int} {ubuf : List UInt8}
    (h : p.readReturned = some (pos, ret, ubuf)) : p = .read (.returned pos ret ubuf) := by
  cases p with
  | write p => cases h
  | read p =>
      cases p with
      | returned pos' ret' ubuf' =>
          cases h
          rfl
      | _ => cases h

theorem meets_addedOnceAdmitted : Meets (lockingStep readAndWrite) (RegionFits readAndWrite)
    (LockedDriver.start readAndWrite (initModule CircularBuffer.init.entry .zeroed))
    addedOnceAdmitted := by
  have hpending : ∀ n < 15, (run (lockingStep readAndWrite) (LockedDriver.start readAndWrite
      (initModule CircularBuffer.init.entry .zeroed)) (addedOnceAdmitted.take n)).map
      (fun s => s.shared.kernel.dev.pendingSize) = some 0 := by decide +kernel
  intro pre i hpre t ht env buf c hcall _
  have hpre' : pre <+: addedOnceAdmitted := (List.prefix_append _ _).trans hpre
  have hsize := hpending pre.length (Nat.lt_succ_of_le hpre'.length_le)
  rw [← List.prefix_iff_eq_take.mp hpre', ht, Option.map_some, Option.some.injEq] at hsize
  rw [hsize]
  cases i <;> cases hcall
  decide

theorem locked_calls_in_order_readAndWrite :
    ∃ s order, run (lockingStep readAndWrite) (LockedDriver.start readAndWrite
        (initModule CircularBuffer.init.entry .zeroed)) addedOnceAdmitted = some s ∧
      s.shared.locks = [true, false] ∧
      s.party false = .read (.returned 2 2 [97, 10, 0, 0]) ∧ order <+: s.shared.locks ∧
      ReadOutcome (fun i => (readAndWrite i).fops) (initModule CircularBuffer.init.entry .zeroed) order
        false (ReadCall.zeroed 4).env [] 4 0 2 2 [97, 10, 0, 0] := by
  have hend : (run (lockingStep readAndWrite) (LockedDriver.start readAndWrite
      (initModule CircularBuffer.init.entry .zeroed)) addedOnceAdmitted).map (fun s =>
        (s.shared.locks, (s.party false).readReturned)) =
      some ([true, false], some (2, 2, [97, 10, 0, 0])) := by decide +kernel
  obtain ⟨s, hrun, hvalues⟩ := Option.map_eq_some_iff.mp hend
  obtain ⟨hlocks, hread⟩ := Prod.mk.inj hvalues
  have hparty := LockingPhase.eq_of_readReturned hread
  have hvalid : ∀ i, (readAndWrite i).fops.Valid := by
    intro i
    cases i
    · exact ⟨⟨rfl, rfl, rfl⟩, by decide, by decide⟩
    · exact ⟨WriteEnv.zeroed_succeeds, by decide⟩
  obtain ⟨order, -, hprefix, -, -, hanswered⟩ :=
    locked_calls_in_order readAndWrite hvalid .load addedOnceAdmitted hrun meets_addedOnceAdmitted
  have houtcome := hanswered false
  rw [hparty] at houtcome
  exact ⟨s, order, hrun, hlocks, hparty, hprefix, houtcome⟩

end Aesd

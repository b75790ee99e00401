import Aesd.SerialCalls
import Aesd.TruthfulWrites

/-! What each step of interleaved calls does to the contents of the device. The blocks of a write
that has yet to be through its locked region are its own, so that no step of another call shows
in them. -/
namespace Aesd
open FixedWidth Memory Interleaving

namespace CallPhase

def Quiet : CallPhase → Prop
  | called => True
  | freeing _ => True
  | resetting 0 => True
  | prepared _ => True
  | _ => False

end CallPhase

namespace FopsCall

def At : FopsCall → CallPhase → Prop
  | _, .called => True
  | flush, .freeing _ => True
  | flush, .resetting made => made < flushAssignments
  | flush, .returned => True
  | seekto _, .summing _ _ => True
  | seekto _, .summed newPos => -2 ^ 63 ≤ newPos ∧ newPos < 2 ^ 63
  | seekto _, .positioned _ => True
  | seekto _, .sought => True
  | read _ _ _ _, .returned => True
  | write _ _, .prepared _ => True
  | write _ _, .returned => True
  | _, _ => False

inductive Does (a : Contents) : FopsCall → CallPhase → Contents → CallPhase → Prop
  | quiet {c : FopsCall} {p p' : CallPhase} (hp : p.Quiet) (hp' : p'.Quiet) : Does a c p a p'
  | assign (made : Nat) : Does a .flush (.resetting made) (a.assign made)
      (if made + 1 < flushAssignments then .resetting (made + 1) else .returned)
  | start (target : AesdSeekto) : Does a (.seekto target) .called a (.summing 0 0)
  | add (target : AesdSeekto) (i : Nat) (newPos : Int) (hi : i < target.writeCmd) :
      Does a (.seekto target) (.summing i newPos) a
        (.summing (i + 1) (toSsize (newPos + a.lines.sizeAt i)))
  | sum (target : AesdSeekto) (i : Nat) (newPos : Int) (hi : ¬ i < target.writeCmd) :
      Does a (.seekto target) (.summing i newPos) a
        (.summed (toSsize (newPos + target.writeCmdOffset)))
  | position (target : AesdSeekto) (newPos : Int) :
      Does a (.seekto target) (.summed newPos) { a with position := newPos } (.positioned newPos)
  | seek (target : AesdSeekto) (newPos : Int) :
      Does a (.seekto target) (.positioned newPos) { a with seek := true } .sought
  | read (env : ReadEnv) (ubuf : List UInt8) (count : Nat) (fPos : Int) :
      Does a (.read env ubuf count fPos) .called (a.read fPos) .returned
  | write (env : WriteEnv) (buf : List UInt8) (w : WriteCall) :
      Does a (.write env buf) (.prepared w) (a.write buf) .returned

end FopsCall

structure Ready (k : Kernel) (w : WriteCall) (buf : List UInt8) : Prop where
  prepared : Prepared k.heap w buf
  apart : ∀ q, PointsAt k.dev q → q ≠ w.data ∧ q ≠ w.tmp

/-- One step: what it does to the contents, which blocks it may change, and which it makes the
device refer to. -/
structure Effect (k : Kernel) (c : FopsCall) (p : CallPhase) (k' : Kernel) (p' : CallPhase) :
    Prop where
  does : c.Does k.contents p k'.contents p'
  placed : Placed k'
  at_phase : c.At p'
  next_le : k.heap.next ≤ k'.heap.next
  load : ∀ q < k.heap.next, (∀ w, p = .prepared w → q ≠ w.data ∧ q ≠ w.tmp) → ∀ j,
    k'.heap.load q j = k.heap.load q j
  pointsAt : ∀ q, PointsAt k'.dev q → PointsAt k.dev q ∨ ∃ w, p = .prepared w ∧ q = w.data
  ready : ∀ w, p' = .prepared w → ∃ env buf, c = .write env buf ∧ Ready k' w buf ∧
    k.heap.next ≤ w.data ∧ k.heap.next ≤ w.tmp

section Step
variable {c : FopsCall} {k k' : Kernel} {p p' : CallPhase}

theorem Effect.of_retains (does : c.Does k.contents p k'.contents p') (placed : Placed k')
    (hat : c.At p') (r : k.heap.Retains k'.heap)
    (hpoints : ∀ q, PointsAt k'.dev q → PointsAt k.dev q) (hp' : ∀ w, p' ≠ .prepared w) :
    Effect k c p k' p' where
  does := does
  placed := placed
  at_phase := hat
  next_le := r.next_le
  load q hq _ := r.load q hq
  pointsAt q hq := Or.inl (hpoints q hq)
  ready w hw := absurd hw (hp' w)

theorem PointsAt.of_assign {d : AesdDev} {made q : Nat} (hq : PointsAt (d.assign made) q) :
    PointsAt d q := by
  rcases hq with ⟨i, hused, heq⟩ | hq
  · rw [AesdDev.slot_assign] at heq
    exact Or.inl ⟨i, AesdDev.used_assign hused, heq⟩
  · match made, hq with
    | 1, hq => exact absurd hq.1 Bool.false_ne_true
    | 0, hq | 2, hq | 3, hq | 4, hq | 5, hq | 6, hq | _ + 7, hq => exact Or.inr hq

theorem Effect.flush (pl : Placed k) (hat : FopsCall.flush.At p)
    (hstep : FopsCall.flush.step k p = some (k', p')) : Effect k .flush p k' p' := by
  cases p with
  | called =>
      cases hstep
      exact .of_retains (.quiet trivial trivial) pl trivial (.refl _) (fun _ h => h)
        fun _ h => by cases h
  | freeing index =>
      rw [FopsCall.step] at hstep
      split at hstep <;> rw [Option.some.injEq, Prod.mk.injEq] at hstep <;>
        obtain ⟨rfl, rfl⟩ := hstep
      · have r := retains_freeSlot k.dev.buffer index k.heap
        have hsame : Kernel.contents ⟨k.dev, freeSlot k.dev.buffer index k.heap⟩ = k.contents :=
          pl.contents_of_retains rfl r
        refine .of_retains ?_ (pl.of_next_le k.dev.seek rfl r.next_le) trivial r (fun _ h => h)
          fun _ h => by cases h
        rw [hsame]
        exact .quiet trivial trivial
      · exact .of_retains (.quiet trivial trivial) pl (Nat.succ_pos _) (.refl _) (fun _ h => h)
          fun _ h => by cases h
  | resetting made =>
      rw [FopsCall.step, Option.some.injEq, Prod.mk.injEq] at hstep
      obtain ⟨rfl, rfl⟩ := hstep
      refine .of_retains ?_ (pl.assign made) ?_ (.refl _) (fun _ h => h.of_assign) fun w hw => ?_
      · rw [contents_assign]
        exact .assign made
      · split
        · rename_i hlt
          exact hlt
        · trivial
      · split at hw <;> cases hw
  | _ => cases hstep

theorem Effect.seekto (pl : Placed k) {target : AesdSeekto} (hat : (FopsCall.seekto target).At p)
    (hstep : (FopsCall.seekto target).step k p = some (k', p')) :
    Effect k (.seekto target) p k' p' := by
  cases p with
  | called =>
      cases hstep
      exact .of_retains (.start target) pl trivial (.refl _) (fun _ h => h) fun _ h => by cases h
  | summing i newPos =>
      rw [FopsCall.step] at hstep
      split at hstep <;> rename_i hi <;> rw [Option.some.injEq, Prod.mk.injEq] at hstep <;>
        obtain ⟨rfl, rfl⟩ := hstep
      · refine .of_retains ?_ ⟨pl.unlocked, pl.inOffs_lt, pl.outOffs_lt, pl.slot, pl.pending,
          pl.totalSize_lt, pl.seekto⟩ trivial ⟨Nat.le_refl _, fun _ _ _ => rfl⟩ (fun _ h => h)
          fun _ h => by cases h
        have hadd := FopsCall.Does.add (a := k.contents) target i newPos hi
        rw [sizeAt_contents] at hadd
        exact hadd
      · exact .of_retains (.sum target i newPos hi) pl ⟨le_toSsize _, toSsize_lt _⟩ (.refl _)
          (fun _ h => h) fun _ h => by cases h
  | summed newPos =>
      cases hstep
      exact .of_retains (.position target newPos) ⟨pl.unlocked, pl.inOffs_lt, pl.outOffs_lt,
        pl.slot, pl.pending, pl.totalSize_lt, hat⟩ trivial (.refl _) (fun _ h => h)
        fun _ h => by cases h
  | positioned newPos =>
      cases hstep
      exact .of_retains (.seek target newPos) ⟨pl.unlocked, pl.inOffs_lt, pl.outOffs_lt, pl.slot,
        pl.pending, pl.totalSize_lt, pl.seekto⟩ trivial (.refl _) (fun _ h => h)
        fun _ h => by cases h
  | _ => cases hstep

theorem Effect.read (pl : Placed k) {env : ReadEnv} {ubuf : List UInt8} {count : Nat} {fPos : Int}
    (hv : (FopsCall.read env ubuf count fPos).Valid)
    (hstep : (FopsCall.read env ubuf count fPos).step k p = some (k', p')) :
    Effect k (.read env ubuf count fPos) p k' p' := by
  cases p with
  | called =>
      obtain ⟨res, hcall, hcontents, placed, hdev, r⟩ := pl.read hv.1 hv.2.1 hv.2.2 ubuf
      rw [FopsCall.step, hcall, Option.map_some, Option.some.injEq, Prod.mk.injEq] at hstep
      obtain ⟨rfl, rfl⟩ := hstep
      refine .of_retains ?_ placed trivial r (fun q hq => ?_) fun _ h => by cases h
      · rw [hcontents]
        exact .read env ubuf count fPos
      · rw [hdev] at hq
        exact hq
  | _ => cases hstep

theorem Effect.write (pl : Placed k) {env : WriteEnv} {buf : List UInt8}
    (hv : (FopsCall.write env buf).Valid) (hready : ∀ w, p = .prepared w → Ready k w buf)
    (hfits : ∀ w, p = .prepared w → k.dev.pendingSize + buf.length < kmallocBound)
    (hstep : (FopsCall.write env buf).step k p = some (k', p')) :
    Effect k (.write env buf) p k' p' := by
  cases p with
  | called =>
      rw [FopsCall.step, Option.some.injEq, Prod.mk.injEq] at hstep
      obtain ⟨rfl, rfl⟩ := hstep
      obtain ⟨hsame, placed, hapart⟩ := pl.writeProlog hv.1 buf
      have ext := writeProlog_extends hv.1 k buf
      refine ⟨?_, placed, trivial, ext.next_le, fun q hq _ j => ext.load hq j,
        fun q hq => Or.inl hq, fun w hw => ?_⟩
      · rw [hsame]
        exact .quiet trivial trivial
      · obtain rfl := CallPhase.prepared.inj hw
        refine ⟨env, buf, rfl, ⟨writeProlog_prepared hv.1 k buf, hapart⟩, ?_⟩
        rw [writeProlog_call hv.1]
        exact ⟨Nat.le_add_right _ 1, Nat.le_add_right _ 2⟩
  | prepared w =>
      obtain ⟨prep, hapart⟩ := hready w rfl
      obtain ⟨res, hcall, wrote⟩ := pl.writeRest hv.1 prep hapart (Or.inl hv.2) (hfits w rfl)
      rw [FopsCall.step, hcall, Option.map_some, Option.some.injEq, Prod.mk.injEq] at hstep
      obtain ⟨rfl, rfl⟩ := hstep
      refine ⟨?_, wrote.placed, trivial, wrote.next_le, fun q hq hw => ?_, fun q hq => ?_,
        fun w' hw => by cases hw⟩
      · rw [wrote.contents]
        exact .write env buf w
      · exact wrote.others q hq (hw w rfl).1 (hw w rfl).2
      · exact (wrote.pointsAt q hq).imp_right fun hq => ⟨w, rfl, hq⟩
  | _ => cases hstep

theorem Effect.of_step (pl : Placed k) (hv : c.Valid) (hat : c.At p)
    (hready : ∀ env buf w, c = .write env buf → p = .prepared w → Ready k w buf)
    (hfits : ∀ env buf w, c = .write env buf → p = .prepared w →
      k.dev.pendingSize + buf.length < kmallocBound)
    (hstep : c.step k p = some (k', p')) : Effect k c p k' p' := by
  cases c with
  | flush => exact .flush pl hat hstep
  | seekto target => exact .seekto pl hat hstep
  | read env ubuf count fPos => exact .read pl hv hstep
  | write env buf =>
      exact .write pl hv (fun w => hready env buf w rfl) (fun w => hfits env buf w rfl) hstep

end Step

section Interleaved
variable {ι : Type} (call : ι → FopsCall)

/-- The blocks of the writes at their locks are apart from each other and from what the device
refers to. -/
structure Apart (s : State ι Kernel CallPhase) : Prop where
  placed : Placed s.shared
  at_phase : ∀ i, (call i).At (s.party i)
  ready : ∀ i w, s.party i = .prepared w → ∃ env buf, call i = .write env buf ∧
    Ready s.shared w buf
  disjoint : ∀ i j w w', i ≠ j → s.party i = .prepared w → s.party j = .prepared w' →
    w.data ≠ w'.data ∧ w.data ≠ w'.tmp ∧ w.tmp ≠ w'.data

def LineFits (s : State ι Kernel CallPhase) (i : ι) : Prop :=
  ∀ env buf w, call i = .write env buf → s.party i = .prepared w →
    s.shared.dev.pendingSize + buf.length < kmallocBound

variable {call} {s s' : State ι Kernel CallPhase} {i : ι}

theorem Apart.start {k : Kernel} (pl : Placed k) : Apart call (callsStart ι k) where
  placed := pl
  at_phase i := by
    show (call i).At .called
    cases call i <;> trivial
  ready _ _ h := by cases h
  disjoint _ _ _ _ _ h := by cases h

variable [DecidableEq ι]

theorem Apart.act (ap : Apart call s) (hvalid : ∀ i, (call i).Valid) (hfits : LineFits call s i)
    (hact : act (fun j k => (call j).step k) s i = some s') :
    Apart call s' ∧ ∃ p', s'.party = Function.update s.party i p' ∧
      (call i).Does s.shared.contents (s.party i) s'.shared.contents p' := by
  obtain ⟨k', p', hstep, rfl⟩ := act_eq_some hact
  have e : Effect s.shared (call i) (s.party i) k' p' := by
    refine .of_step ap.placed (hvalid i) (ap.at_phase i) (fun env buf w hcall hphase => ?_) hfits
      hstep
    obtain ⟨env', buf', hcall', ready⟩ := ap.ready i w hphase
    obtain ⟨-, rfl⟩ := FopsCall.write.inj (hcall.symm.trans hcall')
    exact ready
  have hnew : ∀ j w j' w', Function.update s.party i p' j = .prepared w → j = i → j' ≠ i →
      s.party j' = .prepared w' → w.data ≠ w'.data ∧ w.data ≠ w'.tmp ∧ w.tmp ≠ w'.data := by
    intro j w j' w' hj hji hj'i hj'
    rw [hji, Function.update_self] at hj
    obtain ⟨_, _, -, -, hdata, htmp⟩ := e.ready w hj
    obtain ⟨_, _, -, ready⟩ := ap.ready j' w' hj'
    have hdata' := ready.prepared.data_next
    have htmp' := ready.prepared.tmp_next
    omega
  refine ⟨⟨e.placed, fun j => ?_, fun j w hj => ?_, fun j j' w w' hne hj hj' => ?_⟩, p', rfl,
    e.does⟩
  · dsimp only
    rw [Function.update_apply]
    split
    · rename_i hji
      exact hji ▸ e.at_phase
    · exact ap.at_phase j
  · dsimp only at hj ⊢
    by_cases hji : j = i
    · rw [hji, Function.update_self] at hj
      obtain ⟨env, buf, hcall, ready, -⟩ := e.ready w hj
      exact ⟨env, buf, hji ▸ hcall, ready⟩
    · rw [Function.update_of_ne hji] at hj
      obtain ⟨env, buf, hcall, ready⟩ := ap.ready j w hj
      refine ⟨env, buf, hcall, ready.prepared.of_load e.next_le (e.load _ ready.prepared.data_next
        fun w' hw' => ?_), fun q hq => ?_⟩
      · obtain ⟨hdata, htmp, -⟩ := ap.disjoint j i w w' hji hj hw'
        exact ⟨hdata, htmp⟩
      · rcases e.pointsAt q hq with hq | ⟨w', hw', rfl⟩
        · exact ready.apart q hq
        · obtain ⟨hdata, htmp, -⟩ := ap.disjoint i j w' w (Ne.symm hji) hw' hj
          exact ⟨hdata, htmp⟩
  · dsimp only at hj hj'
    by_cases hji : j = i
    · have hj'i : j' ≠ i := fun h => hne (hji.trans h.symm)
      rw [Function.update_of_ne hj'i] at hj'
      exact hnew j w j' w' hj hji hj'i hj'
    · rw [Function.update_of_ne hji] at hj
      by_cases hj'i : j' = i
      · obtain ⟨hdata, htmp, htmp'⟩ := hnew j' w' j w hj' hj'i hji hj
        exact ⟨hdata.symm, htmp'.symm, htmp.symm⟩
      · rw [Function.update_of_ne hj'i] at hj'
        exact ap.disjoint j j' w w' hne hj hj'

end Interleaved
end Aesd

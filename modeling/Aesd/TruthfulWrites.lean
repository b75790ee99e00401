import Aesd.WriteInterleaving
import Aesd.BufferRefinement
import Mathlib.Data.Fin.VecNotation
import Mathlib.Data.Fintype.Pi

/-! What the results of interleaved writes say about the log. Every call that is behind its
locked region has its bytes in the device once, in the order of the locked regions. A call
that finds the mutex locked by another one after its own release returns an error all the
same; no other error leaves bytes behind. -/
namespace Aesd
open FixedWidth Memory Interleaving

structure Spells (h : Heap) (e : BufferEntry) (l : List UInt8) : Prop where
  size : e.size = l.length
  lt_next : e.buffptr < h.next
  bytes : h.bytesAt e.buffptr 0 e.size = l

structure Contains (k : Kernel) (lines : List (List UInt8)) (pending : List UInt8) : Prop where
  ring : ∃ r : RingBuffer BufferEntry 10, Mirrors k.dev.buffer r ∧
    List.Forall₂ (Spells k.heap) r.live (lines.rtake 10)
  pends : Pends k pending

def Kept (d : AesdDev) (p : Nat) : Prop :=
  (∃ e ∈ d.buffer.live, e.buffptr = p) ∨ (d.isPartial = true ∧ d.partialEntry.buffptr = p)

theorem Contains.init (slots : Vector BufferEntry 10) (unset : Unset) :
    Contains (initModule slots unset) [] [] := by
  refine ⟨⟨emptyRing slots, .fresh slots, ?_⟩, Pends.of_clear rfl⟩
  rw [live_emptyRing]
  exact List.Forall₂.nil

section Contents
variable {k k' : Kernel} {lines : List (List UInt8)} {pending : List UInt8}

theorem Spells.of_load {h h' : Heap} {e : BufferEntry} {l : List UInt8} (sp : Spells h e l)
    (hnext : h.next ≤ h'.next) (hload : ∀ i, h'.load e.buffptr i = h.load e.buffptr i) :
    Spells h' e l :=
  ⟨sp.size, sp.lt_next.trans_le hnext, (Heap.bytesAt_congr fun _ _ => hload _).trans sp.bytes⟩

theorem Spells.of_kept {h' : Heap} {r : RingBuffer BufferEntry 10} (hm : Mirrors k.dev.buffer r)
    {ls : List (List UInt8)} (hlive : List.Forall₂ (Spells k.heap) r.live ls)
    (hnext : k.heap.next ≤ h'.next)
    (hload : ∀ p < k.heap.next, Kept k.dev p → ∀ i, h'.load p i = k.heap.load p i) :
    List.Forall₂ (Spells h') r.live ls := by
  rw [List.forall₂_iff_get] at hlive ⊢
  refine ⟨hlive.1, fun i hi hi' => ?_⟩
  have sp := hlive.2 i hi hi'
  have hmem : r.live.get ⟨i, hi⟩ ∈ k.dev.buffer.live := by
    rw [hm.live]
    exact List.getElem_mem hi
  exact sp.of_load hnext (hload _ sp.lt_next (Or.inl ⟨_, hmem, rfl⟩))

theorem Contains.of_kept (h : Contains k lines pending) (hbuffer : k'.dev.buffer = k.dev.buffer)
    (hpart : k'.dev.isPartial = k.dev.isPartial)
    (hentry : k'.dev.partialEntry = k.dev.partialEntry) (hnext : k.heap.next ≤ k'.heap.next)
    (hload : ∀ p < k.heap.next, Kept k.dev p → ∀ i, k'.heap.load p i = k.heap.load p i) :
    Contains k' lines pending := by
  obtain ⟨⟨r, hm, hlive⟩, pend⟩ := h
  exact ⟨⟨r, by rw [hbuffer]; exact hm, Spells.of_kept hm hlive hnext hload⟩,
    pend.of_load hpart hentry hnext fun hset =>
      hload _ (pend.lt_next hset) (Or.inr ⟨hset, rfl⟩)⟩

theorem Contains.kept_lt (h : Contains k lines pending) {p : Nat} (hp : Kept k.dev p) :
    p < k.heap.next := by
  obtain ⟨⟨r, hm, hlive⟩, pend⟩ := h
  rcases hp with ⟨e, he, rfl⟩ | ⟨hset, rfl⟩
  · rw [hm.live] at he
    obtain ⟨i, hi, rfl⟩ := List.getElem_of_mem he
    exact ((List.forall₂_iff_get.mp hlive).2 i hi (by rw [← hlive.length_eq]; exact hi)).lt_next
  · exact pend.lt_next hset

theorem Contains.section {env : WriteEnv} {c : WriteCall} {buf : List UInt8}
    {s : Kernel × Option BufferEntry} (h : Contains k lines pending) (hs : env.Succeeds)
    (prep : Prepared k.heap c buf) (hapart : ∀ p, Kept k.dev p → p ≠ c.data ∧ p ≠ c.tmp)
    (hlen : buf.length < 2 ^ 63) (hsection : writeSection env c k = some s) :
    k.heap.next ≤ s.1.heap.next ∧
    (∀ p < k.heap.next, p ≠ c.data → p ≠ c.tmp → ∀ i, s.1.heap.load p i = k.heap.load p i) ∧
    s.1.dev.mutex = k.dev.mutex ∧ (∀ p, Kept s.1.dev p → Kept k.dev p ∨ p = c.data) ∧
    ∃ lines' pending', lines'.flatten ++ pending' = lines.flatten ++ pending ++ buf ∧
      Contains s.1 lines' pending' := by
  have hfits : k.dev.isPartial = true → pending.length + buf.length < 2 ^ 32 := by
    intro hpart
    by_contra hge
    rw [writeSection_hangs env prep.count h.pends hpart (by omega)] at hsection
    cases hsection
  obtain ⟨s', ends, hsome, app⟩ := writeSection_appends hs prep h.pends
    (fun hpart => hapart _ (Or.inr ⟨hpart, rfl⟩)) hlen hfits
  rw [hsection, Option.some.injEq] at hsome
  subst hsome
  have hdata : c.data < s.1.heap.next := prep.data_next.trans_le app.next_le
  obtain ⟨⟨r, hm, hlive⟩, -⟩ := h
  have hold := Spells.of_kept hm hlive app.next_le fun p hp hkept =>
    app.others p hp (hapart p hkept).1 (hapart p hkept).2
  have hdev := app.dev
  have hpending := app.pends prep.data_next
  cases ends with
  | true =>
      rw [if_pos rfl] at hdev hpending
      have hpush := hm.addEntry ⟨c.data, (pending ++ buf).length⟩
      refine ⟨app.next_le, app.others, by rw [hdev], ?_, lines ++ [pending ++ buf], [], by simp,
        ⟨_, by rw [hdev]; exact hpush, ?_⟩, hpending⟩
      · rw [hdev]
        rintro p (⟨e, he, rfl⟩ | ⟨hset, -⟩)
        · dsimp only at he
          rw [hpush.live, r.live_push] at he
          rcases List.mem_append.mp (List.mem_of_mem_drop he) with hmem | hnew
          · exact Or.inl (Or.inl ⟨e, by rw [hm.live]; exact hmem, rfl⟩)
          · rw [List.mem_singleton.mp hnew]
            exact Or.inr rfl
        · cases hset
      · have hnew : Spells s.1.heap ⟨c.data, (pending ++ buf).length⟩ (pending ++ buf) :=
          ⟨rfl, hdata, app.bytes⟩
        rw [← RingBuffer.rtake_append_rtake 10 lines]
        exact RingBuffer.forall₂_live_push hold hnew
  | false =>
      rw [if_neg Bool.false_ne_true] at hdev hpending
      refine ⟨app.next_le, app.others, by rw [hdev], ?_, lines, pending ++ buf, by simp,
        ⟨r, by rw [hdev]; exact hm, hold⟩, hpending⟩
      rw [hdev]
      rintro p (⟨e, he, rfl⟩ | ⟨-, rfl⟩)
      · exact Or.inl (Or.inl ⟨e, he, rfl⟩)
      · exact Or.inr rfl

end Contents

section Interleaved
variable {ι : Type} [DecidableEq ι] (env : ι → WriteEnv) (buf : ι → List UInt8)

abbrev WriterState (ι : Type) := State ι (Driver ι) WritePhase

def WritePhase.Recorded (line : List UInt8) (logged : Prop) : WritePhase → Prop
  | written c => c.count = line.length ∧ logged
  | released c => c.count = line.length ∧ logged
  | checked c => c.count = line.length ∧ logged
  | returned ret => 0 ≤ ret → ret = line.length ∧ logged
  | _ => ¬ logged

structure Sound (s : WriterState ι) : Prop where
  exclusive : Exclusive (fun i => (s.party i).Holds) s.shared.kernel.dev.mutex
  nodup : s.shared.log.Nodup
  recorded : ∀ i, (s.party i).Recorded (buf i) (i ∈ s.shared.log)
  contains : ∃ lines pending, lines.flatten ++ pending = (s.shared.log.map buf).flatten ∧
    Contains s.shared.kernel lines pending
  prepared : ∀ i c, (s.party i).ready = some c → Prepared s.shared.kernel.heap c (buf i)
  apart : ∀ i c, (s.party i).ready = some c →
    ∀ p, Kept s.shared.kernel.dev p → p ≠ c.data ∧ p ≠ c.tmp
  disjoint : ∀ i j c c', i ≠ j → (s.party i).ready = some c → (s.party j).ready = some c' →
    c.data ≠ c'.data ∧ c.data ≠ c'.tmp ∧ c.tmp ≠ c'.data

theorem Prepared.of_load {h h' : Heap} {c : WriteCall} {line : List UInt8}
    (prep : Prepared h c line)
    (hnext : h.next ≤ h'.next) (hload : ∀ i, h'.load c.data i = h.load c.data i) :
    Prepared h' c line :=
  { prep with
    bytes := (Heap.bytesAt_congr fun _ _ => hload _).trans prep.bytes
    data_next := prep.data_next.trans_le hnext
    tmp_next := prep.tmp_next.trans_le hnext }

variable {env buf} {s s' : WriterState ι} {i : ι}

theorem Sound.holds_update (so : Sound buf s) {phase : WritePhase}
    (hholds : phase.Holds ↔ (s.party i).Holds) :
    Exclusive (fun j => (Function.update s.party i phase j).Holds) s.shared.kernel.dev.mutex := by
  refine so.exclusive.congr fun j => ?_
  by_cases hij : j = i
  · subst hij
    rw [Function.update_self, hholds]
  · rw [Function.update_of_ne hij]

theorem Sound.recorded_update (so : Sound buf s) {phase : WritePhase} {log : List ι}
    (hphase : phase.Recorded (buf i) (i ∈ log))
    (hlog : ∀ j, j ≠ i → (j ∈ log ↔ j ∈ s.shared.log)) :
    ∀ j, (Function.update s.party i phase j).Recorded (buf j) (j ∈ log) := by
  refine (Function.forall_update_iff s.party
    fun j phase => phase.Recorded (buf j) (j ∈ log)).mpr ⟨hphase, fun j hne => ?_⟩
  rw [hlog j hne]
  exact so.recorded j

theorem ready_update {phase : WritePhase} {j : ι} {c : WriteCall}
    (hj : (Function.update s.party i phase j).ready = some c) :
    (j = i ∧ phase.ready = some c) ∨ (j ≠ i ∧ (s.party j).ready = some c) := by
  by_cases hij : j = i
  · subst hij
    rw [Function.update_self] at hj
    exact Or.inl ⟨rfl, hj⟩
  · rw [Function.update_of_ne hij] at hj
    exact Or.inr ⟨hij, hj⟩

theorem Sound.quiet (so : Sound buf s) {k : Kernel} {phase : WritePhase}
    (hnext : k.heap.next = s.shared.kernel.heap.next)
    (hload : ∀ p i, k.heap.load p i = s.shared.kernel.heap.load p i) (b : Bool)
    (hdev : k.dev = { s.shared.kernel.dev with mutex := b })
    (hready : ∀ c, phase.ready = some c → (s.party i).ready = some c)
    (hrecorded : phase.Recorded (buf i) (i ∈ s.shared.log))
    (hexclusive : Exclusive (fun j => (Function.update s.party i phase j).Holds) b) :
    Sound buf ⟨⟨k, s.shared.log⟩, Function.update s.party i phase⟩ := by
  have hold : ∀ j c, (Function.update s.party i phase j).ready = some c →
      (s.party j).ready = some c := by
    intro j c hj
    rcases ready_update hj with ⟨rfl, hown⟩ | ⟨-, hj⟩
    · exact hready c hown
    · exact hj
  obtain ⟨lines, pending, hbytes, hcontains⟩ := so.contains
  refine ⟨by rw [hdev]; exact hexclusive, so.nodup,
    so.recorded_update hrecorded fun _ _ => Iff.rfl, ⟨lines, pending, hbytes, ?_⟩,
    fun j c hj => ?_, fun j c hj p hp => ?_, fun j j' c c' hne hj hj' => ?_⟩
  · exact hcontains.of_kept (by rw [hdev]) (by rw [hdev]) (by rw [hdev]) hnext.ge
      fun p _ _ => hload p
  · exact (so.prepared j c (hold j c hj)).of_load hnext.ge (hload c.data)
  · refine so.apart j c (hold j c hj) p ?_
    rw [hdev] at hp
    exact hp
  · exact so.disjoint j j' c c' hne (hold j c hj) (hold j' c' hj')

theorem Sound.prolog (so : Sound buf s) (hs : (env i).Succeeds) (hphase : s.party i = .called) :
    Sound buf ⟨⟨(writeProlog (env i) s.shared.kernel (buf i)).2, s.shared.log⟩,
      Function.update s.party i (.prepared (writeProlog (env i) s.shared.kernel (buf i)).1)⟩ := by
  have ext := writeProlog_extends hs s.shared.kernel (buf i)
  have prep := writeProlog_prepared hs s.shared.kernel (buf i)
  have hcall := writeProlog_call hs s.shared.kernel (buf i)
  have hdev := writeProlog_dev (env i) s.shared.kernel (buf i)
  have hnot := so.recorded i
  rw [hphase] at hnot
  obtain ⟨lines, pending, hbytes, hcontains⟩ := so.contains
  have hbound : ∀ j c, (s.party j).ready = some c →
      c.data < s.shared.kernel.heap.next ∧ c.tmp < s.shared.kernel.heap.next := fun j c hj =>
    ⟨(so.prepared j c hj).data_next, (so.prepared j c hj).tmp_next⟩
  generalize writeProlog (env i) s.shared.kernel (buf i) = w at *
  have hready : ∀ j c, (Function.update s.party i (.prepared w.1) j).ready = some c →
      (j = i ∧ c = w.1) ∨ (j ≠ i ∧ (s.party j).ready = some c) := by
    intro j c hj
    exact (ready_update hj).imp_left fun hown => ⟨hown.1, (Option.some.inj hown.2).symm⟩
  refine ⟨?_, so.nodup, so.recorded_update hnot fun _ _ => Iff.rfl,
    ⟨lines, pending, hbytes, ?_⟩, fun j c hj => ?_, fun j c hj p hp => ?_,
    fun j j' c c' hne hj hj' => ?_⟩
  · rw [hdev]
    exact so.holds_update (by rw [hphase]; exact Iff.rfl)
  · exact hcontains.of_kept (by rw [hdev]) (by rw [hdev]) (by rw [hdev]) ext.next_le
      fun p hp _ => ext.load hp
  · rcases hready j c hj with ⟨rfl, rfl⟩ | ⟨-, hj⟩
    · exact prep
    · exact (so.prepared j c hj).of_load ext.next_le (ext.load (hbound j c hj).1)
  · rw [hdev] at hp
    have hlt := hcontains.kept_lt hp
    rcases hready j c hj with ⟨rfl, rfl⟩ | ⟨-, hj⟩
    · rw [hcall]
      dsimp only
      omega
    · exact so.apart j c hj p hp
  · rcases hready j c hj with ⟨rfl, rfl⟩ | ⟨-, hold⟩ <;>
      rcases hready j' c' hj' with ⟨rfl, rfl⟩ | ⟨-, hold'⟩
    · exact absurd rfl hne
    · have hlt := hbound j' c' hold'
      rw [hcall]
      dsimp only
      omega
    · have hlt := hbound j c hold
      rw [hcall]
      dsimp only
      omega
    · exact so.disjoint j j' c c' hne hold hold'

theorem Sound.section (so : Sound buf s) (hs : (env i).Succeeds) (hlen : (buf i).length < 2 ^ 63)
    {c : WriteCall} (hphase : s.party i = .entered c) {r : Kernel × Option BufferEntry}
    (hsection : writeSection (env i) c s.shared.kernel = some r) :
    Sound buf ⟨⟨r.1, s.shared.log ++ [i]⟩, Function.update s.party i (.written c)⟩ := by
  have hown : (s.party i).ready = some c := by rw [hphase]; rfl
  have hnew : i ∉ s.shared.log := by
    have hrec := so.recorded i
    rwa [hphase] at hrec
  have prep := so.prepared i c hown
  obtain ⟨lines, pending, hbytes, hcontains⟩ := so.contains
  obtain ⟨hnext, hload, hmutex, hkept, lines', pending', hbytes', hcontains'⟩ :=
    hcontains.section hs prep (so.apart i c hown) hlen hsection
  have hready : ∀ j c', (Function.update s.party i (.written c) j).ready = some c' →
      j ≠ i ∧ (s.party j).ready = some c' := by
    intro j c' hj
    rcases ready_update hj with ⟨-, hgone⟩ | hother
    · cases hgone
    · exact hother
  refine ⟨?_, ?_, so.recorded_update ⟨prep.count, by simp⟩ fun j hne => by simp [hne],
    ⟨lines', pending', ?_, hcontains'⟩, fun j c' hj => ?_, fun j c' hj p hp => ?_,
    fun j j' c₁ c₂ hne hj hj' => ?_⟩
  · rw [hmutex]
    exact so.holds_update (by rw [hphase]; exact Iff.rfl)
  · rw [List.nodup_append]
    refine ⟨so.nodup, List.nodup_singleton _, fun j hj j' hj' => ?_⟩
    rw [List.mem_singleton.mp hj']
    exact fun heq => hnew (heq ▸ hj)
  · rw [hbytes', hbytes]
    simp
  · obtain ⟨hij, hj⟩ := hready j c' hj
    have hdis := so.disjoint i j c c' (Ne.symm hij) hown hj
    have prep' := so.prepared j c' hj
    exact prep'.of_load hnext
      (hload c'.data prep'.data_next (Ne.symm hdis.1) (Ne.symm hdis.2.2))
  · obtain ⟨hij, hj⟩ := hready j c' hj
    rcases hkept p hp with hp | rfl
    · exact so.apart j c' hj p hp
    · have hdis := so.disjoint i j c c' (Ne.symm hij) hown hj
      exact ⟨hdis.1, hdis.2.1⟩
  · exact so.disjoint j j' c₁ c₂ hne (hready j c₁ hj).2 (hready j' c₂ hj').2

theorem other_holds {phase : WritePhase} : ∀ j, j ≠ i →
    ((Function.update s.party i phase j).Holds ↔ (s.party j).Holds) := by
  intro j hij
  rw [Function.update_of_ne hij]

theorem Sound.step (so : Sound buf s) (hs : ∀ i, (env i).Succeeds)
    (hlen : ∀ i, (buf i).length < 2 ^ 63) (hact : act (writeStep env buf) s i = some s') :
    Sound buf s' := by
  obtain ⟨shared, phase, hstep, rfl⟩ := act_eq_some hact
  have hrec := so.recorded i
  have hexcl := so.exclusive
  cases hphase : s.party i with
  | called =>
      rw [hphase] at hstep
      cases hstep
      exact so.prolog (hs i) hphase
  | prepared c =>
      rw [hphase] at hstep hrec
      cases hstep
      refine so.quiet rfl (fun _ _ => rfl) _ rfl (fun c' hc' => ?_) ?_ (so.holds_update ?_)
      · rw [hphase]
        split at hc' <;> first | exact hc' | cases hc'
      · split
        · exact fun hneg => absurd hneg (by simp [ENOMEM])
        · exact hrec
      · rw [hphase]
        split <;> exact Iff.rfl
  | admitted c =>
      rw [hphase] at hstep hrec
      rw [writeStep] at hstep
      split at hstep
      · cases hstep
      · rename_i hfree
        cases hstep
        rw [Bool.not_eq_true] at hfree
        rw [hfree] at hexcl
        refine so.quiet rfl (fun _ _ => rfl) true rfl (fun c' hc' => ?_) hrec ?_
        · rw [hphase]
          exact hc'
        · refine hexcl.acquire ?_ other_holds
          rw [Function.update_self]
          trivial
  | locked c =>
      have hlock := hexcl.locked_of_holds (i := i) (by rw [hphase]; trivial)
      rw [hphase] at hstep hrec
      rw [writeStep, if_pos hlock] at hstep
      cases hstep
      refine so.quiet rfl (fun _ _ => rfl) _ rfl (fun c' hc' => ?_) hrec (so.holds_update ?_)
      · rw [hphase]
        exact hc'
      · rw [hphase]
        exact Iff.rfl
  | entered c =>
      rw [hphase] at hstep
      obtain ⟨r, hsection, heq⟩ := Option.map_eq_some_iff.mp hstep
      cases heq
      exact so.section (hs i) (hlen i) hphase hsection
  | written c =>
      rw [hphase] at hstep hrec
      cases hstep
      refine so.quiet rfl (fun _ _ => rfl) false rfl (fun c' hc' => by cases hc') hrec ?_
      refine hexcl.release (i := i) (by rw [hphase]; trivial) ?_ other_holds
      rw [Function.update_self]
      exact id
  | released c =>
      rw [hphase] at hstep hrec
      cases hstep
      refine so.quiet rfl (fun _ _ => rfl) _ rfl (fun c' hc' => ?_) ?_ (so.holds_update ?_)
      · split at hc' <;> cases hc'
      · split
        · exact fun hneg => absurd hneg (by simp [ENOMEM])
        · exact hrec
      · rw [hphase]
        split <;> exact Iff.rfl
  | checked c =>
      rw [hphase] at hstep hrec
      cases hstep
      refine so.quiet (Heap.next_free _ _) (Heap.load_free _ _) _ rfl (fun c' hc' => by cases hc')
        (fun _ => ⟨?_, hrec.2⟩) (so.holds_update ?_)
      · rw [hrec.1, toSsize_of_lt (hlen i)]
      · rw [hphase]
        exact Iff.rfl
  | returned ret =>
      rw [hphase] at hstep
      cases hstep

omit [DecidableEq ι] in
theorem Sound.start (slots : Vector BufferEntry 10) (unset : Unset) :
    Sound buf (Driver.start (initModule slots unset)) :=
  ⟨Exclusive.free fun _ => id, List.nodup_nil, fun _ => List.not_mem_nil,
    ⟨[], [], rfl, Contains.init slots unset⟩, (fun _ _ h => by cases h),
    (fun _ _ h => by cases h), (fun _ _ _ _ _ h => by cases h)⟩

end Interleaved

end Aesd

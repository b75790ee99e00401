import Aesd.TruthfulWrites

/-! The block that a write joins lines in. Its length comes from `partial_entry->size` as it is
before the lock is taken; by the time of the locked region other calls may have made the pending
line longer. -/
namespace Aesd
open FixedWidth Memory Interleaving

structure WriteEnv.Allocates (env : WriteEnv) : Prop where
  addEntry : env.addEntry.isSome
  data : env.data.isSome
  tmp : env.tmp.isSome
  joined : env.joined.isSome

/-- The bytes that `copy_from_user` leaves in the data block. -/
def WriteEnv.received (env : WriteEnv) (buf : List UInt8) : List UInt8 :=
  buf.take (buf.length - env.uncopied) ++
    List.replicate (buf.length - (buf.length - env.uncopied)) 0

theorem WriteEnv.length_received (env : WriteEnv) (buf : List UInt8) :
    (env.received buf).length = buf.length := by
  rw [received, List.length_append, List.length_take, List.length_replicate]
  omega

theorem writeProlog_received (env : WriteEnv) (k : Kernel) (buf : List UInt8) :
    writeProlog env k buf = writeProlog { env with uncopied := 0 } k (env.received buf) := by
  simp only [writeProlog, copyFromUser_all, env.length_received buf]
  rfl

section Fits
variable {ι : Type} (line : ι → List UInt8)

/-- A call at its locked region that finds a line pending has room in `tmp` for that line and its
own bytes. -/
def JoinsFit (s : WriterState ι) : Prop :=
  ∀ i c, s.party i = .entered c → s.shared.kernel.dev.isPartial = true →
    s.shared.kernel.dev.partialEntry.size + c.count ≤ (s.shared.kernel.heap.block c.tmp).len

/-- A call that is to leave its bytes pending leaves a line that fits into the blocks of the other
calls that have read `partial_entry->size` and have yet to be through their locked regions. -/
def LeavesRoom (s : WriterState ι) (i : ι) : Prop :=
  ∀ c, s.party i = .entered c → ¬ EndsLine (line i) →
    ∀ j c', j ≠ i → (s.party j).ready = some c' →
      s.shared.kernel.dev.pendingSize + (line i).length + (line j).length ≤
        (s.shared.kernel.heap.block c'.tmp).len

structure Roomy (s : WriterState ι) : Prop where
  small : s.shared.kernel.dev.partialEntry.size < 2 ^ 63
  room : ∀ i c, (s.party i).ready = some c →
    s.shared.kernel.dev.partialEntry.size + (line i).length ≤
      (s.shared.kernel.heap.block c.tmp).len

end Fits

section Section
variable {env : WriteEnv} {c : WriteCall} {k : Kernel} {r : Kernel × Option BufferEntry}

theorem pendingSize_le (d : AesdDev) : d.pendingSize ≤ d.partialEntry.size := by
  rw [AesdDev.pendingSize]
  split
  · exact Nat.le_refl _
  · exact Nat.zero_le _

theorem joinedHeap_len (env : WriteEnv) (c : WriteCall) (entry : BufferEntry) {h : Heap} {p : Nat}
    (hp : p < h.next) : ((joinedHeap env c entry h).block p).len = (h.block p).len := by
  have hne : p ≠ h.next := Nat.ne_of_lt hp
  rw [joinedHeap]
  cases env.joined with
  | none => simp [kmalloc]
  | some init =>
      simp only [kmalloc_some, Heap.len_moves, Heap.len_store]
      rw [Heap.block_alloc_of_ne _ _ _ _ (by simpa using hne)]
      simp

theorem gatherLine_len {w : Int × Heap} (hjoin : gatherLine env c k = some w) {p : Nat}
    (hp : p < k.heap.next) : (w.2.block p).len = (k.heap.block p).len := by
  rcases gatherLine_cases hjoin with ⟨-, rfl⟩ | ⟨-, -, rfl⟩
  · rfl
  · exact joinedHeap_len env c _ hp

theorem writeSection_len (hsection : writeSection env c k = some r) {p : Nat}
    (hp : p < k.heap.next) : (r.1.heap.block p).len = (k.heap.block p).len := by
  obtain ⟨w, hjoin, ⟨-, rfl⟩ | ⟨-, rfl⟩⟩ := writeSection_cases hsection
  · rw [Heap.len_free, Heap.block_check, gatherLine_len hjoin hp]
  · rw [Heap.block_check, Heap.block_check, gatherLine_len hjoin hp]

end Section

section Interleaved
variable {ι : Type} [DecidableEq ι] {env : ι → WriteEnv} {line : ι → List UInt8}
  {s s' : WriterState ι} {i : ι}

omit [DecidableEq ι] in
theorem Sound.section_dev (so : Sound line s) (hs : (env i).Succeeds)
    (hlen : (line i).length < 2 ^ 63) {c : WriteCall} (hphase : s.party i = .entered c)
    {r : Kernel × Option BufferEntry}
    (hsection : writeSection (env i) c s.shared.kernel = some r) :
    ∃ ends : Bool, (line i ≠ [] → (ends = true ↔ EndsLine (line i))) ∧
      s.shared.kernel.dev.pendingSize + (line i).length < 2 ^ 63 ∧
      r.1.dev = if ends then
          { s.shared.kernel.dev with
            isPartial := false
            buffer := s.shared.kernel.dev.buffer.addEntry
              ⟨c.data, s.shared.kernel.dev.pendingSize + (line i).length⟩ }
        else
          { s.shared.kernel.dev with
            isPartial := true
            partialEntry := ⟨c.data, s.shared.kernel.dev.pendingSize + (line i).length⟩ } := by
  have hown : (s.party i).ready = some c := by rw [hphase]; rfl
  have prep := so.prepared i c hown
  have hapart := so.apart i c hown
  obtain ⟨lines, pending, -, hcontains⟩ := so.contains
  have pend := hcontains.pends
  have hpending : s.shared.kernel.dev.pendingSize = pending.length := by
    rw [AesdDev.pendingSize]
    cases hpart : s.shared.kernel.dev.isPartial
    · rw [pend.clear hpart, if_neg Bool.false_ne_true, List.length_nil]
    · rw [pend.size hpart, if_pos rfl]
  have hfits : s.shared.kernel.dev.isPartial = true →
      pending.length + (line i).length < 2 ^ 32 := by
    intro hpart
    by_contra hge
    rw [writeSection_hangs (env i) prep.count pend hpart (by omega)] at hsection
    cases hsection
  obtain ⟨r', ends, hsome, app⟩ := writeSection_appends hs prep pend
    (fun hpart => hapart _ (Or.inr ⟨hpart, rfl⟩)) hlen hfits
  rw [hsection, Option.some.injEq] at hsome
  subst hsome
  refine ⟨ends, fun hne => ?_, ?_, ?_⟩
  · have hwhole : pending ++ line i ≠ [] := by simp [hne]
    rw [endsLine_iff_getLast pending hne hwhole, app.ends_eq hwhole, decide_eq_true_iff]
  · rw [hpending]
    cases hpart : s.shared.kernel.dev.isPartial
    · rw [pend.clear hpart, List.length_nil, Nat.zero_add]
      exact hlen
    · have hlt := hfits hpart
      omega
  · rw [hpending, ← List.length_append]
    exact app.dev

omit [DecidableEq ι] in
theorem Roomy.start (slots : Vector BufferEntry 10) (unset : Unset) :
    Roomy line (Driver.start (initModule slots unset)) :=
  ⟨Nat.two_pow_pos 63, fun _ _ h => by cases h⟩

theorem Roomy.quiet (ro : Roomy line s) (so : Sound line s) {shared : Driver ι} {phase : WritePhase}
    (hentry : shared.kernel.dev.partialEntry = s.shared.kernel.dev.partialEntry)
    (hblock : ∀ p < s.shared.kernel.heap.next,
      (shared.kernel.heap.block p).len = (s.shared.kernel.heap.block p).len)
    (hready : ∀ c, phase.ready = some c → (s.party i).ready = some c) :
    Roomy line ⟨shared, Function.update s.party i phase⟩ := by
  refine ⟨by rw [hentry]; exact ro.small, fun j c hj => ?_⟩
  have hold : (s.party j).ready = some c := by
    rcases ready_update hj with ⟨rfl, hown⟩ | ⟨-, hj⟩
    · exact hready c hown
    · exact hj
  rw [hentry, hblock c.tmp (so.prepared j c hold).tmp_next]
  exact ro.room j c hold

theorem Roomy.prolog (ro : Roomy line s) (so : Sound line s) (hs : (env i).Succeeds)
    (hlen : (line i).length < 2 ^ 63) (log : List ι) :
    Roomy line ⟨⟨(writeProlog (env i) s.shared.kernel (line i)).2, log⟩,
      Function.update s.party i (.prepared (writeProlog (env i) s.shared.kernel (line i)).1)⟩ := by
  have hsmall := ro.small
  refine ⟨hsmall, fun j c hj => ?_⟩
  rcases ready_update hj with ⟨rfl, hown⟩ | ⟨-, hold⟩
  · cases hown
    have hcount := (writeProlog_prepared hs s.shared.kernel (line j)).count
    rw [(writeProlog_allocated hs s.shared.kernel (line j)).tmp_len, hcount,
      toSize_of_lt (by omega), writeProlog_dev]
    omega
  · have ext := writeProlog_extends hs s.shared.kernel (line i)
    rw [ext.same c.tmp (so.prepared j c hold).tmp_next]
    exact ro.room j c hold

theorem Roomy.section (ro : Roomy line s) (so : Sound line s) (hs : (env i).Succeeds)
    (hlen : (line i).length < 2 ^ 63) (hleaves : LeavesRoom line s i) {c : WriteCall}
    (hphase : s.party i = .entered c) {r : Kernel × Option BufferEntry}
    (hsection : writeSection (env i) c s.shared.kernel = some r) (log : List ι) :
    Roomy line ⟨⟨r.1, log⟩, Function.update s.party i (.written c)⟩ := by
  obtain ⟨ends, hends, hsize, hdev⟩ := so.section_dev hs hlen hphase hsection
  have hready : ∀ j c', (Function.update s.party i (.written c) j).ready = some c' →
      j ≠ i ∧ (s.party j).ready = some c' := by
    intro j c' hj
    rcases ready_update hj with ⟨-, hgone⟩ | hother
    · cases hgone
    · exact hother
  have hblock : ∀ j c', (s.party j).ready = some c' →
      (r.1.heap.block c'.tmp).len = (s.shared.kernel.heap.block c'.tmp).len := fun j c' hj =>
    writeSection_len hsection (so.prepared j c' hj).tmp_next
  cases ends with
  | true =>
      rw [if_pos rfl] at hdev
      refine ⟨by rw [hdev]; exact ro.small, fun j c' hj => ?_⟩
      rw [hdev, hblock j c' (hready j c' hj).2]
      exact ro.room j c' (hready j c' hj).2
  | false =>
      rw [if_neg Bool.false_ne_true] at hdev
      refine ⟨by rw [hdev]; exact hsize, fun j c' hj => ?_⟩
      obtain ⟨hne, hold⟩ := hready j c' hj
      have hroom := ro.room j c' hold
      have hle := pendingSize_le s.shared.kernel.dev
      rw [hdev, hblock j c' hold]
      dsimp only
      by_cases hempty : line i = []
      · rw [hempty, List.length_nil]
        omega
      · refine hleaves c hphase (fun h => ?_) j c' hne hold
        exact Bool.false_ne_true ((hends hempty).mpr h)

theorem Roomy.step (ro : Roomy line s) (so : Sound line s) (hs : ∀ i, (env i).Succeeds)
    (hlen : ∀ i, (line i).length < 2 ^ 63) (hleaves : LeavesRoom line s i)
    (hact : act (writeStep env line) s i = some s') : Roomy line s' := by
  obtain ⟨shared, phase, hstep, rfl⟩ := act_eq_some hact
  cases hphase : s.party i with
  | called =>
      rw [hphase] at hstep
      cases hstep
      exact ro.prolog so (hs i) (hlen i) _
  | prepared c =>
      rw [hphase] at hstep
      cases hstep
      refine ro.quiet so rfl (fun _ _ => rfl) fun c' hc' => ?_
      rw [hphase]
      split at hc' <;> first | exact hc' | cases hc'
  | admitted c =>
      rw [hphase, writeStep] at hstep
      split at hstep
      · cases hstep
      · cases hstep
        refine ro.quiet so rfl (fun _ _ => rfl) fun c' hc' => ?_
        rw [hphase]
        exact hc'
  | locked c =>
      rw [hphase] at hstep
      cases hstep
      refine ro.quiet so rfl (fun _ _ => rfl) fun c' hc' => ?_
      rw [hphase]
      split at hc' <;> first | exact hc' | cases hc'
  | entered c =>
      rw [hphase] at hstep
      obtain ⟨r, hsection, heq⟩ := Option.map_eq_some_iff.mp hstep
      cases heq
      exact ro.section so (hs i) (hlen i) hleaves hphase hsection _
  | written c =>
      rw [hphase] at hstep
      cases hstep
      exact ro.quiet so rfl (fun _ _ => rfl) fun c' hc' => by cases hc'
  | released c =>
      rw [hphase] at hstep
      cases hstep
      refine ro.quiet so rfl (fun _ _ => rfl) fun c' hc' => ?_
      split at hc' <;> cases hc'
  | checked c =>
      rw [hphase] at hstep
      cases hstep
      exact ro.quiet so rfl (fun _ _ => Heap.len_free _ _ _) fun c' hc' => by cases hc'
  | returned ret =>
      rw [hphase] at hstep
      cases hstep

omit [DecidableEq ι] in
theorem Roomy.joinsFit (ro : Roomy line s) (so : Sound line s) : JoinsFit s := by
  intro i c hphase _
  have hready : (s.party i).ready = some c := by rw [hphase]; rfl
  rw [(so.prepared i c hready).count]
  exact ro.room i c hready

theorem roomy_of_meets (slots : Vector BufferEntry 10) (unset : Unset)
    (hs : ∀ i, (env i).Succeeds) (hlen : ∀ i, (line i).length < 2 ^ 63) (schedule : List ι)
    (hrun : run (writeStep env line) (Driver.start (initModule slots unset)) schedule = some s)
    (hmeets : Meets (writeStep env line) (LeavesRoom line)
      (Driver.start (initModule slots unset)) schedule) :
    Sound line s ∧ Roomy line s := by
  induction schedule using List.reverseRecOn generalizing s with
  | nil =>
      cases hrun
      exact ⟨Sound.start slots unset, Roomy.start slots unset⟩
  | append_singleton schedule i ih =>
      rw [run_append_singleton] at hrun
      obtain ⟨t, hprev, hlast⟩ := Option.bind_eq_some_iff.mp hrun
      rw [meets_append_singleton _ hprev] at hmeets
      obtain ⟨so, ro⟩ := ih hprev hmeets.1
      exact ⟨so.step hs hlen hlast, ro.step so hs hlen hmeets.2 hlast⟩

theorem exists_entered (env : ι → WriteEnv) (line : ι → List UInt8) {c : WriteCall}
    (hfree : s.shared.kernel.dev.mutex = false)
    (hphase : s.party i = .prepared c ∨ s.party i = .admitted c) :
    ∃ schedule s', run (writeStep env line) s schedule = some s' ∧ s'.party i = .entered c ∧
      s'.shared.kernel = s.shared.kernel.mutexLock := by
  have hlocked : s.shared.kernel.mutexLock.dev.mutex = true := rfl
  obtain ⟨n, halone⟩ : ∃ n, alone (writeStep env line) i n (s.shared, s.party i) =
      some (⟨s.shared.kernel.mutexLock, s.shared.log⟩, .entered c) := by
    rcases hphase with hphase | hphase
    · refine ⟨3, ?_⟩
      simp only [alone, writeStep, hphase, hfree, hlocked, Bool.false_eq_true, if_true, if_false,
        Option.bind_some]
    · refine ⟨2, ?_⟩
      simp only [alone, writeStep, hphase, hfree, hlocked, Bool.false_eq_true, if_true, if_false,
        Option.bind_some]
  have hrun := run_replicate (writeStep env line) i n s.shared s.party (s.party i)
  rw [Function.update_eq_self, halone] at hrun
  exact ⟨_, _, hrun, Function.update_self i _ s.party, rfl⟩

/-- Where another call is left too little room, the one in the locked region unlocks, and the other
goes on to its own. -/
theorem exists_not_joinsFit (so : Sound line s) (ro : Roomy line s) (hs : ∀ i, (env i).Succeeds)
    (hlen : ∀ i, (line i).length < 2 ^ 63) (hleaves : ¬ LeavesRoom line s i)
    (hact : act (writeStep env line) s i = some s') :
    ∃ more t, run (writeStep env line) s' more = some t ∧ ¬ JoinsFit t := by
  rw [LeavesRoom] at hleaves
  push Not at hleaves
  obtain ⟨c, hphase, hopen, j, c', hne, hready, hroom⟩ := hleaves
  obtain ⟨shared, phase, hstep, rfl⟩ := act_eq_some hact
  rw [hphase] at hstep
  obtain ⟨r, hsection, heq⟩ := Option.map_eq_some_iff.mp hstep
  cases heq
  have hempty : line i ≠ [] := by
    intro hempty
    have hold := ro.room j c' hready
    have hle := pendingSize_le s.shared.kernel.dev
    rw [hempty, List.length_nil] at hroom
    omega
  obtain ⟨ends, hends, -, hdev⟩ := so.section_dev (hs i) (hlen i) hphase hsection
  have hfalse : ends = false := Bool.eq_false_iff.mpr fun h => hopen ((hends hempty).mp h)
  rw [hfalse, if_neg Bool.false_ne_true] at hdev
  have hwaiting : s.party j = .prepared c' ∨ s.party j = .admitted c' := by
    have hholds : ¬ (s.party j).Holds := fun hj =>
      hne (so.exclusive.unique j i hj (by rw [hphase]; trivial))
    cases hj : s.party j <;> rw [hj] at hready hholds <;> cases hready
    · exact Or.inl rfl
    · exact Or.inr rfl
    · exact absurd trivial hholds
    · exact absurd trivial hholds
  obtain ⟨u, hunlock, hkernel, hparty⟩ : ∃ u, act (writeStep env line)
      ⟨⟨r.1, s.shared.log ++ [i]⟩, Function.update s.party i (.written c)⟩ i = some u ∧
      u.shared.kernel = r.1.mutexUnlock ∧ u.party j = s.party j := by
    refine ⟨⟨⟨r.1.mutexUnlock, s.shared.log ++ [i]⟩, Function.update s.party i (.released c)⟩,
      ?_, rfl, Function.update_of_ne hne _ _⟩
    rw [act]
    dsimp only
    rw [Function.update_self, writeStep, Option.map_some, Function.update_idem]
  obtain ⟨more, t, hrun, hentered, hlocked⟩ := exists_entered env line (i := j) (s := u) (c := c')
    (by rw [hkernel]; rfl) (by rw [hparty]; exact hwaiting)
  refine ⟨i :: more, t, ?_, fun hfit => ?_⟩
  · exact (congrArg (Option.bind · fun u => run (writeStep env line) u more) hunlock).trans hrun
  · rw [hkernel] at hlocked
    have hset : t.shared.kernel.dev.isPartial = true := by
      rw [hlocked]
      simp only [Kernel.mutexLock, Kernel.mutexUnlock, hdev]
    have hcount := (so.prepared j c' hready).count
    have hover := hfit j c' hentered hset
    rw [hlocked] at hover
    simp only [Kernel.mutexLock, Kernel.mutexUnlock, hdev] at hover
    rw [writeSection_len hsection (so.prepared j c' hready).tmp_next] at hover
    omega

theorem exists_not_joinsFit_of_not_meets (slots : Vector BufferEntry 10) (unset : Unset)
    (hs : ∀ i, (env i).Succeeds) (hlen : ∀ i, (line i).length < 2 ^ 63) (schedule : List ι)
    (hrun : run (writeStep env line) (Driver.start (initModule slots unset)) schedule = some s)
    (hmeets : ¬ Meets (writeStep env line) (LeavesRoom line)
      (Driver.start (initModule slots unset)) schedule) :
    ∃ pre i more t, pre ++ [i] <+: schedule ∧
      run (writeStep env line) (Driver.start (initModule slots unset)) (pre ++ i :: more) =
        some t ∧ ¬ JoinsFit t := by
  induction schedule using List.reverseRecOn generalizing s with
  | nil => exact absurd (fun pre i hpre => by simp at hpre) hmeets
  | append_singleton schedule i ih =>
      have hwhole := hrun
      rw [run_append_singleton] at hrun
      obtain ⟨t, hprev, hlast⟩ := Option.bind_eq_some_iff.mp hrun
      rw [meets_append_singleton _ hprev] at hmeets
      by_cases hbefore : Meets (writeStep env line) (LeavesRoom line)
          (Driver.start (initModule slots unset)) schedule
      · obtain ⟨so, ro⟩ := roomy_of_meets slots unset hs hlen schedule hprev hbefore
        obtain ⟨more, u, hmore, hfull⟩ :=
          exists_not_joinsFit so ro hs hlen (fun h => hmeets ⟨hbefore, h⟩) hlast
        refine ⟨schedule, i, more, u, List.prefix_refl _, ?_, hfull⟩
        rw [List.append_cons, run_append, hwhole, Option.bind_some,
          hmore]
      · obtain ⟨pre, j, more, u, hpre, hmore, hfull⟩ := ih hprev hbefore
        exact ⟨pre, j, more, u, hpre.trans (List.prefix_append _ _), hmore, hfull⟩

end Interleaved

section Calls
variable {ι : Type} [DecidableEq ι] (env : ι → WriteEnv) (buf : ι → List UInt8)

omit [DecidableEq ι] in
theorem writeStep_received : writeStep env buf = writeStep (fun i => { env i with uncopied := 0 })
    (fun i => (env i).received (buf i)) := by
  funext i s p
  cases p with
  | called => simp only [writeStep, writeProlog_received (env i)]
  | _ => rfl

/-- Room for the joined line. It is there in every state of a run in which each call that leaves its
bytes pending leaves a line that fits into the blocks of the calls that are on their way to their
locked regions; and a run goes on from a step that does not, to a state where it is not. -/
theorem joinsFit_of_meets (slots : Vector BufferEntry 10) (unset : Unset)
    (hs : ∀ i, (env i).Allocates) (hlen : ∀ i, (buf i).length < 2 ^ 63) (schedule : List ι)
    {s : WriterState ι}
    (hrun : run (writeStep env buf) (Driver.start (initModule slots unset)) schedule = some s) :
    (Meets (writeStep env buf) (LeavesRoom fun i => (env i).received (buf i))
      (Driver.start (initModule slots unset)) schedule → JoinsFit s) ∧
    (¬ Meets (writeStep env buf) (LeavesRoom fun i => (env i).received (buf i))
      (Driver.start (initModule slots unset)) schedule →
      ∃ pre i more t, pre ++ [i] <+: schedule ∧
        run (writeStep env buf) (Driver.start (initModule slots unset)) (pre ++ i :: more) =
          some t ∧ ¬ JoinsFit t) := by
  have hs' : ∀ i, ({ env i with uncopied := 0 } : WriteEnv).Succeeds := fun i =>
    ⟨(hs i).addEntry, (hs i).data, (hs i).tmp, (hs i).joined, rfl⟩
  have hlen' : ∀ i, ((env i).received (buf i)).length < 2 ^ 63 := fun i => by
    rw [(env i).length_received]
    exact hlen i
  rw [writeStep_received env buf] at hrun ⊢
  refine ⟨fun hmeets => ?_, exists_not_joinsFit_of_not_meets slots unset hs' hlen' schedule hrun⟩
  obtain ⟨so, ro⟩ := roomy_of_meets slots unset hs' hlen' schedule hrun hmeets
  exact ro.joinsFit so

end Calls

def lineAndFragment : Bool → List UInt8
  | false => [120, 10]
  | true => [97]

def fragmentFirst : List Bool := List.replicate 8 true ++ List.replicate 4 false

theorem meets_fragmentFirst : Meets (writeStep (fun _ => .zeroed) lineAndFragment)
    (LeavesRoom fun i => WriteEnv.zeroed.received (lineAndFragment i))
    (Driver.start (initModule CircularBuffer.init.entry .zeroed)) fragmentFirst := by
  have hcalled : ∀ n < 8, (run (writeStep (fun _ => .zeroed) lineAndFragment)
      (Driver.start (initModule CircularBuffer.init.entry .zeroed)) (fragmentFirst.take n)).map
        (fun s => s.party false) = some .called := by decide +kernel
  intro pre i hpre t ht c hphase hopen j c' hne hready
  have hprefix : pre = fragmentFirst.take pre.length :=
    List.prefix_iff_eq_take.mp ((List.prefix_append _ _).trans hpre)
  cases i with
  | false => exact absurd (by decide) hopen
  | true =>
      obtain rfl : j = false := by
        cases j
        · rfl
        · exact absurd rfl hne
      have hlt : pre.length < 8 := by
        by_contra hge
        have hle := hpre.length_le
        have hlast := hpre.getElem (show pre.length < (pre ++ [true]).length by simp)
        simp only [List.getElem_concat_length] at hlast
        have hsecond : ∀ n < 12, 8 ≤ n → fragmentFirst[n]? = some false := by decide
        rw [List.length_append, List.length_singleton] at hle
        have hfalse := hsecond pre.length hle (Nat.not_lt.mp hge)
        rw [List.getElem?_eq_getElem hle, ← hlast] at hfalse
        cases hfalse
      have hstate := hcalled pre.length hlt
      rw [← hprefix, ht, Option.map_some, Option.some.injEq] at hstate
      rw [hstate] at hready
      cases hready

theorem joinsFit_of_meets_in_turn :
    ∃ s, run (writeStep (fun _ => .zeroed) lineAndFragment)
        (Driver.start (initModule CircularBuffer.init.entry .zeroed)) fragmentFirst = some s ∧
      JoinsFit s := by
  have hrun : (run (writeStep (fun _ => .zeroed) lineAndFragment)
      (Driver.start (initModule CircularBuffer.init.entry .zeroed)) fragmentFirst).isSome = true := by
    decide +kernel
  obtain ⟨s, hs⟩ := Option.isSome_iff_exists.mp hrun
  exact ⟨s, hs, (joinsFit_of_meets (fun _ => .zeroed) lineAndFragment CircularBuffer.init.entry
    .zeroed (fun _ => ⟨rfl, rfl, rfl, rfl⟩) (by decide) _ hs).1 meets_fragmentFirst⟩

/-- The fragment is written after the other call has allocated `tmp` for its own two bytes, and the
third of the joined line is stored behind it. -/
theorem not_joinsFit_fragment_between :
    ∃ s, run (writeStep (fun _ => .zeroed) lineAndFragment)
        (Driver.start (initModule CircularBuffer.init.entry .zeroed))
        ([false] ++ List.replicate 8 true ++ List.replicate 3 false) = some s ∧ ¬ JoinsFit s ∧
      (act (writeStep (fun _ => .zeroed) lineAndFragment) s false).map
        (fun t => t.shared.kernel.heap.fault) = some true := by
  have hend : (run (writeStep (fun _ => .zeroed) lineAndFragment)
      (Driver.start (initModule CircularBuffer.init.entry .zeroed))
      ([false] ++ List.replicate 8 true ++ List.replicate 3 false)).map (fun s =>
        (s.party false, s.shared.kernel.dev.isPartial, s.shared.kernel.dev.partialEntry.size,
          (s.shared.kernel.heap.block 3).len, (act (writeStep (fun _ => .zeroed) lineAndFragment) s
            false).map (fun t => t.shared.kernel.heap.fault))) =
      some (.entered ⟨1, 2, 3, 2⟩, true, 1, 2, some true) := by decide +kernel
  obtain ⟨s, hrun, hvalues⟩ := Option.map_eq_some_iff.mp hend
  simp only [Prod.mk.injEq] at hvalues
  obtain ⟨hparty, hpartial, hsize, hlen, hfault⟩ := hvalues
  refine ⟨s, hrun, fun hfit => ?_, hfault⟩
  have hover := hfit false ⟨1, 2, 3, 2⟩ hparty hpartial
  rw [hsize, hlen] at hover
  exact absurd hover (by decide)

end Aesd

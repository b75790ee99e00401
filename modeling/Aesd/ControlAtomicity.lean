import Aesd.ControlOrder

/-! Control calls against reads and writes on other files. Neither `aesd_flush` nor
`aesd_adjust_file_offset` takes the mutex, so that a write can add a line between two assignments
of a flush, and a flush can come between the two assignments of a seek command. As long as no
such step is taken, what the calls leave once all have returned is what some order of whole calls
leaves. -/
namespace Aesd
open FixedWidth Memory Interleaving

section Atomic
variable {ι : Type} (call : ι → FopsCall)

/-- Between `partial = false` and `total_size = 0` of a flush, a line may be added as long as all
such flushes have yet to make `full = false` and have dropped no pending line: the write then
comes first. No seek command may stand between its two assignments, and a pending seek may only
be one that such a flush has yet to clear. -/
structure Overtakes (dropped : ι → Prop) (s : State ι Kernel CallPhase) : Prop where
  late : ∀ j, (s.party j).Resetting → Late dropped s.party j
  positioned : ∀ j newPos, s.party j ≠ .positioned newPos
  seek : s.shared.dev.seek = true → ∃ j, s.party j = .resetting 2 ∨ s.party j = .resetting 3

/-- The step does not mix two calls. A flush does not clear the stored position between the two
assignments of a seek command, nor `total_size` when a seek command has added it up as the slot
behind the last one; no bytes are joined to a line that a flush has cut off and not yet dropped;
a line is added beside a flush only where the write may come first, and changes no size that a
seek command has added up and not yet stored. -/
structure Unmixed (dropped : ι → Prop) (s : State ι Kernel CallPhase) (i : ι) : Prop where
  cleared : call i = .flush → s.party i = .resetting 2 →
    ∀ j newPos, s.party j ≠ .positioned newPos
  counted : call i = .flush → s.party i = .resetting 7 →
    ∀ j, Added (call j) (s.party j) maxWriteOperationsSupported →
      s.shared.dev.buffer.totalSize = 0
  stored : ∀ target newPos, call i = .seekto target → s.party i = .summed newPos →
    maxWriteOperationsSupported < target.writeCmd → (∃ j, (s.party j).Resetting) →
      s.shared.dev.buffer.totalSize = 0
  joined : ∀ env buf w, call i = .write env buf → s.party i = .prepared w →
    s.shared.dev.isPartial = true → ∀ j, s.party j ≠ .resetting 1
  added : ∀ env buf w, call i = .write env buf → s.party i = .prepared w → EndsLine buf →
    (∃ j, (s.party j).Resetting) → Overtakes dropped s
  summed : ∀ env buf w, call i = .write env buf → s.party i = .prepared w → EndsLine buf → ∀ j,
    (Added (call j) (s.party j) s.shared.dev.buffer.inOffs →
      (s.shared.dev.buffer.slot s.shared.dev.buffer.inOffs).size =
        s.shared.dev.pendingSize + buf.length) ∧
    (Added (call j) (s.party j) maxWriteOperationsSupported → s.shared.dev.buffer.full = true)

/-- The flush comes to `partial = false` in the course of the run with a line pending. -/
def Drops [DecidableEq ι] (k₀ : Kernel) (schedule : List ι) (j : ι) : Prop :=
  call j = .flush ∧ ∃ pre t, pre ++ [j] <+: schedule ∧
    run (fun i k => (call i).step k) (callsStart ι k₀) pre = some t ∧
    t.party j = .resetting 1 ∧ t.shared.dev.isPartial = true

/-- The calls made have left what some order of them leaves when made one after the other, and the
counters are right. -/
structure Atomic (k₀ : Kernel) (s : State ι Kernel CallPhase) : Prop where
  serial : ∃ order : List ι, order.Nodup ∧ (∀ i, i ∈ order ↔ (s.party i).Done) ∧
    ∃ k, serially call k₀ order = some k ∧ k.state = s.shared.state
  totalSize : s.shared.state.totalSize = (s.shared.state.live.map List.length).sum
  full : s.shared.state.full = true → s.shared.state.inOffs = s.shared.state.outOffs

variable {call}

theorem pending_contents {k : Kernel} ( hpartial : k.dev.isPartial = false) :
    k.contents.lines.pending = none := by
  rw [Kernel.contents]
  exact if_neg (by rw [ hpartial]; exact Bool.false_ne_true)

theorem Ordered.act [DecidableEq ι] {dropped : ι → Prop} {a₀ a' : Contents}
    {s : State ι Kernel CallPhase} {seeks front tail : List ι} {i : ι} {p' : CallPhase}
    (o : Ordered call dropped a₀ s.shared.contents s.party seeks front tail) (ap : Apart call s)
    (hfits : LineFits call s i) (hu : Unmixed call dropped s i)
    (hdropped : call i = .flush → s.party i = .resetting 1 → ¬ dropped i →
      s.shared.dev.isPartial = false)
    (does : (call i).Does s.shared.contents (s.party i) a' p') :
    ∃ seeks' front' tail', Ordered call dropped a₀ a' (Function.update s.party i p') seeks' front'
      tail' := by
  have hat := ap.at_phase i
  generalize hcall : call i = c at does hat
  generalize hp : s.party i = p at does hat
  cases does with
  | quiet hq hq' =>
      rw [← hp] at hq
      exact ⟨seeks, front, tail, o.keep hq.unplaced hq'.unplaced (hq'.summed _ _)⟩
  | assign made =>
      obtain ⟨tail', ho⟩ := o.assign hcall hp hat.flush_of_resetting.2
        (fun h2 => hu.cleared hcall (hp.trans (by rw [h2])))
        (fun h1 hd => pending_contents (hdropped hcall (hp.trans (by rw [h1])) hd))
        (fun h7 => hu.counted hcall (hp.trans (by rw [h7])))
      exact ⟨seeks, front, tail', ho⟩
  | start target =>
      have hold : (s.party i).Unplaced := by rw [hp]; trivial
      refine ⟨seeks, front, tail, o.keep hold trivial ?_⟩
      rw [hcall]
      exact ⟨Nat.zero_le _, rfl⟩
  | add target n newPos hn =>
      have hold : (s.party i).Unplaced := by rw [hp]; trivial
      have hsum := o.summed i
      rw [hcall, hp] at hsum
      refine ⟨seeks, front, tail, o.keep hold trivial ?_⟩
      rw [hcall]
      refine ⟨hn, ?_⟩
      rw [hsum.2]
      rfl
  | sum target n newPos hn =>
      have hold : (s.party i).Unplaced := by rw [hp]; trivial
      have hsum := o.summed i
      rw [hcall, hp] at hsum
      refine ⟨seeks, front, tail, o.keep hold trivial ?_⟩
      rw [hcall, hsum.2, Nat.le_antisymm hsum.1 (Nat.le_of_not_lt hn)]
      rfl
  | position target newPos => exact ⟨_, _, _, o.store hcall hp (hu.stored target newPos hcall hp)⟩
  | seek target newPos => exact ⟨_, _, _, o.raise hcall hp⟩
  | read env ubuf count fPos => exact ⟨_, _, _, o.read ap.at_phase hcall hp⟩
  | write env buf w =>
      have hfit : (call i).Fits s.shared.contents.lines := by
        rw [hcall, FopsCall.Fits, pendingSize_contents]
        exact hfits env buf w hcall hp
      have hjoined : s.shared.contents.lines.pending.isSome = true →
          ∀ j, s.party j ≠ .resetting 1 := by
        intro hset
        refine hu.joined env buf w hcall hp ?_
        rw [← Bool.not_eq_false]
        intro hpartial
        rw [pending_contents hpartial] at hset
        cases hset
      have hleaves : EndsLine buf → ∀ j, LeavesSums s.shared.contents.lines
          ((s.shared.contents.lines.pending.getD []).length + buf.length) (call j)
            (s.party j) := by
        intro hends j
        rw [pendingSize_contents, LeavesSums, length_line_contents]
        exact hu.summed env buf w hcall hp hends j
      by_cases hover : EndsLine buf ∧ ∃ j, (s.party j).Resetting
      · obtain ⟨hends, hsome⟩ := hover
        have hopen := hu.added env buf w hcall hp hends hsome
        obtain ⟨tail', ho⟩ := o.defer ap.at_phase hcall hp hfit ap.placed.inOffs_lt hends hjoined
          (hleaves hends) hopen.late hsome hopen.positioned hopen.seek
        exact ⟨seeks, [], tail', ho⟩
      · refine ⟨_, _, _, o.write hcall hp hfit ap.placed.inOffs_lt hjoined (fun hends j made hj => ?_)
          hleaves⟩
        by_contra h2
        exact hover ⟨hends, j, CallPhase.resetting_iff.mpr ⟨made, hj, Nat.le_of_not_lt h2⟩⟩

section Returned
variable {a₀ a : Contents} {party : ι → CallPhase} {seeks front tail : List ι}

theorem FopsCall.IsSeek.not_changes {c : FopsCall} (h : c.IsSeek) : c.changes = false := by
  cases c with
  | seekto target => rfl
  | _ => cases h

theorem FopsCall.At.isSeek {c : FopsCall} {p : CallPhase} (h : c.At p) (hp : p.Sought) :
    c.IsSeek := by
  cases p <;> cases c <;> trivial

theorem FopsCall.At.not_isSeek {c : FopsCall} {p : CallPhase} (h : c.At p) (hp : p.Logged) :
    ¬ c.IsSeek := by
  cases c with
  | seekto target => cases p <;> first | exact h.elim | exact hp.elim
  | _ => exact id

theorem filter_changes_of_seeks (hseeks : ∀ i ∈ seeks, (call i).IsSeek) :
    (seeks.filter fun i => (call i).changes) = [] := by
  refine List.filter_eq_nil_iff.mpr fun i hi => ?_
  rw [(hseeks i hi).not_changes]
  exact Bool.false_ne_true

/-- What stands before the last seek command `h`: the other ones and the reads, which leave the
lines alone, and the writes and flushes that had their places when it stored its position. -/
def beforeSeek (call : ι → FopsCall) (older front tail : List ι) : List ι :=
  older ++ ((front ++ tail).filter fun i => !(call i).changes) ++
    front.filter fun i => (call i).changes

theorem perm_beforeSeek (call : ι → FopsCall) (h : ι) (older front tail : List ι) :
    (beforeSeek call older front tail ++ h :: tail.filter fun i => (call i).changes).Perm
      (h :: older ++ (front ++ tail)) := by
  refine List.perm_middle.trans (List.Perm.cons h ?_)
  rw [beforeSeek, List.append_assoc, List.append_assoc, ← List.filter_append]
  refine List.Perm.append_left older (List.perm_append_comm.trans ?_)
  exact List.filter_append_perm _ _

theorem filter_changes_beforeSeek {older : List ι} (holder : ∀ i ∈ older, (call i).IsSeek)
    (front tail : List ι) :
    ((beforeSeek call older front tail).filter fun i => (call i).changes) =
      front.filter fun i => (call i).changes := by
  have hreads : (((front ++ tail).filter fun i => !(call i).changes).filter
      fun i => (call i).changes) = [] := by
    refine List.filter_eq_nil_iff.mpr fun i hi => ?_
    simpa using (List.mem_filter.mp hi).2
  rw [beforeSeek, List.filter_append, List.filter_append, filter_changes_of_seeks holder, hreads,
    List.nil_append, List.nil_append, List.filter_filter]
  simp only [Bool.and_self]

theorem Owned.serial {h : ι} {older : List ι}
    (own : Owned call a₀ a party (h :: older) front tail)
    (hseeks : ∀ i ∈ h :: older, (call i).IsSeek) (hlog : ∀ i ∈ front ++ tail, ¬ (call i).IsSeek)
    (hflush : ∀ i ∈ tail, call i ≠ .flush) :
    let order := beforeSeek call older front tail ++ h :: tail.filter fun i => (call i).changes
    (order.filter fun i => (call i).changes) =
        ((front ++ tail).filter fun i => (call i).changes) ∧
      (after call a₀ order).seek = true ∧ (after call a₀ order).position = a.position := by
  rw [List.forall_mem_cons] at hseeks
  obtain ⟨hh, holder⟩ := hseeks
  have hrest : ∀ i ∈ tail.filter fun i => (call i).changes, ∃ env buf, call i = .write env buf := by
    intro i hi
    obtain ⟨hi, hchanges⟩ := List.mem_filter.mp hi
    cases hcall : call i with
    | flush => exact absurd hcall (hflush i hi)
    | write env buf => exact ⟨env, buf, rfl⟩
    | _ => rw [hcall] at hchanges; cases hchanges
  have hlogrest : ∀ i ∈ tail.filter fun i => (call i).changes, ¬ (call i).IsSeek := fun i hi =>
    hlog i (List.mem_append_right _ (List.mem_filter.mp hi).1)
  have hflushrest : ∀ i ∈ tail.filter fun i => (call i).changes, call i ≠ .flush := fun i hi =>
    hflush i (List.mem_filter.mp hi).1
  have hlines : (after call a₀ (beforeSeek call older front tail)).lines =
      (after call a₀ front).lines := by
    rw [lines_after, lines_after, ← linesAfter_filter, filter_changes_beforeSeek holder,
      linesAfter_filter]
  have hstored : ((call h).act (after call a₀ (beforeSeek call older front tail))).seek = true ∧
      ((call h).act (after call a₀ (beforeSeek call older front tail))).position =
        a.position := by
    rw [own.position, storedPosition]
    cases hcall : call h with
    | seekto target =>
        refine ⟨rfl, ?_⟩
        simp only [FopsCall.act, Contents.seekto, hlines]
    | _ => rw [hcall] at hh; cases hh
  have happend : after call a₀ (beforeSeek call older front tail ++
        h :: tail.filter fun i => (call i).changes) =
      after call ((call h).act (after call a₀ (beforeSeek call older front tail)))
        (tail.filter fun i => (call i).changes) := by
    rw [after, List.foldl_append, List.foldl_cons]
    rfl
  refine ⟨?_, ?_, ?_⟩
  · rw [List.filter_append, filter_changes_beforeSeek holder, List.filter_append,
      List.filter_cons_of_neg (by rw [hh.not_changes]; exact Bool.false_ne_true),
      List.filter_filter]
    simp only [Bool.and_self]
  · rw [happend, seek_after hlogrest]
    exact ⟨hstored.1, not_cleared_of_writes hrest _⟩
  · rw [happend, position_after hlogrest hflushrest, hstored.2]

theorem Ordered.serial [DecidableEq ι] {dropped : ι → Prop}
    (o : Ordered call dropped a₀ a party seeks front tail)
    (hat : ∀ j, (call j).At (party j)) (hdone : ∀ j, party j = .called ∨ (party j).Done) :
    ∃ order : List ι, order.Perm (seeks ++ (front ++ tail)) ∧
      (order.filter fun i => (call i).changes) =
        ((front ++ tail).filter fun i => (call i).changes) ∧
      (after call a₀ order).seek = a.seek ∧
      (a.seek = true → (after call a₀ order).position = a.position) := by
  have hnot : ∀ {j p}, party j = p → p ≠ .called → p.Done := by
    intro j p hj hcalled
    rw [← hj] at hcalled ⊢
    exact (hdone j).resolve_left hcalled
  have hseeks : ∀ i ∈ seeks, (call i).IsSeek := fun i hi =>
    (hat i).isSeek ((o.booked.mem_seeks i).mp hi)
  have hlog : ∀ i ∈ front ++ tail, ¬ (call i).IsSeek := fun i hi =>
    (hat i).not_isSeek ((o.booked.mem_log i).mp hi)
  cases hset : a.seek with
  | false =>
      refine ⟨seeks ++ (front ++ tail), .refl _, ?_, ?_, fun h => absurd h Bool.false_ne_true⟩
      · rw [List.filter_append, filter_changes_of_seeks hseeks, List.nil_append]
      · have hlines : linesAfter call a₀.lines seeks = a₀.lines := by
          rw [← linesAfter_filter, filter_changes_of_seeks hseeks]
          rfl
        rw [after, List.foldl_append, ← after, ← after, Bool.eq_false_iff, ne_eq, seek_after hlog,
          lines_after, hlines, not_and, not_not]
        intro hseek
        rcases o.seek.taken with h | ⟨j, newPos, hj⟩ | ⟨hnil, h⟩ | h
        · exact absurd (hset.symm.trans h) Bool.false_ne_true
        · exact (hnot hj CallPhase.noConfusion).elim
        · rw [hnil] at hseek
          exact absurd (h.symm.trans hseek) Bool.false_ne_true
        · exact h
  | true =>
      have own : Owned call a₀ a party seeks front tail := by
        rcases o.seek.owned (Or.inl hset) with own | ⟨-, j, hj⟩
        · exact own
        · rcases hj with hj | hj <;> exact (hnot hj CallPhase.noConfusion).elim
      have hflush : ∀ j ∈ tail, call j ≠ .flush := fun j hj hcall =>
        hnot (own.flushes j hj hcall) CallPhase.noConfusion
      cases seeks with
      | nil =>
          obtain rfl := o.seek.front_nil rfl
          obtain ⟨hset₀, hclear⟩ := o.seek.untaken rfl hflush hset
          refine ⟨tail, .refl _, rfl, (seek_after hlog a₀).mpr ⟨hset₀, hclear⟩, fun _ => ?_⟩
          rw [own.position]
          exact position_after hlog hflush a₀
      | cons h older =>
          obtain ⟨hfilter, hseek, hposition⟩ := own.serial hseeks hlog hflush
          exact ⟨_, perm_beforeSeek call h older front tail, hfilter, hseek, fun _ => hposition⟩

theorem Booked.mem_done {log order : List ι} (b : Booked party seeks log)
    (hdone : ∀ j, party j = .called ∨ (party j).Done) (hperm : order.Perm (seeks ++ log)) (i : ι) :
    i ∈ order ↔ (party i).Done := by
  rw [hperm.mem_iff, List.mem_append, b.mem_seeks, b.mem_log]
  constructor
  · intro h
    refine (hdone i).resolve_left fun hcalled => ?_
    rw [hcalled] at h
    exact h.elim id id
  · exact fun h => h.logged_or_sought.symm

theorem Booked.nodup {log order : List ι} (b : Booked party seeks log)
    (hperm : order.Perm (seeks ++ log)) : order.Nodup := by
  refine hperm.nodup_iff.mpr (List.nodup_append.mpr ⟨b.nodup_seeks, b.nodup_log, ?_⟩)
  rintro i hi _ hi' rfl
  have hsought := (b.mem_seeks i).mp hi
  have hlogged := (b.mem_log i).mp hi'
  generalize party i = p at hsought hlogged
  cases p <;> first | exact hsought.elim | exact hlogged.elim

end Returned

def InSomeOrder [DecidableEq ι] (call : ι → FopsCall) (dropped : ι → Prop) (k₀ : Kernel)
    (s : State ι Kernel CallPhase) : Prop :=
  Apart call s ∧ ∃ seeks front tail,
    Ordered call dropped k₀.contents s.shared.contents s.party seeks front tail

end Atomic

/-- Control calls are atomic in every run whose steps all keep the calls unmixed: once all calls
have returned, the device is as some order of the same calls leaves it. -/
theorem atomic_of_unmixed {ι : Type} [DecidableEq ι] (call : ι → FopsCall)
    (hvalid : ∀ i, (call i).Valid) {slots : Vector BufferEntry 10} {unset : Unset} {k₀ : Kernel}
    (reached : Reached (initModule slots unset) k₀) (schedule : List ι)
    {s : State ι Kernel CallPhase}
    (hrun : run (fun i k => (call i).step k) (callsStart ι k₀) schedule = some s)
    (hfits : Meets (fun i k => (call i).step k) (LineFits call) (callsStart ι k₀) schedule)
    (hunmixed : Meets (fun i k => (call i).step k) (Unmixed call (Drops call k₀ schedule))
      (callsStart ι k₀) schedule)
    (hdone : ∀ i, s.party i = .called ∨ (s.party i).Done) : Atomic call k₀ s := by
  let dropped := Drops call k₀ schedule
  have hmeets : Meets (fun i k => (call i).step k)
      (fun s i => LineFits call s i ∧ Unmixed call dropped s i ∧ (call i = .flush →
        s.party i = .resetting 1 → ¬ dropped i → s.shared.dev.isPartial = false))
      (callsStart ι k₀) schedule := by
    intro pre i hpre t ht
    refine ⟨hfits pre i hpre t ht, hunmixed pre i hpre t ht, fun hcall hp hd => ?_⟩
    rw [← Bool.not_eq_true]
    exact fun hpartial => hd ⟨hcall, pre, t, hpre, ht, hp, hpartial⟩
  have hstep : ∀ t i t', InSomeOrder call dropped k₀ t → LineFits call t i ∧
      Unmixed call dropped t i ∧ (call i = .flush → t.party i = .resetting 1 → ¬ dropped i →
        t.shared.dev.isPartial = false) →
      act (fun i k => (call i).step k) t i = some t' → InSomeOrder call dropped k₀ t' := by
    rintro t i t' ⟨ap, _, _, _, o⟩ ⟨hfit, hu, hd⟩ hact
    obtain ⟨ap', p', hparty, does⟩ := ap.act hvalid hfit hact
    refine ⟨ap', ?_⟩
    rw [hparty]
    exact o.act ap hfit hu hd does
  obtain ⟨ap, seeks, front, tail, o⟩ := run_invariant_of_meets hstep
    ⟨.start reached.placed, [], [], [], .start _⟩ schedule hmeets hrun
  obtain ⟨order, hperm, hfilter, hseek, hposition⟩ := o.serial ap.at_phase hdone
  have hlog : ∀ {order' : List ι}, linesAfter call k₀.contents.lines order' =
      linesAfter call k₀.contents.lines (order'.filter fun i => (call i).changes) :=
    (linesAfter_filter _ _).symm
  have hresetting : ∀ j made, s.party j ≠ .resetting made := by
    intro j made hj
    have h := hdone j
    rw [hj] at h
    exact h.elim CallPhase.noConfusion id
  have hlines := o.lines.kept.lines_eq (fun _ j => hresetting j 1)
    fun j made hj => absurd hj (hresetting j made)
  have hfit : FitAll call k₀.contents.lines order := by
    rw [← fitAll_filter, hfilter, fitAll_filter]
    exact o.lines.kept.fit
  obtain ⟨k, hserial, hreached, hcontents⟩ := serially_contents reached hvalid hfit
  have hstate : k.state = s.shared.state := by
    refine (state_congr hreached.filled ?_ ?_ fun hset => ?_).symm
    · rw [hcontents, lines_after, hlog, hfilter, ← hlog, ← hlines]
    · rw [hcontents, hseek]
    · rw [hcontents] at hset ⊢
      exact (hposition (hseek.symm.trans hset)).symm
  obtain ⟨htotal, hfull⟩ := hreached.state
  rw [hstate] at htotal hfull
  exact ⟨⟨order, o.booked.nodup hperm, o.booked.mem_done hdone hperm, k, hserial, hstate⟩, htotal,
    hfull⟩

def lineAndSeek : Bool → FopsCall
  | false => .write .zeroed [97, 10]
  | true => .seekto ⟨1, 0⟩

def addedInLoop : List Bool := [false, true, false, true, true, true, true]

theorem meets_addedInLoop (dropped : Bool → Prop) : Meets (fun i k => (lineAndSeek i).step k)
    (fun s i => LineFits lineAndSeek s i ∧ Unmixed lineAndSeek dropped s i)
    (callsStart Bool (initModule CircularBuffer.init.entry .zeroed)) addedInLoop := by
  have hseek : ∀ s, LineFits lineAndSeek s true ∧ Unmixed lineAndSeek dropped s true := by
    intro s
    refine ⟨fun _ _ _ h => ?_, fun h => ?_, fun h => ?_, fun target _ h _ hten => ?_,
      fun _ _ _ h => ?_, fun _ _ _ h => ?_, fun _ _ _ h => ?_⟩ <;> cases h
    exact absurd hten (by decide)
  have hcalled : ∀ s : State Bool Kernel CallPhase, s.party false = .called →
      LineFits lineAndSeek s false ∧ Unmixed lineAndSeek dropped s false := by
    intro s hs
    have hnot : ∀ w, s.party false ≠ .prepared w := by
      rw [hs]
      exact fun _ => CallPhase.noConfusion
    refine ⟨fun _ _ w _ h => absurd h (hnot w), fun h => ?_, fun h => ?_, fun _ _ h => ?_,
      fun _ _ w _ h => absurd h (hnot w), fun _ _ w _ h => absurd h (hnot w),
      fun _ _ w _ h => absurd h (hnot w)⟩ <;> cases h
  refine (meets_cons _).mpr ⟨hcalled _ rfl, fun s₁ h₁ => (meets_cons _).mpr ⟨hseek _,
    fun s₂ h₂ => (meets_cons _).mpr ⟨?_, fun s₃ _ pre i hpre t _ => ?_⟩⟩⟩
  · obtain rfl := Option.some.inj h₁
    obtain rfl := Option.some.inj h₂
    refine ⟨fun _ _ _ hcall _ => ?_, fun hcall => ?_, fun hcall => ?_, fun _ _ hcall => ?_,
      fun _ _ _ _ _ hset => absurd hset Bool.false_ne_true, fun _ _ _ _ _ _ ⟨j, hj⟩ => ?_,
      fun _ _ _ _ _ _ j => ⟨fun hj => ?_, fun hj => ?_⟩⟩
    · cases hcall
      decide
    · cases hcall
    · cases hcall
    · cases hcall
    · cases j <;> cases hj
    · cases j
      · cases hj
      · exact absurd hj (Nat.not_lt_zero _)
    · cases j
      · cases hj
      · exact absurd hj (Nat.not_lt_zero _)
  · have hi : i ∈ [true, true, true, true] :=
      hpre.subset (List.mem_append_right _ (List.mem_singleton_self i))
    obtain rfl : i = true := by simpa using hi
    exact hseek t

theorem atomic_of_unmixed_seek :
    ∃ s, run (fun i k => (lineAndSeek i).step k)
        (callsStart Bool (initModule CircularBuffer.init.entry .zeroed)) addedInLoop = some s ∧
      s.shared.state.pendingSeek = some 2 ∧
      Atomic lineAndSeek (initModule CircularBuffer.init.entry .zeroed) s := by
  have hend : (run (fun i k => (lineAndSeek i).step k)
      (callsStart Bool (initModule CircularBuffer.init.entry .zeroed)) addedInLoop).map (fun s =>
        (s.party false, s.party true, s.shared.state.pendingSeek)) =
      some (.returned, .sought, some 2) := by decide +kernel
  obtain ⟨s, hrun, hvalues⟩ := Option.map_eq_some_iff.mp hend
  simp only [Prod.mk.injEq] at hvalues
  obtain ⟨hfalse, htrue, hseek⟩ := hvalues
  have hmeets := meets_addedInLoop (Drops lineAndSeek
    (initModule CircularBuffer.init.entry .zeroed) addedInLoop)
  refine ⟨s, hrun, hseek, atomic_of_unmixed lineAndSeek (fun i => ?_) .load addedInLoop hrun
    (fun pre i hpre t ht => (hmeets pre i hpre t ht).1)
    (fun pre i hpre t ht => (hmeets pre i hpre t ht).2) fun i => Or.inr ?_⟩
  · cases i
    · exact ⟨WriteEnv.zeroed_succeeds, by decide⟩
    · trivial
  · cases i
    · rw [hfalse]
      trivial
    · rw [htrue]
      trivial

def lineAndFlush : Bool → FopsCall
  | false => .write .zeroed [97, 10]
  | true => .flush

/-- The line is added between `in_offs = 0` and `total_size = 0`: it is live, and not counted. -/
theorem not_atomic_lineInFlush :
    ∃ s, run (fun i k => (lineAndFlush i).step k)
        (callsStart Bool (initModule CircularBuffer.init.entry .zeroed))
        (List.replicate 18 true ++ [false, false, true, true]) = some s ∧
      (∀ i, s.party i = .returned) ∧ s.shared.state.live = [[97, 10]] ∧
      s.shared.state.totalSize = 0 ∧
      ¬ Atomic lineAndFlush (initModule CircularBuffer.init.entry .zeroed) s := by
  have hend : (run (fun i k => (lineAndFlush i).step k)
      (callsStart Bool (initModule CircularBuffer.init.entry .zeroed))
      (List.replicate 18 true ++ [false, false, true, true])).map (fun s =>
        (s.party false, s.party true, s.shared.state.live, s.shared.state.totalSize)) =
      some (.returned, .returned, [[97, 10]], 0) := by decide +kernel
  obtain ⟨s, hrun, hvalues⟩ := Option.map_eq_some_iff.mp hend
  simp only [Prod.mk.injEq] at hvalues
  obtain ⟨hfalse, htrue, hlive, htotal⟩ := hvalues
  refine ⟨s, hrun, fun i => ?_, hlive, htotal, fun h => ?_⟩
  · cases i
    · exact hfalse
    · exact htrue
  · have hsum := h.totalSize
    rw [hlive, htotal] at hsum
    exact absurd hsum (by decide)

end Aesd

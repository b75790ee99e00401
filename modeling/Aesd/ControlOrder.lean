import Aesd.ControlEffects

/-! A serial order of interleaved calls. Writes and reads take their places when they return, a
flush when it has dropped the pending line; a seek command takes its place last, before the first
change of a slot behind the moment when it stores its position. What a run has done so far is
the effect of that order but for what flushes have yet to reset. -/
namespace Aesd
open FixedWidth Memory Interleaving

namespace CallPhase

/-- A write or a read has taken its place in the order, or a flush has. -/
def Logged : CallPhase → Prop
  | resetting made => 2 ≤ made
  | returned => True
  | _ => False

def Sought : CallPhase → Prop
  | positioned _ => True
  | sought => True
  | _ => False

theorem Done.logged_or_sought {p : CallPhase} (h : p.Done) : p.Logged ∨ p.Sought := by
  cases p <;> first | exact Or.inl h | exact Or.inr h

end CallPhase

section Phases
variable {ι : Type} [DecidableEq ι] {party : ι → CallPhase} {i : ι} {p' : CallPhase}

theorem update_eq_iff {q : CallPhase} (hp : party i ≠ q) (hp' : p' ≠ q) (j : ι) :
    Function.update party i p' j = q ↔ party j = q := by
  by_cases hji : j = i
  · rw [hji, Function.update_self]
    exact iff_of_false hp' hp
  · rw [Function.update_of_ne hji]

theorem update_holds {P : CallPhase → Prop} (hp : P p' ↔ P (party i)) (j : ι) :
    P (Function.update party i p' j) ↔ P (party j) := by
  by_cases hji : j = i
  · rw [hji, Function.update_self, hp]
  · rw [Function.update_of_ne hji]

/-- The calls in `late` taken for ones that have not begun. -/
def held (late : List ι) (party : ι → CallPhase) (j : ι) : CallPhase :=
  if j ∈ late then .called else party j

theorem held_update_of_mem {late : List ι} (hi : i ∈ late) :
    held late (Function.update party i p') = held late party := by
  funext j
  by_cases hj : j ∈ late
  · rw [held, held, if_pos hj, if_pos hj]
  · rw [held, held, if_neg hj, if_neg hj, Function.update_of_ne fun h => hj (by rw [h]; exact hi)]

theorem held_update_of_notMem {late : List ι} (hi : i ∉ late) :
    held late (Function.update party i p') = Function.update (held late party) i p' := by
  funext j
  by_cases hji : j = i
  · rw [held, hji, if_neg hi, Function.update_self, Function.update_self]
  · rw [held, Function.update_of_ne hji, Function.update_of_ne hji, held]

theorem held_eq {late : List ι} {j : ι} {p : CallPhase} (hp : p ≠ .called)
    (h : held late party j = p) : j ∉ late ∧ party j = p := by
  rw [held] at h
  split at h
  · exact absurd h.symm hp
  · exact ⟨by assumption, h⟩

theorem held_congr {late late' : List ι} (h : ∀ j, j ∈ late ↔ j ∈ late') :
    held late party = held late' party := by
  funext j
  simp only [held, h]

theorem held_nil (party : ι → CallPhase) : held [] party = party := by
  funext j
  exact if_neg List.not_mem_nil

theorem update_held_cons {late : List ι} {j : ι} (hj : j ∉ late) :
    Function.update (held (j :: late) party) j (party j) = held late party := by
  funext j'
  by_cases hj' : j' = j
  · rw [hj', Function.update_self, held, if_neg hj]
  · rw [Function.update_of_ne hj', held, held]
    simp only [List.mem_cons, hj', false_or]

end Phases

structure Booked {ι : Type} (party : ι → CallPhase) (seeks log : List ι) : Prop where
  nodup_seeks : seeks.Nodup
  nodup_log : log.Nodup
  mem_seeks : ∀ i, i ∈ seeks ↔ (party i).Sought
  mem_log : ∀ i, i ∈ log ↔ (party i).Logged

namespace Booked
variable {ι : Type} [DecidableEq ι] {party : ι → CallPhase} {seeks log : List ι} {i : ι}
  {p' : CallPhase}

theorem keep (b : Booked party seeks log) (hlogged : p'.Logged ↔ (party i).Logged)
    (hsought : p'.Sought ↔ (party i).Sought) :
    Booked (Function.update party i p') seeks log where
  nodup_seeks := b.nodup_seeks
  nodup_log := b.nodup_log
  mem_seeks j := (b.mem_seeks j).trans (update_holds hsought j).symm
  mem_log j := (b.mem_log j).trans (update_holds hlogged j).symm

theorem book (b : Booked party seeks log) (hp : ¬ (party i).Logged) (hlogged : p'.Logged)
    (hsought : p'.Sought ↔ (party i).Sought) :
    Booked (Function.update party i p') seeks (log ++ [i]) where
  nodup_seeks := b.nodup_seeks
  nodup_log := by
    refine List.nodup_append.mpr ⟨b.nodup_log, List.nodup_singleton i, fun j hj j' hj' heq => ?_⟩
    rw [heq, List.mem_singleton.mp hj'] at hj
    exact hp ((b.mem_log i).mp hj)
  mem_seeks j := (b.mem_seeks j).trans (update_holds hsought j).symm
  mem_log j := by
    rw [List.mem_append, List.mem_singleton, b.mem_log]
    by_cases hji : j = i
    · rw [hji, Function.update_self]
      exact iff_of_true (Or.inr rfl) hlogged
    · rw [Function.update_of_ne hji, or_iff_left hji]

theorem bookSeek (b : Booked party seeks log) (hp : ¬ (party i).Sought) (hsought : p'.Sought)
    (hlogged : p'.Logged ↔ (party i).Logged) :
    Booked (Function.update party i p') (i :: seeks) log where
  nodup_seeks := List.nodup_cons.mpr ⟨fun hi => hp ((b.mem_seeks i).mp hi), b.nodup_seeks⟩
  nodup_log := b.nodup_log
  mem_seeks j := by
    rw [List.mem_cons, b.mem_seeks]
    by_cases hji : j = i
    · rw [hji, Function.update_self]
      exact iff_of_true (Or.inl rfl) hsought
    · rw [Function.update_of_ne hji, or_iff_right hji]
  mem_log j := (b.mem_log j).trans (update_holds hlogged j).symm

omit [DecidableEq ι] in
theorem perm {log' : List ι} (b : Booked party seeks log) (hperm : log'.Perm log) :
    Booked party seeks log' where
  nodup_seeks := b.nodup_seeks
  nodup_log := hperm.nodup_iff.mpr b.nodup_log
  mem_seeks := b.mem_seeks
  mem_log i := hperm.mem_iff.trans (b.mem_log i)

end Booked

structure Lines.SameRing (l b : Lines) : Prop where
  line : l.line = b.line
  inOffs : l.inOffs = b.inOffs
  outOffs : l.outOffs = b.outOffs
  full : l.full = b.full
  totalSize : l.totalSize = b.totalSize

structure Lines.NoEntry (b : Lines) : Prop where
  line : ∀ i, b.line i = blank (b.line i)
  inOffs : b.inOffs = 0
  outOffs : b.outOffs = 0
  full : b.full = false
  totalSize : b.totalSize = 0

structure Lines.ResetBy (l : Lines) (made : Nat) : Prop where
  full : 4 < made → l.full = false
  inOffs : 5 < made → l.inOffs = 0
  line : 5 < made → ∀ i, l.line i = blank (l.line i)
  outOffs : 6 < made → l.outOffs = 0

/-- The lines are those that the order makes, but for what flushes on their way have yet to reset
and for the pending line between the two assignments that drop it. -/
structure LinesKept {ι : Type} (call : ι → FopsCall) (l₀ l : Lines) (party : ι → CallPhase)
    (log : List ι) : Prop where
  length : ∀ i, (l.line i).length = ((linesAfter call l₀ log).line i).length
  behind : l.behind = (linesAfter call l₀ log).behind
  pending : l.pending = (linesAfter call l₀ log).pending ∨
    l.pending.isSome = true ∧ ∃ j, party j = .resetting 1
  ring : l.SameRing (linesAfter call l₀ log) ∨ ∃ j made, party j = .resetting made ∧ 2 ≤ made
  reset : ∀ j made, party j = .resetting made → 2 ≤ made →
    (linesAfter call l₀ log).NoEntry ∧ l.ResetBy made
  fit : FitAll call l₀ log

namespace LinesKept
variable {ι : Type} {call : ι → FopsCall} {l₀ l : Lines} {party party' : ι → CallPhase}
  {log : List ι} {i : ι}

theorem start (l₀ : Lines) : LinesKept call l₀ l₀ (fun _ => .called) [] where
  length _ := rfl
  behind := rfl
  pending := Or.inl rfl
  ring := Or.inl ⟨rfl, rfl, rfl, rfl, rfl⟩
  reset _ _ h := by cases h
  fit := trivial

theorem congr (k : LinesKept call l₀ l party log)
    (h : ∀ j made, 1 ≤ made → (party' j = .resetting made ↔ party j = .resetting made)) :
    LinesKept call l₀ l party' log where
  length := k.length
  behind := k.behind
  pending := k.pending.imp_right fun ⟨hset, j, hj⟩ => ⟨hset, j, (h j 1 (Nat.le_refl 1)).mpr hj⟩
  ring := k.ring.imp_right fun ⟨j, made, hj, h2⟩ => ⟨j, made, (h j made (by omega)).mpr hj, h2⟩
  reset j made hj h2 := k.reset j made ((h j made (by omega)).mp hj) h2
  fit := k.fit

theorem congr_of_none (k : LinesKept call l₀ l party log) (hnone : l.pending = none)
    (h : ∀ j made, 2 ≤ made → (party' j = .resetting made ↔ party j = .resetting made)) :
    LinesKept call l₀ l party' log where
  length := k.length
  behind := k.behind
  pending := k.pending.imp_right fun ⟨hset, _⟩ => by
    rw [hnone] at hset
    cases hset
  ring := k.ring.imp_right fun ⟨j, made, hj, h2⟩ => ⟨j, made, (h j made h2).mpr hj, h2⟩
  reset j made hj h2 := k.reset j made ((h j made h2).mp hj) h2
  fit := k.fit

theorem append (k : LinesKept call l₀ l party log) (hcall : (call i).changes = false) :
    LinesKept call l₀ l party (log ++ [i]) := by
  have hsame : linesAfter call l₀ (log ++ [i]) = linesAfter call l₀ log := by
    rw [linesAfter_append]
    exact FopsCall.actLines_of_not_changes hcall _
  refine ⟨?_, ?_, ?_, ?_, ?_, (fitAll_append_singleton _ _ _).mpr
    ⟨k.fit, FopsCall.fits_of_not_changes hcall _⟩⟩ <;> rw [hsame]
  · exact k.length
  · exact k.behind
  · exact k.pending
  · exact k.ring
  · exact k.reset

theorem pending_eq (k : LinesKept call l₀ l party log)
    (h : l.pending.isSome = true → ∀ j, party j ≠ .resetting 1) :
    l.pending = (linesAfter call l₀ log).pending := by
  rcases k.pending with heq | ⟨hset, j, hj⟩
  · exact heq
  · exact absurd hj (h hset j)

theorem ring_eq (k : LinesKept call l₀ l party log)
    (h : ∀ j made, party j = .resetting made → made < 2) :
    l.SameRing (linesAfter call l₀ log) := by
  rcases k.ring with hsame | ⟨j, made, hj, h2⟩
  · exact hsame
  · exact absurd (h j made hj) (by omega)

theorem lines_eq (k : LinesKept call l₀ l party log)
    (hpending : l.pending.isSome = true → ∀ j, party j ≠ .resetting 1)
    (hring : ∀ j made, party j = .resetting made → made < 2) : l = linesAfter call l₀ log := by
  have hbehind := k.behind
  have hpend := k.pending_eq hpending
  obtain ⟨hline, hin, hout, hfull, htotal⟩ := k.ring_eq hring
  generalize linesAfter call l₀ log = b at *
  cases l
  cases b
  simp_all

theorem write (k : LinesKept call l₀ l party log) {env : WriteEnv} {buf : List UInt8}
    (hcall : call i = .write env buf)
    (hpending : l.pending.isSome = true → ∀ j, party j ≠ .resetting 1)
    (hflush : EndsLine buf → ∀ j made, party j = .resetting made → made < 2)
    (hfits : (call i).Fits l) : LinesKept call l₀ (l.write buf) party (log ++ [i]) := by
  have hpend := k.pending_eq hpending
  have hafter : linesAfter call l₀ (log ++ [i]) = (linesAfter call l₀ log).write buf := by
    rw [linesAfter_append, linesAfter, List.foldl_cons, List.foldl_nil, hcall]
    rfl
  have hfit : FitAll call l₀ (log ++ [i]) := by
    refine (fitAll_append_singleton _ _ _).mpr ⟨k.fit, ?_⟩
    rw [hcall] at hfits ⊢
    rw [FopsCall.Fits, ← hpend]
    exact hfits
  by_cases hends : EndsLine buf
  · rw [← k.lines_eq hpending (hflush hends)] at hafter
    refine ⟨fun _ => ?_, ?_, Or.inl ?_, Or.inl ?_,
      fun j made hj h2 => absurd (hflush hends j made hj) (by omega), hfit⟩ <;> rw [hafter]
    exact ⟨rfl, rfl, rfl, rfl, rfl⟩
  · have hopen : ∀ l : Lines,
        l.write buf = { l with pending := some (l.pending.getD [] ++ buf) } :=
      fun l => by rw [Lines.write, if_neg hends]
    rw [hopen] at hafter ⊢
    refine ⟨?_, ?_, ?_, ?_, ?_, hfit⟩ <;> rw [hafter]
    · exact k.length
    · exact k.behind
    · exact Or.inl (by rw [hpend])
    · exact k.ring.imp_left fun h => ⟨h.line, h.inOffs, h.outOffs, h.full, h.totalSize⟩
    · intro j made hj h2
      obtain ⟨hnone, hreset⟩ := k.reset j made hj h2
      exact ⟨⟨hnone.line, hnone.inOffs, hnone.outOffs, hnone.full, hnone.totalSize⟩,
        ⟨hreset.full, hreset.inOffs, hreset.line, hreset.outOffs⟩⟩

/-! ### The assignments of a flush -/

variable [DecidableEq ι]

theorem cut (k : LinesKept call l₀ l party log) (hp : party i = .resetting 0) :
    LinesKept call l₀ { l with pending := l.pending.map fun _ => [] }
      (Function.update party i (.resetting 1)) log := by
  have hiff : ∀ j made, 2 ≤ made →
      (Function.update party i (.resetting 1) j = .resetting made ↔ party j = .resetting made) := by
    intro j made h2
    refine update_eq_iff ?_ ?_ j
    · rw [hp]
      exact fun h => by rw [CallPhase.resetting.injEq] at h; omega
    · exact fun h => by rw [CallPhase.resetting.injEq] at h; omega
  refine ⟨k.length, k.behind, ?_, ?_, fun j made hj h2 => ?_, k.fit⟩
  · cases hset : l.pending with
    | none =>
        rcases k.pending with heq | ⟨hsome, -⟩
        · exact Or.inl (by rw [← heq, hset]; rfl)
        · rw [hset] at hsome
          cases hsome
    | some text => exact Or.inr ⟨rfl, i, Function.update_self _ _ _⟩
  · refine k.ring.imp (fun h => ⟨h.line, h.inOffs, h.outOffs, h.full, h.totalSize⟩) ?_
    rintro ⟨j, made, hj, h2⟩
    exact ⟨j, made, (hiff j made h2).mpr hj, h2⟩
  · obtain ⟨hnone, hreset⟩ := k.reset j made ((hiff j made h2).mp hj) h2
    exact ⟨hnone, hreset.full, hreset.inOffs, hreset.line, hreset.outOffs⟩

theorem book (k : LinesKept call l₀ l party log) (hcall : call i = .flush) {made : Nat}
    (h2 : 2 ≤ made) (h4 : made ≤ 4) :
    LinesKept call l₀ { l with pending := none } (Function.update party i (.resetting made))
      (log ++ [i]) := by
  have hafter : linesAfter call l₀ (log ++ [i]) = (linesAfter call l₀ log).flush := by
    rw [linesAfter_append, linesAfter, List.foldl_cons, List.foldl_nil, hcall]
    rfl
  refine ⟨fun n => ?_, ?_, Or.inl ?_, Or.inr ⟨i, made, Function.update_self _ _ _, h2⟩,
    fun j m hj hm => ?_, (fitAll_append_singleton _ _ _).mpr ⟨k.fit, ?_⟩⟩
  · rw [hafter]
    exact (k.length n).trans (Lines.length_blank _).symm
  · rw [hafter]
    exact k.behind
  · rw [hafter]
    rfl
  · rw [hafter]
    refine ⟨⟨fun n => (Lines.blank_congr (Lines.length_blank _)).symm, rfl, rfl, rfl, rfl⟩, ?_⟩
    by_cases hji : j = i
    · rw [hji, Function.update_self, CallPhase.resetting.injEq] at hj
      exact ⟨fun h => by omega, fun h => by omega, fun h => by omega, fun h => by omega⟩
    · rw [Function.update_of_ne hji] at hj
      obtain ⟨-, hreset⟩ := k.reset j m hj hm
      exact ⟨hreset.full, hreset.inOffs, hreset.line, hreset.outOffs⟩
  · rw [hcall]
    trivial

theorem resets {a : Contents} (k : LinesKept call l₀ a.lines party log) {made : Nat}
    (hp : party i = .resetting made) (h2 : 2 ≤ made) (hmade : made < flushAssignments) :
    LinesKept call l₀ (a.assign made).lines (Function.update party i
      (if made + 1 < flushAssignments then .resetting (made + 1) else .returned)) log := by
  unfold flushAssignments at hmade ⊢
  obtain ⟨hnone, hreset⟩ := k.reset i made hp h2
  refine ⟨fun n => (a.length_line_assign made n).trans (k.length n),
    (a.behind_assign made).trans k.behind, ?_, ?_, fun j m hj hm => ⟨hnone, ?_⟩, k.fit⟩
  · rw [a.pending_assign h2]
    refine k.pending.imp_right fun ⟨hset, j, hj⟩ => ⟨hset, j, ?_⟩
    have hji : j ≠ i := by
      rintro rfl
      rw [hp, CallPhase.resetting.injEq] at hj
      omega
    rw [Function.update_of_ne hji]
    exact hj
  · by_cases hlast : made + 1 < 8
    · rw [if_pos hlast]
      exact Or.inr ⟨i, made + 1, Function.update_self _ _ _, by omega⟩
    · refine Or.inl ⟨funext fun n => ?_, ?_, ?_, ?_, ?_⟩
      · rw [a.blank_assign (Or.inl (hreset.line (by omega) n)), hnone.line n]
        exact Lines.blank_congr ((a.length_line_assign made n).trans (k.length n))
      · rw [hnone.inOffs, a.inOffs_assign (Or.inl (hreset.inOffs (by omega)))]
      · rw [hnone.outOffs, a.outOffs_assign (Or.inl (hreset.outOffs (by omega)))]
      · rw [hnone.full, a.full_assign (Or.inl (hreset.full (by omega)))]
      · rw [hnone.totalSize, a.totalSize_assign (by omega)]
  · by_cases hji : j = i
    · rw [hji, Function.update_self] at hj
      split at hj
      · rw [CallPhase.resetting.injEq] at hj
        refine ⟨fun h => a.full_assign ?_, fun h => a.inOffs_assign ?_,
          fun h n => a.blank_assign ?_, fun h => a.outOffs_assign ?_⟩
        · by_cases hm4 : made = 4
          · exact Or.inr hm4
          · exact Or.inl (hreset.full (by omega))
        · by_cases hm5 : made = 5
          · exact Or.inr hm5
          · exact Or.inl (hreset.inOffs (by omega))
        · by_cases hm5 : made = 5
          · exact Or.inr ⟨hm5, hreset.full (by omega)⟩
          · exact Or.inl (hreset.line (by omega) n)
        · by_cases hm6 : made = 6
          · exact Or.inr hm6
          · exact Or.inl (hreset.outOffs (by omega))
      · cases hj
    · rw [Function.update_of_ne hji] at hj
      obtain ⟨-, hreset'⟩ := k.reset j m hj hm
      exact ⟨fun h => a.full_assign (Or.inl (hreset'.full h)),
        fun h => a.inOffs_assign (Or.inl (hreset'.inOffs h)),
        fun h n => a.blank_assign (Or.inl (hreset'.line h n)),
        fun h => a.outOffs_assign (Or.inl (hreset'.outOffs h))⟩

end LinesKept

/-- The flush has not come to `full = false`, and there was no pending line for it to drop. -/
def Late {ι : Type} (dropped : ι → Prop) (party : ι → CallPhase) (j : ι) : Prop :=
  ¬ dropped j ∧ ∃ made, party j = .resetting made ∧ 2 ≤ made ∧ made ≤ 4

/-- A flush has taken its place and not yet made its last assignment. -/
def CallPhase.Resetting : CallPhase → Prop
  | resetting made => 2 ≤ made
  | _ => False

instance (p : CallPhase) : Decidable p.Resetting := by
  cases p <;> first | exact Nat.decLe _ _ | exact isFalse id

theorem CallPhase.resetting_iff {p : CallPhase} :
    p.Resetting ↔ ∃ made, p = .resetting made ∧ 2 ≤ made := by
  constructor
  · intro h
    cases p with
    | resetting made => exact ⟨made, rfl, h⟩
    | _ => exact h.elim
  · rintro ⟨made, rfl, h2⟩
    exact h2

theorem Late.resetting {ι : Type} {dropped : ι → Prop} {party : ι → CallPhase} {j : ι}
    (h : Late dropped party j) : (party j).Resetting := by
  obtain ⟨-, made, hmade, h2, -⟩ := h
  exact CallPhase.resetting_iff.mpr ⟨made, hmade, h2⟩

/-- Late flushes may as well have no place yet: lines that are added now could come before them. -/
def LinesOpen {ι : Type} [DecidableEq ι] (call : ι → FopsCall) (dropped : ι → Prop) (l₀ l : Lines)
    (party : ι → CallPhase) (log : List ι) : Prop :=
  ∀ late : List ι, (∀ j ∈ late, Late dropped party j) →
    LinesKept call l₀ l (held late party) (log.filter (· ∉ late))

namespace LinesOpen
variable {ι : Type} [DecidableEq ι] {call : ι → FopsCall} {dropped : ι → Prop} {l₀ l l' : Lines}
  {party : ι → CallPhase} {log late : List ι} {i : ι} {p' : CallPhase}

theorem start (l₀ : Lines) : LinesOpen call dropped l₀ l₀ (fun _ => .called) [] := by
  intro late hlate
  have hheld : held late (fun _ : ι => CallPhase.called) = fun _ => .called := by
    funext j
    rw [held, ite_self]
  rw [hheld]
  exact .start l₀

theorem kept (k : LinesOpen call dropped l₀ l party log) : LinesKept call l₀ l party log := by
  have h := k [] fun j hj => by cases hj
  have hall : (log.filter fun j => decide (j ∉ ([] : List ι))) = log :=
    List.filter_eq_self.mpr fun j _ => decide_eq_true List.not_mem_nil
  rw [held_nil, hall] at h
  exact h

theorem step (k : LinesOpen call dropped l₀ l party log)
    (hlate : ∀ j ∈ late, Late dropped (Function.update party i p') j) (hi : i ∉ late)
    (booked : List ι) (hbooked : ∀ j ∈ booked, j = i)
    (hstep : ∀ party₁ log₁, party₁ i = party i →
      (∀ j made, party₁ j = .resetting made → party j = .resetting made) →
      LinesKept call l₀ l party₁ log₁ →
      LinesKept call l₀ l' (Function.update party₁ i p') (log₁ ++ booked)) :
    LinesKept call l₀ l' (held late (Function.update party i p'))
      ((log ++ booked).filter (· ∉ late)) := by
  have hold : ∀ j ∈ late, Late dropped party j := by
    intro j hj
    have h := hlate j hj
    rw [Late, Function.update_of_ne fun hji => hi (by rw [← hji]; exact hj)] at h
    exact h
  have hall : (booked.filter fun j => decide (j ∉ late)) = booked :=
    List.filter_eq_self.mpr fun j hj => decide_eq_true (by rw [hbooked j hj]; exact hi)
  rw [held_update_of_notMem hi, List.filter_append, hall]
  refine hstep _ _ ?_ (fun j made hj => (held_eq CallPhase.noConfusion hj).2) (k late hold)
  rw [held, if_neg hi]

theorem notMem_of_not_late (hlate : ∀ j ∈ late, Late dropped (Function.update party i p') j)
    (hp' : ∀ made, 2 ≤ made → made ≤ 4 → p' ≠ .resetting made) : i ∉ late := by
  intro hi
  obtain ⟨-, made, hmade, h2, h4⟩ := hlate i hi
  rw [Function.update_self] at hmade
  exact hp' made h2 h4 hmade

theorem keep (k : LinesOpen call dropped l₀ l party log)
    (hp : ∀ made, 1 ≤ made → party i ≠ .resetting made)
    (hp' : ∀ made, 1 ≤ made → p' ≠ .resetting made) :
    LinesOpen call dropped l₀ l (Function.update party i p') log := by
  intro late hlate
  have hi := notMem_of_not_late hlate fun made h2 _ => hp' made (Nat.le_of_succ_le h2)
  have h := k.step hlate hi [] (fun j hj => by cases hj) fun party₁ log₁ hi₁ _ k₁ =>
    (List.append_nil log₁).symm ▸ k₁.congr fun j made h1 =>
      update_eq_iff (by rw [hi₁]; exact hp made h1) (hp' made h1) j
  rw [List.append_nil] at h
  exact h

theorem read (k : LinesOpen call dropped l₀ l party log) (hcall : (call i).changes = false)
    (hp : party i = .called) :
    LinesOpen call dropped l₀ l (Function.update party i .returned) (log ++ [i]) := by
  intro late hlate
  refine k.step hlate (notMem_of_not_late hlate fun _ _ _ => CallPhase.noConfusion) [i]
    (fun j hj => List.mem_singleton.mp hj) fun party₁ log₁ hi₁ _ k₁ => ?_
  refine (k₁.append hcall).congr fun j made _ => ?_
  exact update_eq_iff (by rw [hi₁, hp]; exact CallPhase.noConfusion) CallPhase.noConfusion j

theorem write (k : LinesOpen call dropped l₀ l party log) {env : WriteEnv} {buf : List UInt8}
    {w : WriteCall} (hcall : call i = .write env buf) (hp : party i = .prepared w)
    (hpending : l.pending.isSome = true → ∀ j, party j ≠ .resetting 1)
    (hflush : EndsLine buf → ∀ j made, party j = .resetting made → made < 2)
    (hfits : (call i).Fits l) :
    LinesOpen call dropped l₀ (l.write buf) (Function.update party i .returned) (log ++ [i]) := by
  intro late hlate
  refine k.step hlate (notMem_of_not_late hlate fun _ _ _ => CallPhase.noConfusion) [i]
    (fun j hj => List.mem_singleton.mp hj) fun party₁ log₁ hi₁ hsub k₁ => ?_
  refine (k₁.write hcall (fun hset j hj => hpending hset j (hsub j 1 hj))
    (fun hends j made hj => hflush hends j made (hsub j made hj)) hfits).congr fun j made _ => ?_
  exact update_eq_iff (by rw [hi₁, hp]; exact CallPhase.noConfusion) CallPhase.noConfusion j

theorem cut (k : LinesOpen call dropped l₀ l party log) (hp : party i = .resetting 0) :
    LinesOpen call dropped l₀ { l with pending := l.pending.map fun _ => [] }
      (Function.update party i (.resetting 1)) log := by
  intro late hlate
  have hi := notMem_of_not_late hlate fun made h2 _ h => by
    rw [CallPhase.resetting.injEq] at h
    omega
  have h := k.step hlate hi [] (fun j hj => by cases hj) fun party₁ log₁ hi₁ _ k₁ =>
    (List.append_nil log₁).symm ▸ k₁.cut (hi₁.trans hp)
  rw [List.append_nil] at h
  exact h

theorem drop (k : LinesOpen call dropped l₀ l party log) (hcall : call i = .flush)
    (hp : party i = .resetting 1) (hlog : i ∉ log) (hdropped : ¬ dropped i → l.pending = none) :
    LinesOpen call dropped l₀ { l with pending := none } (Function.update party i (.resetting 2))
      (log ++ [i]) := by
  intro late hlate
  by_cases hi : i ∈ late
  · have hnone := hdropped (hlate i hi).1
    have hsame : ({ l with pending := none } : Lines) = l := by rw [← hnone]
    have hrest : ∀ j ∈ late.filter (· ≠ i), Late dropped party j := by
      intro j hj
      rw [List.mem_filter, decide_eq_true_eq] at hj
      have h := hlate j hj.1
      rw [Late, Function.update_of_ne hj.2] at h
      exact h
    have hlogs : (log ++ [i]).filter (· ∉ late) = log.filter (· ∉ late.filter (· ≠ i)) := by
      rw [List.filter_append, List.filter_cons_of_neg (by simpa using hi), List.filter_nil,
        List.append_nil]
      refine List.filter_congr fun j hj => ?_
      have hji : j ≠ i := fun h => hlog (by rw [← h]; exact hj)
      simp [List.mem_filter, hji]
    rw [hsame, hlogs, held_update_of_mem hi]
    refine (k _ hrest).congr_of_none hnone fun j made h2 => ?_
    by_cases hji : j = i
    · rw [hji, held, if_pos hi, held, if_neg (by simp), hp]
      refine iff_of_false CallPhase.noConfusion fun h => ?_
      rw [CallPhase.resetting.injEq] at h
      omega
    · simp only [held, List.mem_filter, decide_eq_true_eq, hji, ne_eq, not_false_eq_true, and_true]
  · exact k.step hlate hi [i] (fun j hj => List.mem_singleton.mp hj) fun party₁ log₁ _ _ k₁ =>
      k₁.book hcall (Nat.le_refl 2) (by decide)

theorem resets {a : Contents} (k : LinesOpen call dropped l₀ a.lines party log) {made : Nat}
    (hp : party i = .resetting made) (h2 : 2 ≤ made) (hmade : made < flushAssignments) :
    LinesOpen call dropped l₀ (a.assign made).lines (Function.update party i
      (if made + 1 < flushAssignments then .resetting (made + 1) else .returned)) log := by
  intro late hlate
  by_cases hi : i ∈ late
  · obtain ⟨hdropped, m, hm, -, h4⟩ := hlate i hi
    rw [Function.update_self] at hm
    split at hm
    · rw [CallPhase.resetting.injEq] at hm
      have hsame : (a.assign made).lines = a.lines := by
        match made, h2, (by omega : made ≤ 3) with
        | 2, _, _ | 3, _, _ => rfl
      rw [hsame, held_update_of_mem hi]
      refine k late fun j hj => ?_
      by_cases hji : j = i
      · rw [hji]
        exact ⟨hdropped, made, hp, h2, by omega⟩
      · have h := hlate j hj
        rw [Late, Function.update_of_ne hji] at h
        exact h
    · cases hm
  · have h := k.step hlate hi [] (fun j hj => by cases hj) fun party₁ log₁ hi₁ _ k₁ =>
      (List.append_nil log₁).symm ▸ k₁.resets (hi₁.trans hp) h2 hmade
    rw [List.append_nil] at h
    exact h

theorem filter_notMem_of_apart {late log₁ : List ι} (h : ∀ j ∈ log₁, j ∉ late) :
    log₁.filter (· ∉ late) = log₁ :=
  List.filter_eq_self.mpr fun j hj => decide_eq_true (h j hj)

theorem readd {again log₁ : List ι} (hcall : ∀ j ∈ again, call j = .flush)
    (hlate : ∀ j ∈ again, ∃ made, party j = .resetting made ∧ 2 ≤ made ∧ made ≤ 4)
    (hnodup : again.Nodup)
    (hapart : ∀ j ∈ again, j ∉ late) (hnone : l.pending = none)
    (k : LinesKept call l₀ l (held (again ++ late) party) log₁) :
    LinesKept call l₀ l (held late party) (log₁ ++ again) := by
  induction again generalizing log₁ with
  | nil =>
      rw [List.append_nil]
      exact k
  | cons j again ih =>
      rw [List.forall_mem_cons] at hcall hlate hapart
      rw [List.nodup_cons] at hnodup
      obtain ⟨made, hmade, h2, h4⟩ := hlate.1
      have hj : j ∉ again ++ late := by
        rw [List.mem_append]
        exact fun h => h.elim hnodup.1 hapart.1
      have hstep := k.book hcall.1 h2 h4
      have hsame : ({ l with pending := none } : Lines) = l := by rw [← hnone]
      rw [hsame, ← hmade, List.cons_append, update_held_cons hj] at hstep
      have h := ih hcall.2 hlate.2 hnodup.2 hapart.2 hstep
      rw [List.append_assoc] at h
      exact h

/-- A line is added when no flush on its way has reset the ring or dropped a pending line: the
write takes its place before all of these. -/
theorem defer (k : LinesOpen call dropped l₀ l party log) {env : WriteEnv} {buf : List UInt8}
    {w : WriteCall} (hcall : call i = .write env buf) (hp : party i = .prepared w)
    (hends : EndsLine buf) (hpending : l.pending.isSome = true → ∀ j, party j ≠ .resetting 1)
    (hflush : ∀ j, (party j).Resetting → Late dropped party j)
    (hfits : (call i).Fits l) (hnodup : log.Nodup) (hlogged : ∀ j, (party j).Resetting → j ∈ log)
    (hcalls : ∀ j, (party j).Resetting → call j = .flush) :
    LinesOpen call dropped l₀ (l.write buf) (Function.update party i .returned)
      (log.filter (fun j => ¬ (party j).Resetting) ++ [i] ++
        log.filter fun j => (party j).Resetting) := by
  intro late hlate
  have hi : i ∉ late := notMem_of_not_late hlate fun _ _ _ => CallPhase.noConfusion
  have hnot : ¬ (party i).Resetting := by
    rw [hp]
    exact id
  have hold : ∀ j ∈ late, (party j).Resetting := by
    intro j hj
    have h := (hlate j hj).resetting
    rw [Function.update_of_ne fun hji => hi (by rw [← hji]; exact hj)] at h
    exact h
  have hwin : ∀ j, j ∈ log.filter (fun j => (party j).Resetting) ↔ (party j).Resetting := by
    intro j
    rw [List.mem_filter, decide_eq_true_eq]
    exact ⟨And.right, fun h => ⟨hlogged j h, h⟩⟩
  have hrest : log.filter (· ∉ log.filter fun j => (party j).Resetting) =
      log.filter fun j => ¬ (party j).Resetting := by
    refine List.filter_congr fun j _ => ?_
    rw [decide_eq_decide, hwin]
  -- Before the flushes on their way the ring is the order's.
  have k₁ := (k _ fun j hj => hflush j ((hwin j).mp hj)).write hcall
    (fun hset j hj => hpending hset j (held_eq CallPhase.noConfusion hj).2)
    (fun _ j made hj => by
      obtain ⟨hj, hphase⟩ := held_eq CallPhase.noConfusion hj
      by_contra h2
      exact hj ((hwin j).mpr (CallPhase.resetting_iff.mpr ⟨made, hphase, by omega⟩))) hfits
  rw [hrest] at k₁
  -- Those that are not held take their places behind the write.
  have hmem : ∀ j, j ∈ log.filter (fun j => (party j).Resetting) ↔
      j ∈ (log.filter fun j => (party j).Resetting).filter (· ∉ late) ++ late := by
    intro j
    rw [List.mem_append, List.mem_filter (p := fun j => decide (j ∉ late)), decide_eq_true_eq]
    by_cases hj : j ∈ late
    · exact iff_of_true ((hwin j).mpr (hold j hj)) (Or.inr hj)
    · simp only [hj, not_false_eq_true, and_true, or_false]
  rw [List.filter_append, filter_notMem_of_apart fun j hj hjl => ?_]
  · refine readd (fun j hj => ?_) (fun j hj => ?_) ?_ (fun j hj => ?_) ?_
      (k₁.congr fun j made _ => ?_)
    · exact hcalls j ((hwin j).mp (List.mem_filter.mp hj).1)
    · have hj := (hwin j).mp (List.mem_filter.mp hj).1
      rw [Function.update_of_ne fun h => hnot (by rw [← h]; exact hj)]
      exact (hflush j hj).2
    · exact (hnodup.filter _).filter _
    · exact of_decide_eq_true (List.mem_filter.mp hj).2
    · rw [Lines.write, if_pos hends, Lines.pending_add]
    · rw [← held_congr hmem, held_update_of_notMem fun h => hnot ((hwin i).mp h)]
      refine update_eq_iff ?_ CallPhase.noConfusion j
      rw [held, if_neg fun h => hnot ((hwin i).mp h), hp]
      exact CallPhase.noConfusion
  · rcases List.mem_append.mp hj with hj | hj
    · rw [List.mem_filter, decide_eq_true_eq] at hj
      exact hj.2 (hold j hjl)
    · rw [List.mem_singleton.mp hj] at hjl
      exact hi hjl

end LinesOpen

def Lines.slotSum (l : Lines) (n : Nat) : Int :=
  rounds (fun i pos => toSsize (pos + l.sizeAt i)) n 0

theorem Lines.slotSum_congr {l l' : Lines} {n : Nat} (h : ∀ i < n, l'.sizeAt i = l.sizeAt i) :
    l'.slotSum n = l.slotSum n := by
  unfold slotSum
  induction n with
  | zero => rfl
  | succ n ih =>
      rw [rounds, rounds, ih fun i hi => h i (Nat.lt_succ_of_lt hi), h n (Nat.lt_succ_self n)]

theorem Lines.target_eq (l : Lines) (seekto : AesdSeekto) :
    l.target seekto = toSsize (l.slotSum seekto.writeCmd + seekto.writeCmdOffset) := rfl

theorem Lines.target_congr {l l' : Lines} {seekto : AesdSeekto}
    (h : ∀ i < seekto.writeCmd, l'.sizeAt i = l.sizeAt i) : l'.target seekto = l.target seekto := by
  rw [target_eq, target_eq, slotSum_congr h]

theorem Lines.sizeAt_congr {l l' : Lines} {n : Nat} (hline : (l'.line n).length = (l.line n).length)
    (hbehind : l'.behind = l.behind)
    (htotal : n = maxWriteOperationsSupported → toSize l'.totalSize = toSize l.totalSize) :
    l'.sizeAt n = l.sizeAt n := by
  rw [sizeAt, sizeAt, hline, hbehind]
  split
  · rfl
  · split
    · rw [htotal (by assumption)]
    · rfl

/-- The slots that a seek command has added and whose sum it has yet to store. -/
def Added : FopsCall → CallPhase → Nat → Prop
  | .seekto _, .summing i _, slot => slot < i
  | .seekto target, .summed _, slot => slot < target.writeCmd
  | _, _, _ => False

def Summed (l : Lines) : FopsCall → CallPhase → Prop
  | .seekto target, .summing i newPos => i ≤ target.writeCmd ∧ newPos = l.slotSum i
  | .seekto target, .summed newPos => newPos = l.target target
  | _, _ => True

theorem Added.mono {c : FopsCall} {p : CallPhase} {n n' : Nat} (h : Added c p n) (hn : n' ≤ n) :
    Added c p n' := by
  cases c with
  | seekto target =>
      cases p with
      | summing i newPos => exact Nat.lt_of_le_of_lt hn h
      | summed newPos => exact Nat.lt_of_le_of_lt hn h
      | _ => exact h.elim
  | _ => exact h.elim

theorem Summed.of_added {l l' : Lines} {c : FopsCall} {p : CallPhase} (h : Summed l c p)
    (hadded : ∀ n, Added c p n → l'.sizeAt n = l.sizeAt n) : Summed l' c p := by
  cases c with
  | seekto target =>
      cases p with
      | summing i newPos => exact ⟨h.1, h.2.trans (Lines.slotSum_congr hadded).symm⟩
      | summed newPos => exact h.trans (Lines.target_congr hadded).symm
      | _ => trivial
  | _ => trivial

theorem summed_update {ι : Type} [DecidableEq ι] {call : ι → FopsCall} {l l' : Lines}
    {party : ι → CallPhase} {i : ι} {p' : CallPhase} (h : ∀ j, Summed l (call j) (party j))
    (hadded : ∀ j n, Added (call j) (party j) n → l'.sizeAt n = l.sizeAt n)
    (hi : Summed l' (call i) p') (j : ι) : Summed l' (call j) (Function.update party i p' j) := by
  by_cases hji : j = i
  · subst hji
    rw [Function.update_self]
    exact hi
  · rw [Function.update_of_ne hji]
    exact (h j).of_added (hadded j)

/-- Where a line is added, the seek commands that have added its slot have it as long as it was,
and those that have added `total_size` have it unchanged. -/
def LeavesSums (l : Lines) (size : Nat) (c : FopsCall) (p : CallPhase) : Prop :=
  (Added c p l.inOffs → (l.line l.inOffs).length = size) ∧
    (Added c p maxWriteOperationsSupported → l.full = true)

theorem sizeAt_write {l : Lines} {buf : List UInt8} {c : FopsCall} {p : CallPhase}
    (hin : l.inOffs < maxWriteOperationsSupported)
    (hleaves : EndsLine buf → LeavesSums l ((l.pending.getD []).length + buf.length) c p) (n : Nat)
    (hn : Added c p n) : (l.write buf).sizeAt n = l.sizeAt n := by
  rw [Lines.write]
  split
  · rename_i hends
    obtain ⟨hsize, hfull⟩ := hleaves hends
    refine Lines.sizeAt_congr ?_ (l.behind_add _) fun hten => ?_
    · rw [Lines.line_add]
      split
      · rename_i hslot
        rw [hslot] at hn ⊢
        rw [List.length_append, hsize hn]
      · rfl
    · rw [hten] at hn
      have hlen := hsize (hn.mono (Nat.le_of_lt hin))
      show toSize (l.add _).totalSize = _
      rw [Lines.add, if_pos (hfull hn)]
      dsimp only
      rw [toSsize_toSsize_add, List.length_append, ← hlen, sub_add_cancel, toSize_toSsize]
  · rfl

/-- The position stored last: that of the first of the seek commands, behind `front`. -/
def storedPosition {ι : Type} (call : ι → FopsCall) (a₀ : Contents) (front : List ι) :
    List ι → Int
  | [] => a₀.position
  | h :: _ => ((call h).act (after call a₀ front)).position

structure Owned {ι : Type} (call : ι → FopsCall) (a₀ a : Contents) (party : ι → CallPhase)
    (seeks front tail : List ι) : Prop where
  position : a.position = storedPosition call a₀ front seeks
  flushes : ∀ j ∈ tail, call j = .flush → party j = .resetting 2

def Passing {ι : Type} (party : ι → CallPhase) : Prop :=
  (∀ j newPos, party j ≠ .positioned newPos) ∧
    ∃ j, party j = .resetting 2 ∨ party j = .resetting 3

/-- `front` are the writes, reads and flushes that had their places when the last position was
stored, `tail` those behind it; the last seek command to store one is the first of `seeks`. -/
structure SeekKept {ι : Type} (call : ι → FopsCall) (a₀ a : Contents) (party : ι → CallPhase)
    (seeks front tail : List ι) : Prop where
  front_nil : seeks = [] → front = []
  owned : (a.seek = true ∨ ∃ j newPos, party j = .positioned newPos) →
    Owned call a₀ a party seeks front tail ∨ Passing party
  taken : a.seek = true ∨ (∃ j newPos, party j = .positioned newPos) ∨
    (seeks = [] ∧ a₀.seek = false) ∨ Cleared call a₀.lines (front ++ tail)
  untaken : seeks = [] → (∀ j ∈ tail, call j ≠ .flush) → a.seek = true →
    a₀.seek = true ∧ ¬ Cleared call a₀.lines tail

def CallPhase.Watched : CallPhase → Prop
  | resetting made => made = 2 ∨ made = 3
  | positioned _ => True
  | _ => False

theorem update_watched {ι : Type} [DecidableEq ι] {party : ι → CallPhase} {i : ι}
    {p' : CallPhase} (hp : ¬ (party i).Watched) (hp' : ¬ p'.Watched) (j : ι) (q : CallPhase)
    (hq : q.Watched) : Function.update party i p' j = q ↔ party j = q := by
  refine update_eq_iff ?_ ?_ j
  · rintro rfl
    exact hp hq
  · rintro rfl
    exact hp' hq

namespace SeekKept
variable {ι : Type} {call : ι → FopsCall} {a₀ a : Contents} {party party' : ι → CallPhase}
  {seeks front tail : List ι} {i : ι}

theorem start (a₀ : Contents) : SeekKept call a₀ a₀ (fun _ => .called) [] [] [] where
  front_nil _ := rfl
  owned _ := Or.inl ⟨rfl, fun _ h => absurd h List.not_mem_nil⟩
  taken := by
    cases hset : a₀.seek
    · exact Or.inr (Or.inr (Or.inl ⟨rfl, rfl⟩))
    · exact Or.inl rfl
  untaken _ _ hset := ⟨hset, id⟩

theorem congr (k : SeekKept call a₀ a party seeks front tail) {a' : Contents}
    (hposition : a'.position = a.position) (hseek : a'.seek = a.seek)
    (h : ∀ j q, q.Watched → (party' j = q ↔ party j = q)) :
    SeekKept call a₀ a' party' seeks front tail where
  front_nil := k.front_nil
  owned hpending := by
    have hpending : a.seek = true ∨ ∃ j newPos, party j = .positioned newPos := by
      refine hpending.imp (fun hset => hseek.symm.trans hset) ?_
      rintro ⟨j, newPos, hj⟩
      exact ⟨j, newPos, (h j (.positioned newPos) trivial).mp hj⟩
    refine (k.owned hpending).imp (fun o => ⟨hposition.trans o.position, fun j hj hcall => ?_⟩) ?_
    · exact (h j (.resetting 2) (Or.inl rfl)).mpr (o.flushes j hj hcall)
    · rintro ⟨hnone, j, hj⟩
      exact ⟨fun j newPos hp => hnone j newPos ((h j (.positioned newPos) trivial).mp hp),
        j, hj.imp (h j (.resetting 2) (Or.inl rfl)).mpr (h j (.resetting 3) (Or.inr rfl)).mpr⟩
  taken := by
    rw [hseek]
    refine k.taken.imp_right (Or.imp_left ?_)
    rintro ⟨j, newPos, hj⟩
    exact ⟨j, newPos, (h j (.positioned newPos) trivial).mpr hj⟩
  untaken hnil hflush hset := k.untaken hnil hflush (hseek.symm.trans hset)

theorem write (k : SeekKept call a₀ a party seeks front tail) {env : WriteEnv} {buf : List UInt8}
    (hcall : call i = .write env buf) :
    SeekKept call a₀ (a.write buf) party seeks front (tail ++ [i]) where
  front_nil := k.front_nil
  owned hpending := by
    refine (k.owned hpending).imp_left fun o => ⟨o.position, fun j hj hflush => ?_⟩
    rcases List.mem_append.mp hj with hj | hj
    · exact o.flushes j hj hflush
    · rw [List.mem_singleton.mp hj, hcall] at hflush
      cases hflush
  taken := by
    refine k.taken.imp_right (Or.imp_right (Or.imp_right fun hclear => ?_))
    rw [← List.append_assoc, cleared_append_singleton]
    exact Or.inl hclear
  untaken hnil hflush hset := by
    obtain ⟨hset₀, hclear⟩ :=
      k.untaken hnil (fun j hj => hflush j (List.mem_append_left _ hj)) hset
    refine ⟨hset₀, fun h => ?_⟩
    rw [cleared_append_singleton, hcall] at h
    exact h.elim hclear id

theorem read (k : SeekKept call a₀ a party seeks front tail) {env : ReadEnv} {ubuf : List UInt8}
    {count : Nat} {fPos : Int} (hcall : call i = .read env ubuf count fPos)
    (htotal : a.lines.totalSize = (linesAfter call a₀.lines (front ++ tail)).totalSize ∨
      ∃ j ∈ front ++ tail, call j = .flush) :
    SeekKept call a₀ (a.read fPos) party seeks front (tail ++ [i]) where
  front_nil := k.front_nil
  owned hpending := by
    have hpending : a.seek = true ∨ ∃ j newPos, party j = .positioned newPos :=
      hpending.imp_left fun h => (Bool.and_eq_true_iff.mp h).1
    refine (k.owned hpending).imp_left fun o => ⟨o.position, fun j hj hflush => ?_⟩
    rcases List.mem_append.mp hj with hj | hj
    · exact o.flushes j hj hflush
    · rw [List.mem_singleton.mp hj, hcall] at hflush
      cases hflush
  taken := by
    rw [← List.append_assoc, cleared_append_singleton, hcall]
    by_cases hend : a.lines.totalSize ≤ fPos
    · have hsame : (a.read fPos).seek = a.seek := by
        rw [Contents.read, decide_eq_true hend, Bool.and_true]
      rw [hsame]
      exact k.taken.imp_right (Or.imp_right (Or.imp_right Or.inl))
    · refine Or.inr (Or.inr (Or.inr ?_))
      rcases htotal with htotal | ⟨j, hj, hflush⟩
      · refine Or.inr ?_
        rw [htotal] at hend
        exact Int.not_le.mp hend
      · exact Or.inl (cleared_of_flush hj hflush _)
  untaken hnil hflush hset := by
    obtain ⟨hset, hend⟩ := Bool.and_eq_true_iff.mp hset
    obtain ⟨hset₀, hclear⟩ :=
      k.untaken hnil (fun j hj => hflush j (List.mem_append_left _ hj)) hset
    refine ⟨hset₀, fun h => ?_⟩
    rw [cleared_append_singleton, hcall] at h
    rw [k.front_nil hnil, List.nil_append] at htotal
    rcases htotal with htotal | ⟨j, hj, hcallj⟩
    · rw [htotal] at hend
      exact h.elim hclear (not_lt.mpr (of_decide_eq_true hend))
    · exact absurd hcallj (hflush j (List.mem_append_left _ hj))

/-- A write takes its place before flushes that are on their way. -/
theorem defer {a' : Contents} (seeks : List ι)
    (hseek : a'.seek = a.seek) (hnone : ∀ j newPos, party j ≠ .positioned newPos)
    (hclear : a.seek = true → ∃ j, party j = .resetting 2 ∨ party j = .resetting 3) {log : List ι}
    (hlog : ∃ j ∈ log, call j = .flush) : SeekKept call a₀ a' party seeks [] log where
  front_nil _ := rfl
  owned hpending := by
    rcases hpending with hset | ⟨j, newPos, hj⟩
    · exact Or.inr ⟨hnone, hclear (hseek.symm.trans hset)⟩
    · exact absurd hj (hnone j newPos)
  taken := by
    obtain ⟨j, hj, hflush⟩ := hlog
    exact Or.inr (Or.inr (Or.inr (cleared_of_flush hj hflush _)))
  untaken _ hflush := by
    obtain ⟨j, hj, hcall⟩ := hlog
    exact absurd hcall (hflush j hj)

/-! ### The assignments -/

variable [DecidableEq ι]

theorem store {target : AesdSeekto} {newPos : Int} (seeks : List ι)
    (hcall : call i = .seekto target)
    (hsum : newPos = (linesAfter call a₀.lines (front ++ tail)).target target) :
    SeekKept call a₀ { a with position := newPos }
      (Function.update party i (.positioned newPos)) (i :: seeks) (front ++ tail) [] where
  front_nil h := by cases h
  owned _ := by
    refine Or.inl ⟨?_, fun j hj => absurd hj List.not_mem_nil⟩
    rw [hsum, storedPosition, hcall, ← lines_after]
    rfl
  taken := Or.inr (Or.inl ⟨i, newPos, Function.update_self _ _ _⟩)
  untaken h := by cases h

theorem raise (k : SeekKept call a₀ a party seeks front tail) {newPos : Int}
    (hp : party i = .positioned newPos) (hseeks : seeks ≠ []) :
    SeekKept call a₀ { a with seek := true } (Function.update party i .sought) seeks front
      tail where
  front_nil := k.front_nil
  owned _ := by
    rcases k.owned (Or.inr ⟨i, newPos, hp⟩) with o | ⟨hnone, -⟩
    · refine Or.inl ⟨o.position, fun j hj hflush => ?_⟩
      have hold := o.flushes j hj hflush
      rw [Function.update_of_ne (fun hji => by rw [hji, hp] at hold; cases hold)]
      exact hold
    · exact absurd hp (hnone i newPos)
  taken := Or.inl rfl
  untaken h := absurd h hseeks

theorem drop (k : SeekKept call a₀ a party seeks front tail) (hcall : call i = .flush)
    (hp : party i = .resetting 1) {a' : Contents} (hposition : a'.position = a.position)
    (hseek : a'.seek = a.seek) :
    SeekKept call a₀ a' (Function.update party i (.resetting 2)) seeks front (tail ++ [i]) where
  front_nil := k.front_nil
  owned hpending := by
    have hpositioned : ∀ j newPos,
        Function.update party i (.resetting 2) j = .positioned newPos ↔
          party j = .positioned newPos :=
      fun j newPos => update_eq_iff (by rw [hp]; exact CallPhase.noConfusion)
        CallPhase.noConfusion j
    have hpending : a.seek = true ∨ ∃ j newPos, party j = .positioned newPos := by
      refine hpending.imp (fun hset => hseek.symm.trans hset) ?_
      rintro ⟨j, newPos, hj⟩
      exact ⟨j, newPos, (hpositioned j newPos).mp hj⟩
    refine (k.owned hpending).imp (fun o => ⟨hposition.trans o.position, fun j hj hflush => ?_⟩) ?_
    · by_cases hji : j = i
      · rw [hji, Function.update_self]
      · rw [Function.update_of_ne hji]
        refine o.flushes j ?_ hflush
        exact (List.mem_append.mp hj).resolve_right fun h => hji (List.mem_singleton.mp h)
    · rintro ⟨hnone, j, hj⟩
      refine ⟨fun j newPos hpos => hnone j newPos ((hpositioned j newPos).mp hpos), j, ?_⟩
      rw [Function.update_of_ne (fun hji => by rw [hji, hp] at hj; rcases hj with hj | hj <;> cases hj)]
      exact hj
  taken := by
    refine Or.inr (Or.inr (Or.inr ?_))
    rw [← List.append_assoc, cleared_append_singleton, hcall]
    exact Or.inr trivial
  untaken _ hflush := absurd hcall (hflush i (List.mem_append_right _ (List.mem_singleton_self i)))

theorem zero (k : SeekKept call a₀ a party seeks front tail) (hp : party i = .resetting 2)
    (hnone : ∀ j newPos, party j ≠ .positioned newPos) :
    SeekKept call a₀ { a with position := 0 } (Function.update party i (.resetting 3)) seeks front
      tail where
  front_nil := k.front_nil
  owned _ := by
    refine Or.inr ⟨fun j newPos hj => hnone j newPos ?_, i, Or.inr (Function.update_self _ _ _)⟩
    refine (update_eq_iff ?_ CallPhase.noConfusion j).mp hj
    rw [hp]
    exact CallPhase.noConfusion
  taken := by
    refine k.taken.imp_right (Or.imp_left ?_)
    rintro ⟨j, newPos, hj⟩
    exact absurd hj (hnone j newPos)
  untaken := k.untaken

theorem lower (k : SeekKept call a₀ a party seeks front tail) (hcall : call i = .flush)
    (hp : party i = .resetting 3) (hlogged : i ∈ front ++ tail) :
    SeekKept call a₀ { a with seek := false } (Function.update party i (.resetting 4)) seeks front
      tail where
  front_nil := k.front_nil
  owned hpending := by
    obtain ⟨j, newPos, hj⟩ := hpending.resolve_left Bool.false_ne_true
    have hold := (update_eq_iff (by rw [hp]; exact CallPhase.noConfusion)
      CallPhase.noConfusion j).mp hj
    rcases k.owned (Or.inr ⟨j, newPos, hold⟩) with o | ⟨hnone, -⟩
    · refine Or.inl ⟨o.position, fun j hj hflush => ?_⟩
      have hold := o.flushes j hj hflush
      rw [Function.update_of_ne (fun hji => by rw [hji, hp] at hold; cases hold)]
      exact hold
    · exact absurd hold (hnone j newPos)
  taken := Or.inr (Or.inr (Or.inr (cleared_of_flush hlogged hcall _)))
  untaken _ _ h := absurd h Bool.false_ne_true

end SeekKept

namespace CallPhase
variable {p : CallPhase}

def Unplaced : CallPhase → Prop
  | called => True
  | freeing _ => True
  | resetting 0 => True
  | summing _ _ => True
  | summed _ => True
  | prepared _ => True
  | _ => False

theorem Quiet.unplaced (h : p.Quiet) : p.Unplaced := by
  cases p with
  | resetting made => cases made <;> exact h
  | _ => first | exact h | exact h.elim

theorem Quiet.summed (h : p.Quiet) (l : Lines) (c : FopsCall) : Summed l c p := by
  cases p <;> cases c <;> trivial

namespace Unplaced

theorem ne_resetting (h : p.Unplaced) {made : Nat} (hmade : 1 ≤ made) : p ≠ .resetting made := by
  rintro rfl
  cases made with
  | zero => cases hmade
  | succ made => cases h

theorem not_logged (h : p.Unplaced) : ¬ p.Logged := by
  cases p with
  | resetting made => exact fun h2 => h.ne_resetting (Nat.le_of_succ_le h2) rfl
  | _ => first | exact id | cases h

theorem not_sought (h : p.Unplaced) : ¬ p.Sought := by
  cases p <;> first | exact id | cases h

theorem not_watched (h : p.Unplaced) : ¬ p.Watched := by
  cases p with
  | resetting made => rintro (rfl | rfl) <;> cases h
  | _ => first | exact id | cases h

end Unplaced
end CallPhase

theorem FopsCall.At.flush_of_resetting {c : FopsCall} {made : Nat} (h : c.At (.resetting made)) :
    c = .flush ∧ made < flushAssignments := by
  cases c with
  | flush => exact ⟨rfl, h⟩
  | _ => cases h

/-- The contents and the places of the calls in the course of a run. -/
structure Ordered {ι : Type} [DecidableEq ι] (call : ι → FopsCall) (dropped : ι → Prop)
    (a₀ a : Contents) (party : ι → CallPhase) (seeks front tail : List ι) : Prop where
  booked : Booked party seeks (front ++ tail)
  lines : LinesOpen call dropped a₀.lines a.lines party (front ++ tail)
  summed : ∀ j, Summed a.lines (call j) (party j)
  seek : SeekKept call a₀ a party seeks front tail

section Step
variable {ι : Type} [DecidableEq ι] {call : ι → FopsCall} {dropped : ι → Prop}
  {a₀ a a' : Contents} {party : ι → CallPhase} {seeks front tail : List ι} {i : ι} {p' : CallPhase}

theorem Ordered.start (a₀ : Contents) :
    Ordered call dropped a₀ a₀ (fun _ => .called) [] [] [] where
  booked := ⟨List.nodup_nil, List.nodup_nil, fun _ => iff_of_false List.not_mem_nil id,
    fun _ => iff_of_false List.not_mem_nil id⟩
  lines := .start _
  summed _ := CallPhase.Quiet.summed (p := .called) trivial _ _
  seek := .start a₀

theorem Ordered.keep (o : Ordered call dropped a₀ a party seeks front tail)
    (hp : (party i).Unplaced) (hp' : p'.Unplaced) (hsummed : Summed a.lines (call i) p') :
    Ordered call dropped a₀ a (Function.update party i p') seeks front tail where
  booked := o.booked.keep (iff_of_false hp'.not_logged hp.not_logged)
    (iff_of_false hp'.not_sought hp.not_sought)
  lines := o.lines.keep (fun _ h1 => hp.ne_resetting h1) fun _ h1 => hp'.ne_resetting h1
  summed := summed_update o.summed (fun _ _ _ => rfl) hsummed
  seek := o.seek.congr rfl rfl (update_watched hp.not_watched hp'.not_watched)

theorem Ordered.write (o : Ordered call dropped a₀ a party seeks front tail) {env : WriteEnv}
    {buf : List UInt8} {w : WriteCall} (hcall : call i = .write env buf)
    (hp : party i = .prepared w) (hfits : (call i).Fits a.lines)
    (hin : a.lines.inOffs < maxWriteOperationsSupported)
    (hjoined : a.lines.pending.isSome = true → ∀ j, party j ≠ .resetting 1)
    (hended : EndsLine buf → ∀ j made, party j = .resetting made → made < 2)
    (hleaves : EndsLine buf → ∀ j, LeavesSums a.lines
      ((a.lines.pending.getD []).length + buf.length) (call j) (party j)) :
    Ordered call dropped a₀ (a.write buf) (Function.update party i .returned) seeks front
      (tail ++ [i]) where
  booked := by
    rw [← List.append_assoc]
    refine o.booked.book ?_ trivial ?_ <;> rw [hp]
    · exact id
    · exact Iff.rfl
  lines := by
    rw [← List.append_assoc]
    exact o.lines.write hcall hp hjoined hended hfits
  summed := summed_update o.summed
    (fun j n hn => sizeAt_write hin (fun hends => hleaves hends j) n hn) (by rw [hcall]; trivial)
  seek := (o.seek.write hcall).congr rfl rfl (update_watched (by rw [hp]; exact id) id)

/-- A write that adds a line before flushes on their way. -/
theorem Ordered.defer (o : Ordered call dropped a₀ a party seeks front tail)
    (hat : ∀ j, (call j).At (party j)) {env : WriteEnv} {buf : List UInt8} {w : WriteCall}
    (hcall : call i = .write env buf) (hp : party i = .prepared w) (hfits : (call i).Fits a.lines)
    (hin : a.lines.inOffs < maxWriteOperationsSupported) (hends : EndsLine buf)
    (hjoined : a.lines.pending.isSome = true → ∀ j, party j ≠ .resetting 1)
    (hleaves : ∀ j, LeavesSums a.lines
      ((a.lines.pending.getD []).length + buf.length) (call j) (party j))
    (hlate : ∀ j, (party j).Resetting → Late dropped party j)
    (hsome : ∃ j, (party j).Resetting) (hnone : ∀ j newPos, party j ≠ .positioned newPos)
    (hclear : a.seek = true → ∃ j, party j = .resetting 2 ∨ party j = .resetting 3) :
    ∃ tail', Ordered call dropped a₀ (a.write buf) (Function.update party i .returned) seeks []
      tail' := by
  have hlogged : ∀ j, (party j).Resetting → j ∈ front ++ tail := by
    intro j hj
    refine (o.booked.mem_log j).mpr ?_
    generalize party j = p at hj
    cases p <;> first | exact hj | exact hj.elim
  have hcalls : ∀ j, (party j).Resetting → call j = .flush := by
    intro j hj
    obtain ⟨made, hphase, -⟩ := CallPhase.resetting_iff.mp hj
    have hatj := hat j
    rw [hphase] at hatj
    exact hatj.flush_of_resetting.1
  have hbooked : Booked (Function.update party i .returned) seeks ((front ++ tail) ++ [i]) := by
    refine o.booked.book ?_ trivial ?_ <;> rw [hp]
    · exact id
    · exact Iff.rfl
  refine ⟨(front ++ tail).filter (fun j => ¬ (party j).Resetting) ++ [i] ++
    (front ++ tail).filter fun j => (party j).Resetting, ?_, ?_, ?_, ?_⟩
  · refine hbooked.perm ?_
    rw [List.nil_append, List.append_assoc]
    refine (List.Perm.append_left _ List.perm_append_comm).trans ?_
    rw [← List.append_assoc]
    refine List.Perm.append_right [i] (List.perm_append_comm.trans ?_)
    simpa only [decide_not] using
      List.filter_append_perm (fun j => decide (party j).Resetting) (front ++ tail)
  · exact o.lines.defer hcall hp hends hjoined hlate hfits o.booked.nodup_log hlogged hcalls
  · exact summed_update o.summed (fun j n hn => sizeAt_write hin (fun _ => hleaves j) n hn)
      (by rw [hcall]; trivial)
  · obtain ⟨j, hj⟩ := hsome
    refine (SeekKept.defer (a := a) seeks rfl hnone hclear ⟨j, ?_, hcalls j hj⟩).congr rfl rfl
      (update_watched (by rw [hp]; exact id) id)
    exact List.mem_append_right _ (List.mem_filter.mpr ⟨hlogged j hj, decide_eq_true hj⟩)

theorem Ordered.read (o : Ordered call dropped a₀ a party seeks front tail)
    (hat : ∀ j, (call j).At (party j)) {env : ReadEnv} {ubuf : List UInt8} {count : Nat}
    {fPos : Int} (hcall : call i = .read env ubuf count fPos) (hp : party i = .called) :
    Ordered call dropped a₀ (a.read fPos) (Function.update party i .returned) seeks front
      (tail ++ [i]) where
  booked := by
    rw [← List.append_assoc]
    refine o.booked.book ?_ trivial ?_ <;> rw [hp]
    · exact id
    · exact Iff.rfl
  lines := by
    rw [← List.append_assoc]
    exact o.lines.read (by rw [hcall]; rfl) hp
  summed := summed_update o.summed (fun _ _ _ => rfl) (by rw [hcall]; trivial)
  seek := by
    refine (o.seek.read hcall ?_).congr rfl rfl (update_watched (by rw [hp]; exact id) id)
    rcases o.lines.kept.ring with hsame | ⟨j, made, hj, h2⟩
    · exact Or.inl hsame.totalSize
    · refine Or.inr ⟨j, (o.booked.mem_log j).mpr (by rw [hj]; exact h2), ?_⟩
      have hatj := hat j
      rw [hj] at hatj
      exact hatj.flush_of_resetting.1

theorem Ordered.sizeAt_eq (o : Ordered call dropped a₀ a party seeks front tail) {n : Nat}
    (htotal : n = maxWriteOperationsSupported → (∃ j, (party j).Resetting) →
      a.lines.totalSize = 0) :
    a.lines.sizeAt n = (linesAfter call a₀.lines (front ++ tail)).sizeAt n := by
  have hkept := o.lines.kept
  refine Lines.sizeAt_congr (hkept.length n) hkept.behind fun hten => ?_
  rcases hkept.ring with hsame | ⟨j, made, hj, h2⟩
  · rw [hsame.totalSize]
  · rw [(hkept.reset j made hj h2).1.totalSize, htotal hten ⟨j, by rw [hj]; exact h2⟩]

theorem Ordered.store (o : Ordered call dropped a₀ a party seeks front tail) {target : AesdSeekto}
    {newPos : Int} (hcall : call i = .seekto target) (hp : party i = .summed newPos)
    (hstored : maxWriteOperationsSupported < target.writeCmd → (∃ j, (party j).Resetting) →
      a.lines.totalSize = 0) :
    Ordered call dropped a₀ { a with position := newPos }
      (Function.update party i (.positioned newPos)) (i :: seeks) (front ++ tail) [] where
  booked := by
    rw [List.append_nil]
    refine o.booked.bookSeek ?_ trivial ?_ <;> rw [hp]
    · exact id
    · exact Iff.rfl
  lines := by
    rw [List.append_nil]
    refine o.lines.keep (fun made _ => ?_) fun made _ => CallPhase.noConfusion
    rw [hp]
    exact CallPhase.noConfusion
  summed := summed_update o.summed (fun _ _ _ => rfl) (by rw [hcall]; trivial)
  seek := by
    have hsum := o.summed i
    rw [hcall, hp] at hsum
    refine .store seeks hcall (hsum.trans (Lines.target_congr fun n hn => o.sizeAt_eq ?_))
    exact fun hten => hstored (by rw [← hten]; exact hn)

theorem Ordered.raise (o : Ordered call dropped a₀ a party seeks front tail) {target : AesdSeekto}
    {newPos : Int} (hcall : call i = .seekto target) (hp : party i = .positioned newPos) :
    Ordered call dropped a₀ { a with seek := true } (Function.update party i .sought) seeks front
      tail where
  booked := by
    refine o.booked.keep ?_ ?_ <;> rw [hp]
    · exact Iff.rfl
    · exact Iff.rfl
  lines := by
    refine o.lines.keep (fun made _ => ?_) fun made _ => CallPhase.noConfusion
    rw [hp]
    exact CallPhase.noConfusion
  summed := summed_update o.summed (fun _ _ _ => rfl) (by rw [hcall]; trivial)
  seek := by
    refine o.seek.raise hp (List.ne_nil_of_mem ((o.booked.mem_seeks i).mpr ?_))
    rw [hp]
    trivial

theorem SeekKept.resets (k : SeekKept call a₀ a party seeks front tail) {made : Nat}
    (hp : party i = .resetting made) (h4 : 4 ≤ made) :
    SeekKept call a₀ (a.assign made) (Function.update party i
      (if made + 1 < flushAssignments then .resetting (made + 1) else .returned)) seeks front
        tail := by
  have hkeep : (a.assign made).position = a.position ∧ (a.assign made).seek = a.seek := by
    match made, h4 with
    | 4, _ | 5, _ | 6, _ | _ + 7, _ => exact ⟨rfl, rfl⟩
  refine k.congr hkeep.1 hkeep.2 (update_watched ?_ ?_)
  · rw [hp]
    rintro (rfl | rfl) <;> omega
  · split
    · rintro (h | h) <;> omega
    · exact id

theorem Ordered.assign (o : Ordered call dropped a₀ a party seeks front tail) {made : Nat}
    (hcall : call i = .flush) (hp : party i = .resetting made) (hmade : made < flushAssignments)
    (hnone : made = 2 → ∀ j newPos, party j ≠ .positioned newPos)
    (hdropped : made = 1 → ¬ dropped i → a.lines.pending = none)
    (hcounted : made = 7 → ∀ j, Added (call j) (party j) maxWriteOperationsSupported →
      a.lines.totalSize = 0) :
    ∃ tail', Ordered call dropped a₀ (a.assign made) (Function.update party i
      (if made + 1 < flushAssignments then .resetting (made + 1) else .returned)) seeks front
        tail' := by
  have hsummed : ∀ {p' : CallPhase} (j : ι),
      Summed (a.assign made).lines (call j) (Function.update party i p' j) := by
    refine fun {p'} => summed_update o.summed (fun j n hn => ?_) (by rw [hcall]; trivial)
    refine Lines.sizeAt_congr (a.length_line_assign made n) (a.behind_assign made) fun hten => ?_
    by_cases h7 : made = 7
    · rw [a.totalSize_assign h7, hcounted h7 j (by rw [← hten]; exact hn)]
    · rw [a.totalSize_of_assign h7 hmade]
  have hbooked : 2 ≤ made → Booked (Function.update party i
      (if made + 1 < flushAssignments then .resetting (made + 1) else .returned)) seeks
        (front ++ tail) := by
    intro h2
    refine o.booked.keep (iff_of_true ?_ ?_) (iff_of_false ?_ ?_)
    · split
      · exact Nat.le_succ_of_le h2
      · trivial
    · rw [hp]
      exact h2
    · split <;> exact id
    · rw [hp]
      exact id
  match made, hp, hmade, hnone, hdropped with
  | 0, hp, _, _, _ =>
      refine ⟨tail, o.booked.keep ?_ ?_, o.lines.cut hp, hsummed,
        o.seek.congr rfl rfl (update_watched ?_ ?_)⟩
      · rw [hp]
        exact iff_of_false (by decide : ¬ 2 ≤ 1) (by decide : ¬ 2 ≤ 0)
      · rw [hp]
        exact Iff.rfl
      · rw [hp]
        rintro (h | h) <;> cases h
      · rintro (h | h) <;> cases h
  | 1, hp, _, _, hdropped =>
      have hfree : ¬ (party i).Logged := by
        rw [hp]
        exact (by decide : ¬ 2 ≤ 1)
      refine ⟨tail ++ [i], ?_, ?_, hsummed, o.seek.drop hcall hp rfl rfl⟩
      · rw [← List.append_assoc]
        refine o.booked.book hfree (Nat.le_refl 2) ?_
        rw [hp]
        exact Iff.rfl
      · rw [← List.append_assoc]
        exact o.lines.drop hcall hp (fun h => hfree ((o.booked.mem_log i).mp h)) (hdropped rfl)
  | 2, hp, hmade, hnone, _ =>
      exact ⟨tail, hbooked (Nat.le_refl 2), o.lines.resets hp (Nat.le_refl 2) hmade, hsummed,
        o.seek.zero hp (hnone rfl)⟩
  | 3, hp, hmade, _, _ =>
      refine ⟨tail, hbooked (by decide), o.lines.resets hp (by decide) hmade, hsummed,
        o.seek.lower hcall hp ((o.booked.mem_log i).mpr ?_)⟩
      rw [hp]
      exact (by decide : 2 ≤ 3)
  | made + 4, hp, hmade, _, _ =>
      exact ⟨tail, hbooked (by omega), o.lines.resets hp (by omega) hmade, hsummed,
        o.seek.resets hp (Nat.le_add_left 4 made)⟩

end Step
end Aesd

import Aesd.ServerProcess

/-! The server does not get stuck. Where every connection can be served, no thread ends the process, and
from every state that the server gets to, each connection accepted can be served to its end and
another one accepted. -/
namespace Aesd
open CString LockedSection Replay

section Progress
variable {σ δ κ : Type} {e : Platform σ δ κ} {good : δ → Prop} {d₀ d : δ} {s s' : Server δ κ}
  {t i : Nat} {r : κ × Int}

/-- From good data every connection can be served, which leaves good data. -/
def Servable (e : Platform σ δ κ) (good : δ → Prop) : Prop :=
  ∀ d t, good d → ∃ rounds x, e.serve rounds d t = some x ∧ x.2.2 ≠ -1 ∧ good x.1

theorem Platform.serve_unique {rounds rounds' : Nat} {x x' : δ × (κ × Int)}
    (h : e.serve rounds d t = some x) (h' : e.serve rounds' d t = some x') : x' = x := by
  have hmore := serve_add rounds rounds' d t h
  rw [Nat.add_comm, serve_add rounds' rounds d t h', Option.some.injEq] at hmore
  exact hmore

theorem Servable.replay (hserve : Servable e good) {rounds : Nat} {ts : List Nat} {d' : δ}
    {results : List (κ × Int)} (hgood : good d)
    (hrun : Replay.replay (e.serve rounds) d ts = some (d', results)) :
    good d' ∧ ∀ r ∈ results, r.2 ≠ -1 := by
  induction ts generalizing d results with
  | nil =>
      cases hrun
      exact ⟨hgood, fun r hr => by cases hr⟩
  | cons t ts ih =>
      obtain ⟨x, hfirst, hrun⟩ := Option.bind_eq_some_iff.mp hrun
      obtain ⟨u, hrest, heq⟩ := Option.bind_eq_some_iff.mp hrun
      cases heq
      obtain ⟨rounds', x', hx', hok, hgood'⟩ := hserve d t hgood
      obtain rfl := Platform.serve_unique hx' hfirst
      obtain ⟨hend, hresults⟩ := ih hgood' hrest
      exact ⟨hend, List.forall_mem_cons.mpr ⟨hok, hresults⟩⟩

namespace ServerInv

theorem ended_mem (inv : ServerInv e d₀ s) {finished : List Nat}
    (current : Current e.code e.enter finished d s.device s.thread) (h : (s.thread t).Ended r) :
    t ∈ finished := by
  have hin : t ∈ s.device.order := by
    rw [inv.turns.lock.mem_iff]
    revert h
    cases s.thread t <;> first | exact fun _ => trivial | exact False.elim
  cases current with
  | between none order data => rwa [order] at hin
  | inside j l here order goes =>
      rw [order] at hin
      rcases List.mem_append.mp hin with hin | hin
      · exact hin
      · rw [List.mem_singleton.mp hin, here] at h
        exact h.elim

theorem ended_ok (inv : ServerInv e d₀ s) (hserve : Servable e good) (hgood : good d₀)
    (h : (s.thread t).Ended r) : r.2 ≠ -1 := by
  obtain ⟨rounds, finished, d, results, hrun, hresults, current⟩ :=
    (servedInTurn_of_inTurn inv.turns).served
  have hfinished := inv.ended_mem current h
  obtain ⟨n, hn, rfl⟩ := List.getElem_of_mem hfinished
  have hn' : n < results.length := by rw [← hresults.length_eq]; exact hn
  have hend := hresults.get hn hn'
  have hmem : results[n] ∈ results := List.getElem_mem hn'
  have hsame : r = results[n] := by
    dsimp only [List.get_eq_getElem] at hend
    cases hphase : s.thread finished[n] <;> rw [hphase] at h hend <;>
      first | exact h.elim | exact h.symm.trans hend
  rw [hsame]
  exact (hserve.replay hgood hrun).2 _ hmem

theorem completes (inv : ServerInv e d₀ s) (hserve : Servable e good) (hgood : good d₀)
    {l : κ × ThreadPhase} (h : s.thread i = .inside l) :
    ∃ n x, complete e.code i n l s.device.data = some x := by
  obtain ⟨rounds, finished, d, results, hrun, hresults, current⟩ :=
    (servedInTurn_of_inTurn inv.turns).served
  obtain ⟨-, hgoes⟩ := inv.turns.inside current h
  obtain ⟨rounds', x, hx, -⟩ := hserve d i (hserve.replay hgood hrun).1
  obtain ⟨n, hn⟩ := complete_of_path hgoes (Platform.whole_of_serve hx)
  exact ⟨n, x, hn⟩

theorem not_ended (inv : ServerInv e d₀ s) (hserve : Servable e good) (hgood : good d₀)
    (hup : s.ended = false) (move : ServerMove e s s') : s'.ended = false := by
  cases move with
  | main step => exact hup
  | serving created move => exact hup
  | finish served ok exit => exact hup
  | @failed t r served fails =>
      have hend : (s.thread t).Ended r := by
        rw [served]
        rfl
      exact absurd fails (inv.ended_ok hserve hgood hend)
  | crashed inside null =>
      obtain ⟨n, x, hn⟩ := inv.completes hserve hgood inside
      obtain ⟨m, d', -, ⟨l', hcode, -⟩ | ⟨r, hcode, -⟩⟩ := complete_cases hn <;>
        cases null.symm.trans hcode

end ServerInv

def Leads (e : Platform σ δ κ) (s s' : Server δ κ) : Prop :=
  ∃ schedule, serverRun e s schedule = some s'

theorem Leads.refl (s : Server δ κ) : Leads e s s := ⟨[], rfl⟩

theorem Leads.trans {u : Server δ κ} (h : Leads e s s') (h' : Leads e s' u) :
    Leads e s u := by
  obtain ⟨first, hfirst⟩ := h
  obtain ⟨second, hsecond⟩ := h'
  refine ⟨first ++ second, ?_⟩
  rw [serverRun, List.foldlM_append]
  exact (congrArg (fun o => o.bind fun s => serverRun e s second) hfirst).trans hsecond

theorem Leads.step {who : Option Nat} (h : serverStep e who s = some s') : Leads e s s' :=
  ⟨[who], by simp [serverRun, h]⟩

theorem Leads.inv (inv : ServerInv e d₀ s) (h : Leads e s s') : ServerInv e d₀ s' := by
  obtain ⟨schedule, hrun⟩ := h
  exact serverRun_invariant (fun _ _ inv move => inv.move move) inv schedule hrun

structure Beside (s s' : Server δ κ) : Prop where
  main : s'.main = s.main
  up : s'.ended = false
  table : s'.table = { s.table with
    exited := s'.table.exited, threadCompleteSuccess := s'.table.threadCompleteSuccess }

theorem Beside.refl (hup : s.ended = false) : Beside s s := ⟨rfl, hup, rfl⟩

theorem Beside.trans {u : Server δ κ} (h : Beside s s') (h' : Beside s' u) : Beside s u :=
  ⟨h'.main.trans h.main, h'.up, by rw [h'.table, h.table]⟩

theorem serverStep_thread {g : Shared Nat δ} {p : Phase (κ × ThreadPhase) (κ × Int)}
    (hup : s.ended = false) (hcreated : t < s.table.created) (hgoing : ∀ r, s.thread t ≠ .after r)
    (hcrash : crashes (s.thread t) = false)
    (hact : act e.code e.enter t s.device (s.thread t) = some (g, p)) :
    serverStep e (some t) s = some { s with device := g, thread := Function.update s.thread t p } := by
  have hturn : threadTurn e t s =
      some { s with device := g, thread := Function.update s.thread t p } := by
    rw [threadTurn]
    split
    · rename_i r hafter
      exact absurd hafter (hgoing r)
    · rw [hcrash, if_neg Bool.false_ne_true, hact, Option.map_some]
  unfold serverStep
  rw [if_neg (by rw [hup]; exact Bool.false_ne_true)]
  dsimp only
  rw [if_pos hcreated, hturn]

theorem crashes_of_code {l : κ × ThreadPhase} {x : δ × ((κ × ThreadPhase) ⊕ (κ × Int))}
    (h : e.code t l d = some x) : crashes (.inside l : Phase _ (κ × Int)) = false := by
  refine Bool.eq_false_iff.mpr fun hcrash => ?_
  obtain ⟨l', heq, hnull⟩ := code_of_crashes (e := e) hcrash
  cases heq
  cases (hnull t d).symm.trans h

theorem reaches_leaving (n : Nat) {l : κ × ThreadPhase} {d' : δ}
    (hn : complete e.code t n l s.device.data = some (d', r)) (hphase : s.thread t = .inside l)
    (hup : s.ended = false) (hcreated : t < s.table.created) : ∃ s', Leads e s s' ∧ Beside s s' ∧
      s'.thread = Function.update s.thread t (.leaving r) := by
  induction n generalizing s l with
  | zero => cases hn
  | succ n ih =>
      obtain ⟨m, d₁, hm, ⟨l₁, hcode, hrest⟩ | ⟨r', hcode, heq⟩⟩ := complete_cases hn
      · obtain rfl := Nat.succ.inj hm
        have hact : act e.code e.enter t s.device (s.thread t) =
            some ({ s.device with data := d₁ }, .inside l₁) := by
          rw [hphase, act, hcode, Option.map_some]
        have hstep := serverStep_thread hup hcreated (by rw [hphase]; exact fun _ h => by cases h)
          (by rw [hphase]; exact crashes_of_code hcode) hact
        obtain ⟨s', hreach, beside, hthread⟩ := ih
          (s := { s with device := { s.device with data := d₁ }
                         thread := Function.update s.thread t (.inside l₁) })
          hrest (Function.update_self ..) hup hcreated
        refine ⟨s', (Leads.step hstep).trans hreach, ⟨beside.main, beside.up, beside.table⟩, ?_⟩
        rw [hthread, Function.update_idem]
      · cases heq
        have hact : act e.code e.enter t s.device (s.thread t) =
            some ({ s.device with data := d' }, .leaving r) := by
          rw [hphase, act, hcode, Option.map_some]
        have hstep := serverStep_thread hup hcreated (by rw [hphase]; exact fun _ h => by cases h)
          (by rw [hphase]; exact crashes_of_code hcode) hact
        exact ⟨_, .step hstep, ⟨rfl, hup, rfl⟩, rfl⟩

theorem reaches_exit_of_leaving (hphase : s.thread t = .leaving r) (hok : r.2 ≠ -1)
    (hup : s.ended = false) (hcreated : t < s.table.created) (hexited : s.table.exited t = false) :
    ∃ s', Leads e s s' ∧ Beside s s' ∧ s'.table.exited t = true ∧ s'.device.locked = false ∧
      s'.thread = Function.update s.thread t (.after r) ∧
      s'.table.exited = Function.update s.table.exited t true := by
  have hstep := serverStep_thread (e := e) (g := { s.device with locked := false }) (p := .after r) hup
    hcreated (by rw [hphase]; exact fun _ h => by cases h) (by rw [hphase]; rfl) (by rw [hphase]; rfl)
  have hlast : serverStep e (some t) { s with
      device := { s.device with locked := false }
      thread := Function.update s.thread t (.after r) } = some { s with
      device := { s.device with locked := false }
      thread := Function.update s.thread t (.after r)
      table := { s.table with
        threadCompleteSuccess := Function.update s.table.threadCompleteSuccess t true
        exited := Function.update s.table.exited t true } } := by
    unfold serverStep
    simp only [hup, Bool.false_eq_true, if_false, hcreated, if_true, threadTurn,
      Function.update_self, hok, exitStep, hexited, and_self, Option.map_some]
  exact ⟨_, (Leads.step hstep).trans (.step hlast), ⟨rfl, hup, rfl⟩, Function.update_self .., rfl,
    rfl, rfl⟩

namespace ServerInv

theorem created_of_entered (inv : ServerInv e d₀ s) (h : (s.thread t).Entered) :
    t < s.table.created := by
  by_contra hge
  rw [inv.unborn t (Nat.not_lt.mp hge)] at h
  exact h

theorem not_exited (inv : ServerInv e d₀ s) (h : ∀ r, s.thread t ≠ .after r) :
    s.table.exited t = false := by
  refine Bool.eq_false_iff.mpr fun hexited => ?_
  obtain ⟨r, hafter⟩ := inv.gone t hexited
  exact h r hafter

theorem holder_exits (inv : ServerInv e d₀ s) (hserve : Servable e good) (hgood : good d₀)
    (hup : s.ended = false) (h : (s.thread i).Holds) : ∃ s' r, Leads e s s' ∧ Beside s s' ∧
      s'.table.exited i = true ∧ s'.device.locked = false ∧
      s'.thread = Function.update s.thread i (.after r) := by
  have hentered : (s.thread i).Entered := by
    cases hphase : s.thread i <;> rw [hphase] at h <;> trivial
  have hcreated := inv.created_of_entered hentered
  obtain ⟨r, s₁, hreach, beside, hthread⟩ : ∃ r s₁, Leads e s s₁ ∧ Beside s s₁ ∧
      s₁.thread = Function.update s.thread i (.leaving r) := by
    cases hphase : s.thread i with
    | inside l =>
        obtain ⟨n, x, hn⟩ := inv.completes hserve hgood hphase
        obtain ⟨s₁, hreach, beside, hthread⟩ := reaches_leaving n hn hphase hup hcreated
        exact ⟨x.2, s₁, hreach, beside, hthread⟩
    | leaving r => exact ⟨r, s, .refl s, .refl hup, by rw [← hphase, Function.update_eq_self]⟩
    | before =>
        rw [hphase] at h
        exact h.elim
    | after r =>
        rw [hphase] at h
        exact h.elim
  have hleaving : s₁.thread i = .leaving r := by rw [hthread, Function.update_self]
  have inv₁ := hreach.inv inv
  have hok := inv₁.ended_ok hserve hgood (t := i) (r := r) (by rw [hleaving]; rfl)
  obtain ⟨s', hreach', beside', hexited, hfree, hafter, -⟩ := reaches_exit_of_leaving hleaving hok
    beside.up (inv₁.created_of_entered (by rw [hleaving]; trivial))
    (inv₁.not_exited (by rw [hleaving]; exact fun _ h => by cases h))
  exact ⟨s', r, hreach.trans hreach', beside.trans beside', hexited, hfree,
    by rw [hafter, hthread, Function.update_idem]⟩

/-- Every connection that has been accepted can be served to its end. -/
theorem reaches_exit (inv : ServerInv e d₀ s) (hserve : Servable e good) (hgood : good d₀)
    (hup : s.ended = false) (hcreated : t < s.table.created) :
    ∃ s', Leads e s s' ∧ Beside s s' ∧ s'.table.exited t = true := by
  cases hphase : s.thread t with
  | before =>
      obtain ⟨s₁, hreach, beside, hfree, hbefore⟩ : ∃ s₁, Leads e s s₁ ∧ Beside s s₁ ∧
          s₁.device.locked = false ∧ s₁.thread t = .before := by
        cases hlocked : s.device.locked with
        | false => exact ⟨s, .refl s, .refl hup, hlocked, hphase⟩
        | true =>
            obtain ⟨i, hholds⟩ := inv.turns.lock.exclusive.locked_iff.mp hlocked
            obtain ⟨s₁, r, hreach, beside, -, hfree, hthread⟩ :=
              inv.holder_exits hserve hgood hup hholds
            refine ⟨s₁, hreach, beside, hfree, ?_⟩
            rw [hthread, Function.update_of_ne, hphase]
            rintro rfl
            rw [hphase] at hholds
            exact hholds
      have hact : act e.code e.enter t s₁.device (s₁.thread t) = some
          ({ s₁.device with locked := true, order := s₁.device.order ++ [t] },
            .inside (e.enter t)) := by
        rw [hbefore, act, hfree, if_neg Bool.false_ne_true]
      have hstep := serverStep_thread beside.up (by rw [beside.table]; exact hcreated)
        (by rw [hbefore]; exact fun _ h => by cases h) (by rw [hbefore]; rfl) hact
      have inv₂ := (hreach.trans (.step hstep)).inv inv
      obtain ⟨s', r, hreach', beside', hexited, -, -⟩ := inv₂.holder_exits (i := t) hserve hgood
        beside.up (by dsimp only; rw [Function.update_self]; trivial)
      refine ⟨s', (hreach.trans (.step hstep)).trans hreach', beside.trans ?_, hexited⟩
      exact ⟨beside'.main, beside'.up, beside'.table⟩
  | inside l =>
      obtain ⟨s', r, hreach, beside, hexited, -⟩ :=
        inv.holder_exits (i := t) hserve hgood hup (by rw [hphase]; trivial)
      exact ⟨s', hreach, beside, hexited⟩
  | leaving r =>
      obtain ⟨s', r, hreach, beside, hexited, -⟩ :=
        inv.holder_exits (i := t) hserve hgood hup (by rw [hphase]; trivial)
      exact ⟨s', hreach, beside, hexited⟩
  | after r =>
      cases hexited : s.table.exited t with
      | true => exact ⟨s, .refl s, .refl hup, hexited⟩
      | false =>
          have hok := inv.ended_ok hserve hgood (t := t) (r := r) (by rw [hphase]; rfl)
          have hstep : serverStep e (some t) s = some { s with table := { s.table with
              threadCompleteSuccess := Function.update s.table.threadCompleteSuccess t true
              exited := Function.update s.table.exited t true } } := by
            unfold serverStep
            simp only [hup, Bool.false_eq_true, if_false, hcreated, if_true, threadTurn, hphase, hok,
              exitStep, hexited, and_self, Option.map_some]
          exact ⟨_, .step hstep, ⟨rfl, hup, rfl⟩, Function.update_self ..⟩

end ServerInv

theorem leads_main {m : ThreadTable} {p : LoopPhase} (hup : s.ended = false)
    (hstep : loopStep s.table s.main = some (m, p)) :
    Leads e s { s with table := m, main := p } := by
  have hnext : serverStep e none s = some { s with table := m, main := p } := by
    unfold serverStep
    rw [if_neg (by rw [hup]; exact Bool.false_ne_true)]
    dsimp only
    rw [hstep, Option.map_some]
  exact .step hnext

def ThreadTable.passLeft (m : ThreadTable) : Nat := m.pass.length - m.visited.length

structure Passes (s s' : Server δ κ) : Prop where
  up : s'.ended = false
  created : s'.table.created = s.table.created
  left : s'.table.passLeft ≤ s.table.passLeft

theorem Passes.trans {u : Server δ κ} (h : Passes s s') (h' : Passes s' u) : Passes s u :=
  ⟨h'.up, h'.created.trans h.created, h'.left.trans h.left⟩

theorem Beside.passes (h : Beside s s') : Passes s s' := by
  refine ⟨h.up, ?_, ?_⟩ <;> rw [h.table]
  exact Nat.le_refl _

namespace ServerInv
variable {datap : Nat} {datapTemp : Option Nat}

theorem leads_of_removing (inv : ServerInv e d₀ s) (hfew : s.table.created < 2 ^ 31)
    (hup : s.ended = false) (hmain : s.main = .removing datap datapTemp) :
    ∃ s', Leads e s s' ∧ Passes s s' ∧ s'.main = .visiting datapTemp := by
  obtain ⟨l, serial⟩ := inv.serial hfew
  rw [hmain] at serial
  obtain ⟨head, -, hremove, -⟩ := serial.toLoopInv.remove
  have hstep : loopStep s.table s.main = some ({ s.table with head := head },
      .visiting datapTemp) := by
    rw [hmain, loopStep, hremove, Option.map_some]
  exact ⟨_, leads_main hup hstep, ⟨hup, rfl, Nat.le_refl _⟩, rfl⟩

theorem leads_of_joining (inv : ServerInv e d₀ s) (hserve : Servable e good) (hgood : good d₀)
    (hfew : s.table.created < 2 ^ 31) (hup : s.ended = false)
    (hmain : s.main = .joining datap datapTemp) :
    ∃ s', Leads e s s' ∧ Passes s s' ∧ s'.main = .visiting datapTemp := by
  obtain ⟨l, serial⟩ := inv.serial hfew
  rw [hmain] at serial
  have hmem : datap ∈ l := serial.here_mem (List.mem_singleton_self _)
  obtain ⟨s₁, hlead, beside, hexited⟩ :=
    inv.reaches_exit hserve hgood hup (serial.lt_created datap hmem)
  have hid : s₁.table.threadId datap = datap := by
    rw [beside.table]
    exact serial.fields datap hmem
  have hstep : loopStep s₁.table s₁.main = some
      ({ s₁.table with joined := s₁.table.joined ++ [datap] }, .removing datap datapTemp) := by
    rw [beside.main, hmain, loopStep, hid, if_pos hexited]
  have hnext := hlead.trans (leads_main beside.up hstep)
  obtain ⟨s₂, hlead', passes, hvisiting⟩ := (hnext.inv inv).leads_of_removing
    (by dsimp only; rw [beside.table]; exact hfew) beside.up rfl
  refine ⟨s₂, hnext.trans hlead', beside.passes.trans ?_, hvisiting⟩
  exact ⟨passes.up, passes.created, passes.left⟩

theorem leads_of_examining (inv : ServerInv e d₀ s) (hserve : Servable e good) (hgood : good d₀)
    (hfew : s.table.created < 2 ^ 31) (hup : s.ended = false)
    (hmain : s.main = .examining datap datapTemp) :
    ∃ s', Leads e s s' ∧ Passes s s' ∧ s'.table.passLeft < s.table.passLeft ∧
      s'.main = .visiting datapTemp := by
  obtain ⟨l, serial⟩ := inv.serial hfew
  rw [hmain] at serial
  obtain ⟨m, hstep, hcreated, hleft⟩ : ∃ m, loopStep s.table s.main = some
      (m, .joining datap datapTemp) ∧ m.created = s.table.created ∧
        m.passLeft < s.table.passLeft := by
    obtain ⟨kept, rest, -, -, hpass⟩ := serial.position
    have hexamining := loopStep_examining s.table datap datapTemp
    rw [← hmain] at hexamining
    refine ⟨_, hexamining, rfl, ?_⟩
    simp only [ThreadTable.passLeft, hpass, LoopPhase.due, List.length_append, List.length_singleton]
    omega
  have hnext := leads_main (e := e) hup hstep
  obtain ⟨s₂, hlead', passes, hvisiting⟩ := (hnext.inv inv).leads_of_joining hserve hgood
    (by dsimp only; rw [hcreated]; exact hfew) hup rfl
  have hless : s₂.table.passLeft < s.table.passLeft := Nat.lt_of_le_of_lt passes.left hleft
  exact ⟨s₂, hnext.trans hlead', ⟨passes.up, passes.created.trans hcreated, hless.le⟩, hless,
    hvisiting⟩

theorem leads_of_visiting (n : Nat) (inv : ServerInv e d₀ s) (hserve : Servable e good)
    (hgood : good d₀) (hfew : s.table.created < 2 ^ 31) (hup : s.ended = false)
    (hmain : s.main = .visiting datapTemp) (hn : s.table.passLeft ≤ n) :
    ∃ s', Leads e s s' ∧ s'.ended = false ∧ s'.main = .accepting ∧
      s'.table.created = s.table.created := by
  induction n generalizing s datapTemp with
  | zero =>
      cases datapTemp with
      | none =>
          have hstep : loopStep s.table s.main = some (s.table, .accepting) := by
            rw [hmain, loopStep]
          exact ⟨_, leads_main hup hstep, hup, rfl, rfl⟩
      | some datap =>
          have hstep : loopStep s.table s.main = some
              (s.table, .examining datap (s.table.head.next datap)) := by
            rw [hmain, loopStep]
          have hnext := leads_main (e := e) hup hstep
          obtain ⟨s₁, -, -, hless, -⟩ :=
            (hnext.inv inv).leads_of_examining hserve hgood hfew hup rfl
          exact absurd (Nat.lt_of_lt_of_le hless hn) (Nat.not_lt_zero _)
  | succ n ih =>
      cases datapTemp with
      | none =>
          have hstep : loopStep s.table s.main = some (s.table, .accepting) := by
            rw [hmain, loopStep]
          exact ⟨_, leads_main hup hstep, hup, rfl, rfl⟩
      | some datap =>
          have hstep : loopStep s.table s.main = some
              (s.table, .examining datap (s.table.head.next datap)) := by
            rw [hmain, loopStep]
          have hnext := leads_main (e := e) hup hstep
          obtain ⟨s₁, hlead, passes, hless, hvisiting⟩ :=
            (hnext.inv inv).leads_of_examining hserve hgood hfew hup rfl
          have hall := hnext.trans hlead
          obtain ⟨s', hlead', hup', hmain', hcreated⟩ := ih (hall.inv inv)
            (by rw [passes.created]; exact hfew) passes.up hvisiting
            (Nat.le_of_lt_succ (Nat.lt_of_lt_of_le hless hn))
          exact ⟨s', hall.trans hlead', hup', hmain', hcreated.trans passes.created⟩

theorem leads_to_accepting (inv : ServerInv e d₀ s) (hserve : Servable e good) (hgood : good d₀)
    (hfew : s.table.created < 2 ^ 31) (hup : s.ended = false) :
    ∃ s', Leads e s s' ∧ s'.ended = false ∧ s'.main = .accepting ∧
      s'.table.created = s.table.created := by
  have hvisiting : ∀ {s₁ : Server δ κ} {datapTemp : Option Nat}, Leads e s s₁ → Passes s s₁ →
      s₁.main = .visiting datapTemp → ∃ s', Leads e s s' ∧ s'.ended = false ∧
        s'.main = .accepting ∧ s'.table.created = s.table.created := by
    intro s₁ datapTemp hlead passes hmain
    obtain ⟨s', hlead', hup', hmain', hcreated⟩ := (hlead.inv inv).leads_of_visiting _ hserve hgood
      (by rw [passes.created]; exact hfew) passes.up hmain (Nat.le_refl _)
    exact ⟨s', hlead.trans hlead', hup', hmain', hcreated.trans passes.created⟩
  cases hmain : s.main with
  | accepting => exact ⟨s, .refl s, hup, hmain, rfl⟩
  | inserting t =>
      obtain ⟨m, p, hstep, hcreated, hp⟩ : ∃ m p, loopStep s.table s.main = some (m, p) ∧
          m.created = s.table.created ∧ (p = .accepting ∨ p = .visiting m.head.first) := by
        rw [hmain, loopStep]
        dsimp only
        split
        · exact ⟨_, _, rfl, rfl, Or.inr rfl⟩
        · exact ⟨_, _, rfl, rfl, Or.inl rfl⟩
      have hnext := leads_main (e := e) hup hstep
      rcases hp with rfl | rfl
      · exact ⟨_, hnext, hup, rfl, hcreated⟩
      · obtain ⟨s', hlead, hup', hmain', hcreated'⟩ := (hnext.inv inv).leads_of_visiting _ hserve
          hgood (by dsimp only; rw [hcreated]; exact hfew) hup rfl (Nat.le_refl _)
        exact ⟨s', hnext.trans hlead, hup', hmain', hcreated'.trans hcreated⟩
  | visiting datapTemp => exact hvisiting (.refl s) ⟨hup, rfl, Nat.le_refl _⟩ hmain
  | examining datap datapTemp =>
      obtain ⟨s₁, hlead, passes, -, h⟩ := inv.leads_of_examining hserve hgood hfew hup hmain
      exact hvisiting hlead passes h
  | joining datap datapTemp =>
      obtain ⟨s₁, hlead, passes, h⟩ := inv.leads_of_joining hserve hgood hfew hup hmain
      exact hvisiting hlead passes h
  | removing datap datapTemp =>
      obtain ⟨s₁, hlead, passes, h⟩ := inv.leads_of_removing hfew hup hmain
      exact hvisiting hlead passes h

end ServerInv

structure StaysUp (e : Platform σ δ κ) (d₀ : δ) (s : Server δ κ) : Prop where
  inv : ServerInv e d₀ s
  up : s.ended = false

theorem StaysUp.move (h : StaysUp e d₀ s) (hserve : Servable e good) (hgood : good d₀)
    (move : ServerMove e s s') : StaysUp e d₀ s' :=
  ⟨h.inv.move move, h.inv.not_ended hserve hgood h.up move⟩

/-- The server goes on. Where every connection can be served, the process is up in every state that it
gets to; every connection accepted can then be served to its end, and another one accepted. -/
theorem server_goes_on (e : Platform σ δ κ) (good : δ → Prop) (hserve : Servable e good) (d₀ : δ)
    (hgood : good d₀) (schedule : List (Option Nat))
    (hrun : serverRun e (.start d₀) schedule = some s) : s.ended = false ∧
      (∀ t < s.table.created, ∃ more s', serverRun e s more = some s' ∧
        s'.table.exited t = true) ∧
      (s.table.created < 2 ^ 31 → ∃ more s', serverRun e s more = some s' ∧
        s'.table.created = s.table.created + 1) := by
  have hstart : StaysUp e d₀ (.start d₀) := ⟨.start d₀, rfl⟩
  obtain ⟨inv, hup⟩ := serverRun_invariant (fun _ _ h move => h.move hserve hgood move) hstart
    schedule hrun
  refine ⟨hup, fun t ht => ?_, fun hfew => ?_⟩
  · obtain ⟨s', ⟨more, hmore⟩, -, hexited⟩ := inv.reaches_exit hserve hgood hup ht
    exact ⟨more, s', hmore, hexited⟩
  · obtain ⟨s₁, hlead, hup', hmain, hcreated⟩ := inv.leads_to_accepting hserve hgood hfew hup
    have hstep : loopStep s₁.table s₁.main = some ({ s₁.table with
        created := s₁.table.created + 1
        threadCompleteSuccess :=
          Function.update s₁.table.threadCompleteSuccess s₁.table.created false },
        .inserting s₁.table.created) := by
      rw [hmain, loopStep]
    obtain ⟨more, hmore⟩ := hlead.trans (leads_main hup' hstep)
    exact ⟨more, _, hmore, congrArg (· + 1) hcreated⟩

end Progress

def nullPlatform : Platform Unit Unit Unit where
  sys _ :=
    { openAppend := fun _ => (3, ())
      openRead := fun _ => (3, ())
      close := fun _ _ => ()
      read := fun _ buf _ _ => some (0, buf, ())
      write := fun _ buf _ => some (buf.length, ())
      ioctlSeekto := fun _ _ _ => (-1, ())
      recv := fun _ _ => some (2, [97, 10], ())
      send := fun bytes _ => some (bytes.length, ()) }
  split := ⟨fun _ => ((), ()), fun _ => (), fun _ => rfl, fun _ => rfl⟩
  conn _ := ()
  uninit _ := []

theorem server_goes_on_null : ∃ s more s', serverRun nullPlatform (.start ()) [none] = some s ∧
    serverRun nullPlatform s more = some s' ∧ s'.table.exited 0 = true := by
  have hserve : Servable nullPlatform fun _ => True := by
    intro d t _
    have hone : (nullPlatform.serve 1 d t).map (fun x => x.2.2) = some 0 := by
      show (nullPlatform.serve 1 () 0).map (fun x => x.2.2) = some 0
      decide +kernel
    obtain ⟨x, hx, hret⟩ := Option.map_eq_some_iff.mp hone
    exact ⟨1, x, hx, by rw [hret]; decide, trivial⟩
  obtain ⟨-, hexit, -⟩ := server_goes_on nullPlatform _ hserve () trivial [none] rfl
  obtain ⟨more, s', hrun, hexited⟩ := hexit 0 (Nat.succ_pos 0)
  exact ⟨_, more, s', rfl, hrun, hexited⟩

end Aesd

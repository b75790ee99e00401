import Aesd.ConnectionOrder
import Aesd.SerialAccept
import Aesd.ServerThread
import Mathlib.Logic.Equiv.Defs

/-! The whole server: `main` accepts and joins, and each thread takes the mutex, serves its connection
one system call at a time, gives the mutex back and ends. The calls are any that act on what all
connections share and on what is the connection's own. -/
namespace Aesd
open CString LockedSection Replay

/-- What the server runs on. `split` tells what all connections share from what is one's own, and
`conn` is a connection when it is accepted. -/
structure Platform (σ δ κ : Type) where
  sys : Nat → Syscalls σ
  split : σ ≃ δ × κ
  conn : Nat → κ
  uninit : Nat → List UInt8

namespace Platform
variable {σ δ κ : Type} (e : Platform σ δ κ)

def enter (t : Nat) : κ × ThreadPhase := (e.conn t, .openingAppend)

def code (t : Nat) (l : κ × ThreadPhase) (d : δ) :
    Option (δ × ((κ × ThreadPhase) ⊕ (κ × Int))) :=
  (threadCall (e.sys t) (e.uninit t) l.2 (e.split.symm (d, l.1))).map fun r =>
    ((e.split r.1).1, r.2.map (Prod.mk (e.split r.1).2) (Prod.mk (e.split r.1).2))

def serve (fuel : Nat) (d : δ) (t : Nat) : Option (δ × (κ × Int)) :=
  (serveConnectionData (e.sys t) (e.uninit t) fuel (e.split.symm (d, e.conn t))).map fun r =>
    ((e.split r.2).1, (e.split r.2).2, r.1)

variable {e}

theorem complete_code (t fuel : Nat) (c : κ) (p : ThreadPhase) (d : δ) :
    complete e.code t fuel (c, p) d =
      (threadCalls (e.sys t) (e.uninit t) fuel p (e.split.symm (d, c))).map fun r =>
        ((e.split r.1).1, (e.split r.1).2, r.2) := by
  induction fuel generalizing c p d with
  | zero => rfl
  | succ fuel ih =>
      rw [complete, code, threadCalls, complete]
      cases hcall : threadCall (e.sys t) (e.uninit t) p (e.split.symm (d, c)) with
      | none => rfl
      | some r =>
          obtain ⟨s, p' | ret⟩ := r
          · simp only [Option.map_some, Option.bind_eq_bind, Option.bind_some, Sum.map_inl]
            rw [ih, Prod.mk.eta, Equiv.symm_apply_apply]
            rfl
          · rfl

theorem serve_of_whole {fuel t : Nat} {d : δ} {x : δ × (κ × Int)}
    (h : whole e.code e.enter fuel d t = some x) : ∃ rounds, e.serve rounds d t = some x := by
  rw [whole, enter, complete_code] at h
  obtain ⟨⟨s, ret⟩, hcalls, rfl⟩ := Option.map_eq_some_iff.mp h
  obtain ⟨rounds, hserve⟩ := serve_of_calls hcalls
  exact ⟨rounds, by rw [serve, hserve, Option.map_some]⟩

theorem whole_of_serve {rounds t : Nat} {d : δ} {x : δ × (κ × Int)}
    (h : e.serve rounds d t = some x) : ∃ fuel, whole e.code e.enter fuel d t = some x := by
  obtain ⟨⟨ret, s⟩, hserve, rfl⟩ := Option.map_eq_some_iff.mp h
  obtain ⟨fuel, hcalls⟩ := calls_of_serve hserve
  exact ⟨fuel, by rw [whole, enter, complete_code, hcalls, Option.map_some]⟩

theorem serve_add (fuel extra : Nat) (d : δ) (t : Nat) {x : δ × (κ × Int)}
    (h : e.serve fuel d t = some x) : e.serve (fuel + extra) d t = some x := by
  obtain ⟨r, hserve, rfl⟩ := Option.map_eq_some_iff.mp h
  rw [serve, serveConnectionData_add fuel extra hserve, Option.map_some]

end Platform

structure Server (δ κ : Type) where
  table : ThreadTable
  main : LoopPhase
  device : Shared Nat δ
  thread : Nat → Phase (κ × ThreadPhase) (κ × Int)
  /-- `exit` has been called, or the process has crashed -/
  ended : Bool

section Steps
variable {σ δ κ : Type} (e : Platform σ δ κ)

def crashes : Phase (κ × ThreadPhase) (κ × Int) → Bool
  | .inside (_, .parsing _ buf) => (parseCommand (ofBytes buf)).isNone
  | _ => false

/-- The next step of a thread. Behind the unlock it ends the process if its connection could not be
served, and itself otherwise. -/
def threadTurn (t : Nat) (s : Server δ κ) : Option (Server δ κ) :=
  match s.thread t with
  | .after r =>
      if r.2 = -1 then some { s with ended := true }
      else (exitStep t s.table).map fun table => { s with table }
  | p =>
      if crashes p then some { s with ended := true }
      else (act e.code e.enter t s.device p).map fun r =>
        { s with device := r.1, thread := Function.update s.thread t r.2 }

/-- `none` is `main`, whose calls succeed and which gets no signal. -/
def serverStep (who : Option Nat) (s : Server δ κ) : Option (Server δ κ) :=
  if s.ended then none
  else match who with
    | none => (loopStep s.table s.main).map fun r => { s with table := r.1, main := r.2 }
    | some t => if t < s.table.created then threadTurn e t s else none

def serverRun (s : Server δ κ) (schedule : List (Option Nat)) : Option (Server δ κ) :=
  schedule.foldlM (fun s who => serverStep e who s) s

def Server.start (d₀ : δ) : Server δ κ :=
  ⟨.start, .accepting, ⟨d₀, false, []⟩, fun _ => .before, false⟩

inductive ServerMove (s : Server δ κ) : Server δ κ → Prop
  | main {m : ThreadTable} {p : LoopPhase} (step : loopStep s.table s.main = some (m, p)) :
      ServerMove s { s with table := m, main := p }
  | serving {t : Nat} {g : Shared Nat δ} {p : Phase (κ × ThreadPhase) (κ × Int)}
      (created : t < s.table.created) (move : Move e.code e.enter t s.device (s.thread t) g p) :
      ServerMove s { s with device := g, thread := Function.update s.thread t p }
  | finish {t : Nat} {r : κ × Int} {m : ThreadTable} (served : s.thread t = .after r)
      (ok : r.2 ≠ -1) (exit : exitStep t s.table = some m) : ServerMove s { s with table := m }
  | failed {t : Nat} {r : κ × Int} (served : s.thread t = .after r) (fails : r.2 = -1) :
      ServerMove s { s with ended := true }
  | crashed {t : Nat} {l : κ × ThreadPhase} (inside : s.thread t = .inside l)
      (null : e.code t l s.device.data = none) : ServerMove s { s with ended := true }

variable {e} {s s' : Server δ κ}

theorem code_of_crashes {p : Phase (κ × ThreadPhase) (κ × Int)} (h : crashes p = true) :
    ∃ l, p = .inside l ∧ ∀ t d, e.code t l d = none := by
  rcases p with _ | ⟨c, q⟩ | _ | _
  · cases h
  · cases q with
    | parsing fd buf =>
        refine ⟨_, rfl, fun t d => ?_⟩
        rw [Platform.code, threadCall, Option.isNone_iff_eq_none.mp h]
        rfl
    | _ => cases h
  · cases h
  · cases h

theorem ServerMove.of_threadTurn {t : Nat} (hcreated : t < s.table.created)
    (hturn : threadTurn e t s = some s') : ServerMove e s s' := by
  rw [threadTurn] at hturn
  split at hturn
  · rename_i r hafter
    split at hturn
    · rename_i hfails
      cases hturn
      exact .failed hafter hfails
    · rename_i hok
      obtain ⟨m, hexit, rfl⟩ := Option.map_eq_some_iff.mp hturn
      exact .finish hafter hok hexit
  · split at hturn
    · rename_i hcrashes
      cases hturn
      obtain ⟨l, hinside, hnull⟩ := code_of_crashes hcrashes
      exact .crashed hinside (hnull t s.device.data)
    · obtain ⟨r, hact, rfl⟩ := Option.map_eq_some_iff.mp hturn
      exact .serving hcreated (.of_act hact)

theorem ServerMove.of_step {who : Option Nat} (hstep : serverStep e who s = some s') :
    ServerMove e s s' := by
  unfold serverStep at hstep
  split at hstep
  · cases hstep
  · cases who with
    | none =>
        obtain ⟨r, hloop, rfl⟩ := Option.map_eq_some_iff.mp hstep
        exact .main hloop
    | some t =>
        dsimp only at hstep
        split at hstep
        · rename_i hcreated
          exact .of_threadTurn hcreated hstep
        · cases hstep

theorem serverRun_append_singleton (s : Server δ κ) (schedule : List (Option Nat))
    (who : Option Nat) : serverRun e s (schedule ++ [who]) =
      (serverRun e s schedule).bind fun s' => serverStep e who s' := by
  simp [serverRun]

theorem serverRun_invariant {inv : Server δ κ → Prop}
    (hmove : ∀ s s', inv s → ServerMove e s s' → inv s') (hinit : inv s)
    (schedule : List (Option Nat)) (hrun : serverRun e s schedule = some s') : inv s' := by
  induction schedule using List.reverseRecOn generalizing s' with
  | nil =>
      cases hrun
      exact hinit
  | append_singleton schedule who ih =>
      rw [serverRun_append_singleton] at hrun
      obtain ⟨t, hprev, hlast⟩ := Option.bind_eq_some_iff.mp hrun
      exact hmove t s' (ih hprev) (.of_step hlast)

end Steps

/-- The threads have come to the mutex in the order of acceptance, the first two in either order. -/
def AcceptanceOrder (created : Nat) (order : List Nat) : Prop :=
  order <+: List.range created ∨ 2 ≤ created ∧ order <+: 1 :: 0 :: List.range' 2 (created - 2)

section Order
variable {n t : Nat} {order l : List Nat}

theorem range_succ_of_two_le (h : 2 ≤ n) :
    List.range' 2 (n + 1 - 2) = List.range' 2 (n - 2) ++ [n] := by
  obtain ⟨k, rfl⟩ := Nat.exists_eq_add_of_le h
  rw [show 2 + k + 1 - 2 = k + 1 from by omega, Nat.add_sub_cancel_left, List.range'_1_concat]

theorem AcceptanceOrder.succ (h : AcceptanceOrder n order) : AcceptanceOrder (n + 1) order := by
  rcases h with h | ⟨htwo, h⟩
  · rw [AcceptanceOrder, List.range_succ]
    exact Or.inl (h.trans (List.prefix_append _ _))
  · refine Or.inr ⟨Nat.le_succ_of_le htwo, ?_⟩
    rw [range_succ_of_two_le htwo]
    exact h.trans (List.prefix_append (1 :: 0 :: List.range' 2 (n - 2)) [n])

theorem AcceptanceOrder.mono (h : AcceptanceOrder n order) {m : Nat} (hle : n ≤ m) :
    AcceptanceOrder m order := by
  induction m, hle using Nat.le_induction with
  | base => exact h
  | succ m _ ih => exact ih.succ

theorem prefix_append_last (hpre : order <+: l) (hnodup : l.Nodup) (ht : t ∈ l) (hnot : t ∉ order)
    (hothers : ∀ u ∈ l, u ≠ t → u ∈ order) : order ++ [t] <+: l := by
  obtain ⟨rest, rfl⟩ := hpre
  obtain ⟨-, hrest, hdisjoint⟩ := List.nodup_append.mp hnodup
  have hall : ∀ u ∈ rest, u = t := by
    intro u hu
    by_contra hne
    exact hdisjoint u (hothers u (List.mem_append_right _ hu) hne) u hu rfl
  obtain rfl : rest = [t] := by
    have hmem := (List.mem_append.mp ht).resolve_left hnot
    cases rest with
    | nil => cases hmem
    | cons a rest =>
        obtain rfl := hall a List.mem_cons_self
        cases rest with
        | nil => rfl
        | cons b rest =>
            have hb := hall b (List.mem_cons_of_mem _ List.mem_cons_self)
            exact absurd (hb ▸ List.mem_cons_self) (List.nodup_cons.mp hrest).1
  exact List.prefix_refl _

theorem AcceptanceOrder.push (h : AcceptanceOrder n order) (ht : t < n) (hnot : t ∉ order)
    (hothers : ∀ u < n, u ≠ t → u ∈ order ∨ n ≤ 2) : AcceptanceOrder n (order ++ [t]) := by
  by_cases hall : ∀ u < n, u ≠ t → u ∈ order
  · rcases h with h | ⟨htwo, h⟩
    · exact Or.inl (prefix_append_last h List.nodup_range (List.mem_range.mpr ht) hnot
        fun u hu => hall u (List.mem_range.mp hu))
    · have hmem : ∀ u, u ∈ 1 :: 0 :: List.range' 2 (n - 2) ↔ u < n := by
        intro u
        simp only [List.mem_cons, List.mem_range'_1]
        omega
      refine Or.inr ⟨htwo, prefix_append_last h ?_ ((hmem t).mpr ht) hnot
        fun u hu => hall u ((hmem u).mp hu)⟩
      simp [List.nodup_range']
  · push Not at hall
    obtain ⟨u, hu, hne, hout⟩ := hall
    have hle := (hothers u hu hne).resolve_left hout
    obtain rfl : n = 2 := by omega
    have hnil : order = [] := by
      cases order with
      | nil => rfl
      | cons a rest =>
          have ha : a < 2 := by
            rcases h with h | ⟨-, h⟩
            · exact List.mem_range.mp (h.subset List.mem_cons_self)
            · have hmem := h.subset List.mem_cons_self
              simp at hmem
              omega
          rw [List.mem_cons, not_or] at hnot hout
          omega
    subst hnil
    rcases Nat.lt_succ_iff_lt_or_eq.mp ht with hlt | rfl
    · obtain rfl : t = 0 := by omega
      exact Or.inl ⟨[1], rfl⟩
    · exact Or.inr ⟨Nat.le_refl 2, [0], rfl⟩

end Order

section Run
variable {σ δ κ : Type} {e : Platform σ δ κ} {d₀ : δ} {s s' : Server δ κ}

/-- The server has served its connections one after the other, each without a break: those whose
service has come to its end have got the results of that, and what all connections share is
what the last one left and the connection in service has made of it so far. -/
structure ServedInTurn (e : Platform σ δ κ) (d₀ : δ) (s : Server δ κ) : Prop where
  taken : ∀ t, t ∈ s.device.order ↔ (s.thread t).Entered
  once : s.device.order.Nodup
  served : ∃ rounds finished d results,
    replay (e.serve rounds) d₀ finished = some (d, results) ∧
      List.Forall₂ (fun t r => (s.thread t).Ended r) finished results ∧
      Current e.code e.enter finished d s.device s.thread

theorem servedInTurn_of_inTurn (h : InTurn e.code e.enter d₀ s.device s.thread) :
    ServedInTurn e d₀ s := by
  obtain ⟨fuel, finished, d, results, hrun, hresults, current⟩ := h.served
  obtain ⟨rounds, hserve⟩ := exists_replay (fun n extra d t _ => Platform.serve_add n extra d t)
    (fun _ _ _ => Platform.serve_of_whole) hrun
  exact ⟨h.lock.mem_iff, h.lock.nodup, rounds, finished, d, results, hserve, hresults, current⟩

structure ServerInv (e : Platform σ δ κ) (d₀ : δ) (s : Server δ κ) : Prop where
  turns : InTurn e.code e.enter d₀ s.device s.thread
  unborn : ∀ t, s.table.created ≤ t → s.thread t = .before
  gone : ∀ t, s.table.exited t = true → ∃ r, s.thread t = .after r
  serial : s.table.created < 2 ^ 31 → ∃ l, SerialInv s.table s.main l
  order : s.table.created < 2 ^ 31 → AcceptanceOrder s.table.created s.device.order

namespace ServerInv

theorem start (d₀ : δ) : ServerInv e d₀ (.start d₀) where
  turns := .start d₀
  unborn _ _ := rfl
  gone t ht := by cases ht
  serial _ := ⟨[], .start⟩
  order _ := Or.inl (List.nil_prefix)

theorem entered (inv : ServerInv e d₀ s) (hfew : s.table.created < 2 ^ 31) {u : Nat}
    (hu : u < s.table.created) :
    u ∈ s.device.order ∨ u + 1 = s.table.created ∨ s.table.created ≤ 2 := by
  obtain ⟨l, serial⟩ := inv.serial hfew
  refine (serial.servesAlone u hu).imp_left fun hexited => ?_
  obtain ⟨r, hafter⟩ := inv.gone u hexited
  rw [inv.turns.lock.mem_iff, hafter]
  trivial

theorem main {m : ThreadTable} {p : LoopPhase} (inv : ServerInv e d₀ s)
    (hstep : loopStep s.table s.main = some (m, p)) :
    ServerInv e d₀ { s with table := m, main := p } := by
  obtain ⟨hcreated, hexited⟩ := loopStep_created hstep
  refine ⟨inv.turns, fun t ht => inv.unborn t (hcreated.trans ht), fun t ht => ?_, fun hfew => ?_,
    fun hfew => ?_⟩
  · exact inv.gone t (by rwa [hexited] at ht)
  · obtain ⟨l, serial⟩ := inv.serial (hcreated.trans_lt hfew)
    exact serial.step hfew hstep
  · exact (inv.order (hcreated.trans_lt hfew)).mono hcreated

theorem finish {t : Nat} {r : κ × Int} {m : ThreadTable} (inv : ServerInv e d₀ s)
    (hserved : s.thread t = .after r) (hexit : exitStep t s.table = some m) :
    ServerInv e d₀ { s with table := m } := by
  obtain ⟨hcreated, hexited⟩ := exitStep_created hexit
  refine ⟨inv.turns, fun u hu => inv.unborn u (hcreated ▸ hu), fun u hu => ?_, fun hfew => ?_,
    fun hfew => ?_⟩
  · by_cases heq : u = t
    · exact ⟨r, by rw [heq]; exact hserved⟩
    · dsimp only at hu
      rw [hexited, Function.update_of_ne heq] at hu
      exact inv.gone u hu
  · obtain ⟨l, serial⟩ := inv.serial (hcreated ▸ hfew)
    exact ⟨l, serial.exit hexit⟩
  · dsimp only at hfew ⊢
    rw [hcreated] at hfew ⊢
    exact inv.order hfew

theorem order_serving {t : Nat} {g : Shared Nat δ} {p : Phase (κ × ThreadPhase) (κ × Int)}
    (inv : ServerInv e d₀ s) (hcreated : t < s.table.created) (hfew : s.table.created < 2 ^ 31)
    (move : Move e.code e.enter t s.device (s.thread t) g p) :
    AcceptanceOrder s.table.created g.order := by
  have horder := inv.order hfew
  have hentered := fun u => inv.entered hfew (u := u)
  have hmem := inv.turns.lock.mem_iff t
  generalize s.thread t = q at move hmem
  cases move with
  | lock free =>
      have hout : t ∉ s.device.order := fun hin => hmem.mp hin
      have hnewest := (hentered t hcreated).resolve_left hout
      refine horder.push hcreated hout fun u hu hne => ?_
      rcases hentered u hu with hin | hlast | htwo
      · exact Or.inl hin
      · exact Or.inr (by omega)
      · exact Or.inr htwo
  | step goes => exact horder
  | finish ends => exact horder
  | unlock => exact horder

theorem serving {t : Nat} {g : Shared Nat δ} {p : Phase (κ × ThreadPhase) (κ × Int)}
    (inv : ServerInv e d₀ s) (hcreated : t < s.table.created)
    (move : Move e.code e.enter t s.device (s.thread t) g p) :
    ServerInv e d₀ { s with device := g, thread := Function.update s.thread t p } := by
  refine ⟨inv.turns.move move, fun u hu => ?_, fun u hu => ?_, inv.serial,
    fun hfew => inv.order_serving hcreated hfew move⟩
  · exact (Function.update_of_ne (Nat.ne_of_gt (Nat.lt_of_lt_of_le hcreated hu)) _ _).trans
      (inv.unborn u hu)
  · by_cases heq : u = t
    · obtain ⟨r, hafter⟩ := inv.gone t (heq ▸ hu)
      rw [hafter] at move
      cases move
    · obtain ⟨r, hafter⟩ := inv.gone u hu
      exact ⟨r, (Function.update_of_ne heq _ _).trans hafter⟩

theorem move (inv : ServerInv e d₀ s) (move : ServerMove e s s') : ServerInv e d₀ s' := by
  cases move with
  | main step => exact inv.main step
  | serving created move => exact inv.serving created move
  | finish served ok exit => exact inv.finish served exit
  | failed served fails => exact ⟨inv.turns, inv.unborn, inv.gone, inv.serial, inv.order⟩
  | crashed inside null => exact ⟨inv.turns, inv.unborn, inv.gone, inv.serial, inv.order⟩

end ServerInv

def FileWorld.split : FileWorld ≃ List UInt8 × (Nat × List (List UInt8) × List UInt8) where
  toFun w := (w.bytes, w.fPos, w.incoming, w.sent)
  invFun r := ⟨r.1, r.2.1, r.2.2.1, r.2.2.2⟩
  left_inv _ := rfl
  right_inv _ := rfl

def filePlatform (line : Nat → List UInt8) :
    Platform FileWorld (List UInt8) (Nat × List (List UInt8) × List UInt8) where
  sys _ := fileSyscalls
  split := FileWorld.split
  conn t := (0, [line t], [])
  uninit _ := []

/-- However `main` and the threads interleave, and whatever the calls do, the server serves its
connections one after the other. -/
theorem server_serves_in_turn (e : Platform σ δ κ) (d₀ : δ) (schedule : List (Option Nat))
    (hrun : serverRun e (.start d₀) schedule = some s) : ServedInTurn e d₀ s :=
  servedInTurn_of_inTurn
    (serverRun_invariant (fun _ _ inv move => inv.move move) (ServerInv.start d₀) schedule hrun).turns

def secondFirst : List (Option Nat) :=
  [none, none, none] ++ List.replicate 12 (some 1) ++ List.replicate 5 (some 0)

theorem secondFirst_run : ∃ s,
    serverRun (filePlatform fun t => [97 + t.toUInt8, 10]) (.start []) secondFirst = some s ∧
      s.device.data = [98, 10, 97, 10] ∧ s.device.order = [1, 0] ∧ s.table.created = 2 := by
  have hvalues : (serverRun (filePlatform fun t => [97 + t.toUInt8, 10]) (.start [])
      secondFirst).map (fun s => (s.device.data, s.device.order, s.table.created)) =
      some ([98, 10, 97, 10], [1, 0], 2) := by decide +kernel
  obtain ⟨s, hrun, heq⟩ := Option.map_eq_some_iff.mp hvalues
  simp only [Prod.mk.injEq] at heq
  exact ⟨s, hrun, heq⟩

theorem server_serves_in_turn_two : ∃ s : Server _ _, s.device.data = [98, 10, 97, 10] ∧
    ServedInTurn (filePlatform fun t => [97 + t.toUInt8, 10]) [] s := by
  obtain ⟨s, hrun, hdata, -⟩ := secondFirst_run
  exact ⟨s, hdata, server_serves_in_turn _ _ _ hrun⟩

/-- Up to 2^31 - 1 connections are served in the order of acceptance, the first two in either order.
No thread but the newest is then still at work. -/
theorem server_keeps_acceptance_order (e : Platform σ δ κ) (d₀ : δ) (schedule : List (Option Nat))
    (hrun : serverRun e (.start d₀) schedule = some s) (hfew : s.table.created < 2 ^ 31) :
    AcceptanceOrder s.table.created s.device.order ∧ ServesAlone s.table := by
  have inv := serverRun_invariant (fun _ _ inv move => ServerInv.move inv move) (ServerInv.start d₀)
    schedule hrun
  obtain ⟨l, serial⟩ := inv.serial hfew
  exact ⟨inv.order hfew, serial.servesAlone⟩

theorem server_keeps_acceptance_order_two : ∃ s,
    serverRun (filePlatform fun t => [97 + t.toUInt8, 10]) (.start []) secondFirst = some s ∧
      s.device.order = [1, 0] ∧ AcceptanceOrder s.table.created s.device.order := by
  obtain ⟨s, hrun, -, horder, hcreated⟩ := secondFirst_run
  exact ⟨s, hrun, horder,
    (server_keeps_acceptance_order _ _ _ hrun (by rw [hcreated]; decide)).1⟩

end Run

end Aesd

import Aesd.FlushEquivalence
import Aesd.Lib.Replay
import Aesd.ServerReply
import Mathlib.Data.Finset.Basic

/-! The descriptors that a connection opens. Both functions that serve it open the output file; what
the other system calls do is left to them, so that any of them may fail at any time. -/
namespace Aesd
open CString Replay

structure OpensFresh {σ : Type} (fds : σ → Finset Int) (opening : σ → Int × σ) : Prop where
  fails : ∀ s, (opening s).1 < 0 → fds (opening s).2 = fds s
  fresh : ∀ s, 0 ≤ (opening s).1 → (opening s).1 ∉ fds s
  opens : ∀ s, 0 ≤ (opening s).1 → fds (opening s).2 = insert (opening s).1 (fds s)

/-- Which descriptors are open: `open` adds one, `close` gives one back, and no other call changes
them. -/
structure TracksDescriptors {σ : Type} (sys : Syscalls σ) (fds : σ → Finset Int) : Prop where
  nonneg : ∀ s, ∀ fd ∈ fds s, 0 ≤ fd
  openAppend : OpensFresh fds sys.openAppend
  openRead : OpensFresh fds sys.openRead
  close : ∀ fd s, fds (sys.close fd s) = (fds s).erase fd
  read : ∀ {fd buf count s r}, sys.read fd buf count s = some r → fds r.2.2 = fds s
  write : ∀ {fd buf s r}, sys.write fd buf s = some r → fds r.2 = fds s
  ioctlSeekto : ∀ fd target s, fds (sys.ioctlSeekto fd target s).2 = fds s
  recv : ∀ {count s r}, sys.recv count s = some r → fds r.2.2 = fds s
  send : ∀ {bytes s r}, sys.send bytes s = some r → fds r.2 = fds s

section Server
variable {σ : Type} (sys : Syscalls σ)

def PassesData (fd : Int) (s t : σ) : Prop :=
  ∃ nrecv buf u nwrit, sys.recv bufSize s = some (nrecv, buf, u) ∧ 0 ≤ nrecv ∧
    PlainText (ofBytes buf) ∧ sys.write fd buf u = some (nwrit, t) ∧ 0 ≤ nwrit ∧
    strchr (ofBytes buf) 10 = false

def TakesCommand (fd : Int) (s : σ) : Prop :=
  ∃ nrecv buf u target, sys.recv bufSize s = some (nrecv, buf, u) ∧ 0 ≤ nrecv ∧
    parseCommand (ofBytes buf) = some (some target) ∧ (sys.ioctlSeekto fd target u).1 = 0

/-- Behind data without a newline, if any, a seek command comes that the driver takes. -/
inductive EndsInCommand (fd : Int) : σ → Prop
  | takes {s : σ} (takes : TakesCommand sys fd s) : EndsInCommand fd s
  | data {s t : σ} (passes : PassesData sys fd s t) (ends : EndsInCommand fd t) :
      EndsInCommand fd s

def SendsCommand (s : σ) : Prop :=
  0 ≤ (sys.openAppend s).1 ∧ EndsInCommand sys (sys.openAppend s).1 (sys.openAppend s).2

/-- However the two functions return, the descriptors are those from before the call. -/
structure GivesBack (fds : σ → Finset Int) (s : σ) : Prop where
  recieve : ∀ fuel e ret, recieveSocketData sys fuel s = some e → e.outcome = .returned ret →
    fds e.world = fds s
  answer : ∀ fuel e ret, recieveSocketData sys fuel s = some e → e.outcome = .returned ret →
    ∀ fuel' buf r, returnSocketData sys fuel' buf e.world = some r → fds r.2 = fds e.world

/-- A connection is accepted and served, as in `accept_connection_thread`, with a bound on the
rounds of the loops and the buffer of `return_socket_data`. It is `none` if a call does not
return, and if the process exits or crashes. -/
def serveConnection (accept : σ → Int × σ) (s : σ) (conn : Nat × List UInt8) :
    Option (σ × Unit) := do
  let a := accept s
  if a.1 = -1 then none
  else
    let e ← recieveSocketData sys conn.1 a.2
    if e.outcome = .returned (-1) ∨ e.outcome = .crashed then none
    else
      let r ← returnSocketData sys conn.1 conn.2 e.world
      if r.1 = -1 then none else some (sys.close a.1 r.2, ())

/-- The calls of a run give back what they opened, and from one connection to the next the
descriptors are the same. -/
structure KeepsDescriptors (accept : σ → Int × σ) (fds : σ → Finset Int) (s : σ)
    (conns : List (Nat × List UInt8)) : Prop where
  calls : Throughout (serveConnection sys accept)
    (fun s _ => (accept s).1 ≠ -1 → GivesBack sys fds (accept s).2) s conns
  between : Always (serveConnection sys accept) (fun s _ t => fds t = fds s) s conns

variable {sys} {fds : σ → Finset Int} (h : TracksDescriptors sys fds) {fd : Int}
include h

theorem recieveTurn_fds {s : σ} {t : Turn σ} (hturn : recieveTurn sys fd s = some t) :
    t.outcome = none ∧ fds t.world = fds s ∧ PassesData sys fd s t.world ∨
    (∃ ret, t.outcome = some (.returned ret)) ∧ fds t.world = (fds s).erase fd ∨
    TakesCommand sys fd s ∨ t.outcome = some .crashed := by
  rw [recieveTurn] at hturn
  obtain ⟨⟨nrecv, buf, u⟩, hrecv, hturn⟩ := Option.bind_eq_some_iff.mp hturn
  have hfds := h.recv hrecv
  dsimp only at hturn hfds
  split at hturn
  · cases hturn
    exact Or.inr (Or.inl ⟨⟨_, rfl⟩, by rw [h.close, hfds]⟩)
  · rename_i hneg
    have hpos : 0 ≤ nrecv := Int.not_lt.mp hneg
    split at hturn
    · cases hturn
      exact Or.inr (Or.inr (Or.inr rfl))
    · rename_i target hparse
      split at hturn
      · cases hturn
        exact Or.inr (Or.inl ⟨⟨_, rfl⟩, by rw [h.close, h.ioctlSeekto, hfds]⟩)
      · rename_i htaken
        exact Or.inr (Or.inr (Or.inl ⟨_, _, _, target, hrecv, hpos, hparse, not_not.mp htaken⟩))
    · rename_i hparse
      obtain ⟨⟨nwrit, v⟩, hwrite, hturn⟩ := Option.bind_eq_some_iff.mp hturn
      have hwritten := h.write hwrite
      dsimp only at hturn hwritten
      split at hturn
      · cases hturn
        exact Or.inr (Or.inl ⟨⟨_, rfl⟩, by rw [h.close, hwritten, hfds]⟩)
      · rename_i hfail
        split at hturn
        · cases hturn
          exact Or.inr (Or.inl ⟨⟨_, rfl⟩, by rw [h.close, hwritten, hfds]⟩)
        · rename_i hnewline
          cases hturn
          exact Or.inl ⟨rfl, hwritten.trans hfds, _, _, _, _, hrecv, hpos,
            parseCommand_eq_data_iff.mp hparse, hwrite, Int.not_lt.mp hfail,
            Bool.not_eq_true _ ▸ hnewline⟩

theorem recieveLoop_fds (fuel : Nat) (stray : Bool) {s : σ} {e : Ended σ} {ret : Int}
    (hends : ¬ EndsInCommand sys fd s) (hloop : recieveLoop sys fd fuel stray s = some e)
    (hret : e.outcome = .returned ret) : fds e.world = (fds s).erase fd := by
  induction fuel generalizing s stray with
  | zero => cases hloop
  | succ fuel ih =>
      rw [recieveLoop] at hloop
      obtain ⟨t, hturn, hloop⟩ := Option.bind_eq_some_iff.mp hloop
      rcases recieveTurn_fds h hturn with ⟨hout, hfds, hpass⟩ | ⟨⟨ret', hout⟩, hfds⟩ | htakes | hout
      · rw [hout] at hloop
        rw [ih (stray || t.stray) (fun hlater => hends (.data hpass hlater)) hloop, hfds]
      · rw [hout] at hloop
        cases hloop
        exact hfds
      · exact absurd (.takes htakes) hends
      · rw [hout] at hloop
        cases hloop
        cases hret

omit h in
theorem recieveTurn_of_passes {s t : σ} (hpass : PassesData sys fd s t) :
    ∃ stray, recieveTurn sys fd s = some ⟨none, stray, t⟩ := by
  obtain ⟨nrecv, buf, u, nwrit, hrecv, hpos, hplain, hwrite, hwritten, hnewline⟩ := hpass
  have hneg : ¬ nrecv < 0 := Int.not_lt.mpr hpos
  have hfail : ¬ nwrit < 0 := Int.not_lt.mpr hwritten
  refine ⟨decide (nrecv < 0 ∨ bufSize < nrecv), ?_⟩
  simp only [recieveTurn, hrecv, Option.bind_eq_bind, Option.bind_some, hneg, if_false,
    parseCommand_of_plain hplain, hwrite, hfail, hnewline, Bool.false_eq_true]

theorem recieveTurn_of_command {s : σ} (htakes : TakesCommand sys fd s) :
    ∃ stray t, recieveTurn sys fd s = some ⟨some (.returned 0), stray, t⟩ ∧ fds t = fds s := by
  obtain ⟨nrecv, buf, u, target, hrecv, hpos, hparse, hioctl⟩ := htakes
  have hneg : ¬ nrecv < 0 := Int.not_lt.mpr hpos
  refine ⟨decide (nrecv < 0 ∨ bufSize < nrecv), (sys.ioctlSeekto fd target u).2, ?_,
    (h.ioctlSeekto _ _ _).trans (h.recv hrecv)⟩
  simp only [recieveTurn, hrecv, Option.bind_eq_bind, Option.bind_some, hneg, if_false, hparse,
    hioctl, ne_eq, not_true_eq_false]

omit h in
theorem not_endsInCommand_of_line {s u : σ} {nrecv : Int} {buf : List UInt8}
    (hrecv : sys.recv bufSize s = some (nrecv, buf, u)) (hplain : PlainText (ofBytes buf))
    (hnewline : strchr (ofBytes buf) 10 = true) : ¬ EndsInCommand sys fd s := by
  intro hends
  cases hends with
  | takes htakes =>
      obtain ⟨_, _, _, target, hrecv', -, hparse, -⟩ := htakes
      cases hrecv.symm.trans hrecv'
      cases (parseCommand_of_plain hplain).symm.trans hparse
  | data hpass _ =>
      obtain ⟨_, _, _, _, hrecv', -, -, -, -, hnone⟩ := hpass
      cases hrecv.symm.trans hrecv'
      cases hnewline.symm.trans hnone

theorem recieveLoop_of_command {s : σ} (hends : EndsInCommand sys fd s) (stray : Bool) :
    ∃ fuel e, recieveLoop sys fd fuel stray s = some e ∧ e.outcome = .returned 0 ∧
      fds e.world = fds s := by
  induction hends generalizing stray with
  | takes htakes =>
      obtain ⟨stray', t, hturn, hfds⟩ := recieveTurn_of_command h htakes
      refine ⟨1, ⟨.returned 0, stray || stray', t⟩, ?_, rfl, hfds⟩
      rw [recieveLoop, hturn]
      rfl
  | data hpass _ ih =>
      obtain ⟨stray', hturn⟩ := recieveTurn_of_passes hpass
      obtain ⟨fuel, e, hloop, hout, hfds⟩ := ih (stray || stray')
      obtain ⟨nrecv, buf, u, nwrit, hrecv, -, -, hwrite, -, -⟩ := hpass
      refine ⟨fuel + 1, e, ?_, hout, hfds.trans ((h.write hwrite).trans (h.recv hrecv))⟩
      rw [recieveLoop, hturn]
      exact hloop

theorem returnLoop_fds (fuel : Nat) (buf : List UInt8) {s : σ} {r : Int × σ}
    (hloop : returnLoop sys fd fuel buf s = some r) : fds r.2 = (fds s).erase fd := by
  induction fuel generalizing buf s with
  | zero => cases hloop
  | succ fuel ih =>
      rw [returnLoop] at hloop
      obtain ⟨⟨nread, buf', t⟩, hread, hloop⟩ := Option.bind_eq_some_iff.mp hloop
      have hfds := h.read hread
      dsimp only at hloop hfds
      split at hloop
      · cases hloop
        rw [h.close, hfds]
      · obtain ⟨⟨nsend, u⟩, hsend, hloop⟩ := Option.bind_eq_some_iff.mp hloop
        have hsent := h.send hsend
        dsimp only at hloop hsent
        split at hloop
        · cases hloop
          rw [h.close, hsent, hfds]
        · split at hloop
          · rw [ih buf' hloop, hsent, hfds]
          · cases hloop
            rw [h.close, hsent, hfds]

theorem returnSocketData_fds {fuel : Nat} {buf : List UInt8} {s : σ} {r : Int × σ}
    (hcall : returnSocketData sys fuel buf s = some r) : fds r.2 = fds s := by
  simp only [returnSocketData] at hcall
  split at hcall
  · rename_i hfail
    cases hcall
    exact h.openRead.fails s hfail
  · rename_i hopen
    have hopen' := Int.not_lt.mp hopen
    rw [returnLoop_fds h fuel buf hcall, h.openRead.opens s hopen',
      Finset.erase_insert (h.openRead.fresh s hopen')]

/-- `return_socket_data` gives back what it opens; `recieve_socket_data` does so unless what the
connection sends ends in a seek command that the driver takes. -/
theorem givesBack_iff (s : σ) : GivesBack sys fds s ↔ ¬ SendsCommand sys s := by
  constructor
  · rintro hback ⟨hopen, hends⟩
    obtain ⟨fuel, e, hloop, hout, hfds⟩ := recieveLoop_of_command h hends false
    have hcall : recieveSocketData sys fuel s = some e := by
      simp only [recieveSocketData, if_neg (Int.not_lt.mpr hopen)]
      exact hloop
    have hsame := hback.recieve fuel e 0 hcall hout
    rw [hfds, h.openAppend.opens s hopen] at hsame
    exact h.openAppend.fresh s hopen (Finset.insert_eq_self.mp hsame)
  · intro hsends
    refine ⟨fun fuel e ret hcall hret => ?_,
      fun _ _ _ _ _ _ _ _ hcall => returnSocketData_fds h hcall⟩
    simp only [recieveSocketData] at hcall
    split at hcall
    · rename_i hfail
      cases hcall
      have hnone : (sys.openAppend s).1 ∉ fds s := fun hmem =>
        absurd (h.nonneg s _ hmem) (Int.not_le.mpr hfail)
      rw [h.close, h.openAppend.fails s hfail, Finset.erase_eq_of_notMem hnone]
    · rename_i hopen
      have hopen' := Int.not_lt.mp hopen
      have hends : ¬ EndsInCommand sys (sys.openAppend s).1 (sys.openAppend s).2 :=
        fun hends => hsends ⟨hopen', hends⟩
      rw [recieveLoop_fds h fuel false hends hcall hret, h.openAppend.opens s hopen',
        Finset.erase_insert (h.openAppend.fresh s hopen')]

theorem serveConnection_fds {accept : σ → Int × σ} (haccept : OpensFresh fds accept)
    (hfails : ∀ s, (accept s).1 < 0 → (accept s).1 = -1) {s : σ} {conn : Nat × List UInt8}
    {r : σ × Unit} (hback : (accept s).1 ≠ -1 → GivesBack sys fds (accept s).2)
    (hserve : serveConnection sys accept s conn = some r) : fds r.1 = fds s := by
  simp only [serveConnection] at hserve
  split at hserve
  · cases hserve
  · rename_i haccepted
    have hpos : 0 ≤ (accept s).1 := Int.not_lt.mp fun hneg => haccepted (hfails s hneg)
    obtain ⟨e, hrecieve, hserve⟩ := Option.bind_eq_some_iff.mp hserve
    split at hserve
    · cases hserve
    · rename_i hgoes
      obtain ⟨ret, hret⟩ : ∃ ret, e.outcome = .returned ret := by
        cases hout : e.outcome with
        | returned ret => exact ⟨ret, rfl⟩
        | crashed => exact absurd (Or.inr hout) hgoes
      obtain ⟨a, hreturn, hserve⟩ := Option.bind_eq_some_iff.mp hserve
      split at hserve
      · cases hserve
      · cases hserve
        have hsame := (hback haccepted).recieve _ _ _ hrecieve hret
        have hanswer := (hback haccepted).answer _ _ _ hrecieve hret _ _ _ hreturn
        rw [h.close, hanswer, hsame, haccept.opens s hpos,
          Finset.erase_insert (haccept.fresh s hpos)]

end Server

structure DescriptorWorld where
  device : DeviceWorld
  fds : Finset Int
  next : Nat
  peers : List (List (List UInt8))
  below : ∀ fd ∈ fds, 0 ≤ fd ∧ fd < next

namespace DescriptorWorld

def opened (w : DescriptorWorld) : Int × DescriptorWorld :=
  (w.next, { w with
    fds := insert (w.next : Int) w.fds
    next := w.next + 1
    below := fun fd hfd => by
      rcases Finset.mem_insert.mp hfd with rfl | hold
      · omega
      · have hbelow := w.below fd hold
        omega })

def closed (fd : Int) (w : DescriptorWorld) : DescriptorWorld :=
  { w with fds := w.fds.erase fd, below := fun a ha => w.below a (Finset.mem_of_mem_erase ha) }

def acceptPeer (w : DescriptorWorld) : Int × DescriptorWorld :=
  match w.peers with
  | [] => (-1, w)
  | chunks :: peers =>
      (w.opened.1, { w.opened.2 with
        device := { w.device with incoming := chunks, sent := [] }
        peers := peers })

end DescriptorWorld

open DescriptorWorld

def descriptorSyscalls (env : DeviceEnv) : Syscalls DescriptorWorld where
  openAppend := opened
  openRead w := (w.opened.1, { w.opened.2 with device := { w.device with fPos := 0 } })
  close := closed
  read fd buf count w := ((deviceSyscalls env).read fd buf count w.device).map fun r =>
    (r.1, r.2.1, { w with device := r.2.2 })
  write fd buf w := ((deviceSyscalls env).write fd buf w.device).map fun r =>
    (r.1, { w with device := r.2 })
  ioctlSeekto fd seekto w :=
    let r := (deviceSyscalls env).ioctlSeekto fd seekto w.device
    (r.1, { w with device := r.2 })
  recv count w := ((deviceSyscalls env).recv count w.device).map fun r =>
    (r.1, r.2.1, { w with device := r.2.2 })
  send bytes w := ((deviceSyscalls env).send bytes w.device).map fun r =>
    (r.1, { w with device := r.2 })

theorem next_notMem (w : DescriptorWorld) : (w.next : Int) ∉ w.fds := fun hmem =>
  absurd (w.below _ hmem).2 (Int.lt_irrefl _)

theorem opensFresh_opened : OpensFresh fds opened where
  fails w hneg := absurd hneg (Int.not_lt.mpr (Int.natCast_nonneg w.next))
  fresh w _ := next_notMem w
  opens _ _ := rfl

theorem acceptPeer_cases (w : DescriptorWorld) :
    (acceptPeer w).1 = -1 ∧ (acceptPeer w).2.fds = w.fds ∨
      (acceptPeer w).1 = w.next ∧ (acceptPeer w).2.fds = insert (w.next : Int) w.fds := by
  rw [acceptPeer]
  cases w.peers with
  | nil => exact Or.inl ⟨rfl, rfl⟩
  | cons chunks peers => exact Or.inr ⟨rfl, rfl⟩

theorem acceptPeer_fails (w : DescriptorWorld) (h : (acceptPeer w).1 < 0) :
    (acceptPeer w).1 = -1 := by
  rcases acceptPeer_cases w with ⟨hret, -⟩ | ⟨hret, -⟩
  · exact hret
  · omega

theorem opensFresh_acceptPeer : OpensFresh fds acceptPeer where
  fails w hneg := by
    rcases acceptPeer_cases w with ⟨-, hfds⟩ | ⟨hret, -⟩
    · exact hfds
    · omega
  fresh w hpos := by
    rcases acceptPeer_cases w with ⟨hret, -⟩ | ⟨hret, -⟩
    · omega
    · rw [hret]
      exact next_notMem w
  opens w hpos := by
    rcases acceptPeer_cases w with ⟨hret, -⟩ | ⟨hret, hfds⟩
    · omega
    · rw [hret, hfds]

theorem tracksDescriptors (env : DeviceEnv) : TracksDescriptors (descriptorSyscalls env) fds where
  nonneg w fd hfd := (w.below fd hfd).1
  openAppend := opensFresh_opened
  openRead := ⟨opensFresh_opened.fails, opensFresh_opened.fresh, opensFresh_opened.opens⟩
  close _ _ := rfl
  read h := by
    obtain ⟨r, -, rfl⟩ := Option.map_eq_some_iff.mp h
    rfl
  write h := by
    obtain ⟨r, -, rfl⟩ := Option.map_eq_some_iff.mp h
    rfl
  ioctlSeekto _ _ _ := rfl
  recv h := by
    obtain ⟨r, -, rfl⟩ := Option.map_eq_some_iff.mp h
    rfl
  send h := by
    cases h
    rfl

def DeviceEnv.zeroed : DeviceEnv :=
  ⟨fun _ => ⟨some fun _ => 0, some fun _ => 0, 0, some fun _ => 0, 0⟩, fun _ => .zeroed⟩

def DescriptorWorld.oneLine (peers : List (List (List UInt8))) : DescriptorWorld where
  device := ⟨Aesd.oneLine, 0, 0, [], []⟩
  fds := {0, 1, 2}
  next := 3
  peers := peers
  below := by decide

/-- Descriptors leak where a connection ends in a seek command that the driver takes, and nowhere
else. -/
theorem keepsDescriptors_iff {σ : Type} {sys : Syscalls σ} {fds : σ → Finset Int}
    (h : TracksDescriptors sys fds) {accept : σ → Int × σ} (haccept : OpensFresh fds accept)
    (hfails : ∀ s, (accept s).1 < 0 → (accept s).1 = -1) (s : σ)
    (conns : List (Nat × List UInt8)) :
    KeepsDescriptors sys accept fds s conns ↔ Throughout (serveConnection sys accept)
      (fun s _ => (accept s).1 ≠ -1 → ¬ SendsCommand sys (accept s).2) s conns := by
  constructor
  · intro hkeeps
    exact hkeeps.calls.imp fun s _ hback haccepted => (givesBack_iff h _).mp (hback haccepted)
  · intro hplain
    have hcalls := hplain.imp fun s _ hsends haccepted => (givesBack_iff h _).mpr (hsends haccepted)
    exact ⟨hcalls, hcalls.always fun s conn r hback => serveConnection_fds h haccept hfails hback⟩

theorem keepsDescriptors_line : KeepsDescriptors (descriptorSyscalls .zeroed) acceptPeer fds
    (.oneLine [[[97, 10]]]) [(1, [])] := by
  refine (keepsDescriptors_iff (tracksDescriptors .zeroed) opensFresh_acceptPeer acceptPeer_fails
    _ _).mpr ⟨fun _ hsends => ?_, fun _ _ => trivial⟩
  have hparse : parseCommand (ofBytes [97, 10]) = some none := by decide +kernel
  exact not_endsInCommand_of_line rfl (parseCommand_eq_data_iff.mp hparse) (by decide) hsends.2

/-- A connection that sends `AESDCHAR_IOCSEEKTO:0,0` and a newline leaves its file open. -/
theorem not_keepsDescriptors_command : ¬ KeepsDescriptors (descriptorSyscalls .zeroed) acceptPeer
    fds (.oneLine [[seekWord ++ [58, 48, 44, 48, 10]]]) [(1, [])] := by
  intro h
  have hleft : (serveConnection (descriptorSyscalls .zeroed) acceptPeer
      (.oneLine [[seekWord ++ [58, 48, 44, 48, 10]]]) (1, [])).map
      (fun r => decide (r.1.fds = {0, 1, 2})) = some false := by decide +kernel
  obtain ⟨r, hserve, hfds⟩ := Option.map_eq_some_iff.mp hleft
  exact absurd (h.between r hserve).1 (of_decide_eq_false hfds)

end Aesd

import Aesd.Lib.LockedSection
import Aesd.SocketServer

/-! `accept_connection_thread` between its lock and its unlock, one system call at a time. The calls
act on what all threads share and on what belongs to the connection alone. Without a break they
are `recieve_socket_data` and then `return_socket_data`. -/
namespace Aesd
open CString LockedSection

/-- Where a thread is: `parsing` behind `recv`, before the copy that `strtok` works on; `closing..`
before `close`, with what the function is to return. -/
inductive ThreadPhase
  | openingAppend
  | recieving (fd : Int)
  | parsing (fd : Int) (buf : List UInt8)
  | seeking (fd : Int) (seekto : AesdSeekto)
  | writing (fd : Int) (buf : List UInt8)
  | closingAppend (fd ret : Int)
  | openingRead
  | reading (fd : Int) (buf : List UInt8)
  | sending (fd nread : Int) (buf : List UInt8)
  | closingRead (fd ret : Int)

section Calls
variable {σ : Type} (sys : Syscalls σ) (uninit : List UInt8)

/-- One call. What comes behind the last one is the value that `return_socket_data` returns, or -1
where `recieve_socket_data` does. `none` is a call that waits, or `NULL` passed to a string
function. -/
def threadCall : ThreadPhase → σ → Option (σ × (ThreadPhase ⊕ Int))
  | .openingAppend, s =>
      let f := sys.openAppend s
      some (f.2, .inl (if f.1 < 0 then .closingAppend f.1 (-1) else .recieving f.1))
  | .recieving fd, s =>
      (sys.recv bufSize s).map fun r =>
        (r.2.2, .inl (if r.1 < 0 then .closingAppend fd (-1) else .parsing fd r.2.1))
  | .parsing fd buf, s =>
      (parseCommand (ofBytes buf)).map fun command => (s, .inl (match command with
        | some seekto => .seeking fd seekto
        | none => .writing fd buf))
  | .seeking fd seekto, s =>
      let r := sys.ioctlSeekto fd seekto s
      some (r.2, .inl (if r.1 ≠ 0 then .closingAppend fd (-1) else .openingRead))
  | .writing fd buf, s =>
      (sys.write fd buf s).map fun r =>
        (r.2, .inl (if r.1 < 0 then .closingAppend fd (-1)
          else if strchr (ofBytes buf) 10 then .closingAppend fd 0 else .recieving fd))
  | .closingAppend fd ret, s =>
      some (sys.close fd s, if ret = -1 then .inr (-1) else .inl .openingRead)
  | .openingRead, s =>
      let f := sys.openRead s
      some (f.2, if f.1 < 0 then .inr (-1) else .inl (.reading f.1 uninit))
  | .reading fd buf, s =>
      (sys.read fd buf bufSize s).map fun r =>
        (r.2.2, .inl (if r.1 < 0 then .closingRead fd (-1) else .sending fd r.1 r.2.1))
  | .sending fd nread buf, s =>
      (sys.send (bytesFrom buf nread.toNat) s).map fun r =>
        (r.2, .inl (if r.1 < 0 then .closingRead fd (-1)
          else if r.1 = (bufSize : Int) then .reading fd buf else .closingRead fd 0))
  | .closingRead fd ret, s => some (sys.close fd s, .inr ret)

def threadCalls (fuel : Nat) (p : ThreadPhase) (s : σ) : Option (σ × Int) :=
  complete (fun _ : Unit => threadCall sys uninit) () fuel p s

def serveConnectionData (fuel : Nat) (s : σ) : Option (Int × σ) := do
  let e ← recieveSocketData sys fuel s
  match e.outcome with
  | .crashed => none
  | .returned res =>
      if res = -1 then some (-1, e.world) else returnSocketData sys fuel uninit e.world

variable {sys uninit} {fuel : Nat} {fd ret : Int} {buf : List UInt8} {s s' : σ}

theorem closingRead_calls (h : threadCalls sys uninit fuel (.closingRead fd ret) s = some (s', r)) :
    s' = sys.close fd s ∧ r = ret := by
  obtain ⟨n, s₁, -, ⟨l', hcall, -⟩ | ⟨r', hcall, heq⟩⟩ := complete_cases h <;> cases hcall
  cases heq
  exact ⟨rfl, rfl⟩

theorem reading_calls {r : Int} (h : threadCalls sys uninit fuel (.reading fd buf) s = some (s', r)) :
    ∃ rounds, returnLoop sys fd rounds buf s = some (r, s') := by
  induction fuel using Nat.strongRecOn generalizing buf s with
  | ind fuel ih =>
      obtain ⟨n, s₁, rfl, ⟨p₁, hcall, h⟩ | ⟨_, hcall, -⟩⟩ := complete_cases h
      case inr =>
        obtain ⟨_, -, heq⟩ := Option.map_eq_some_iff.mp hcall
        cases heq
      obtain ⟨⟨nread, buf₁, t⟩, hread, heq⟩ := Option.map_eq_some_iff.mp hcall
      cases heq
      dsimp only at h
      split at h
      · rename_i hneg
        obtain ⟨rfl, rfl⟩ := closingRead_calls h
        exact ⟨1, by simp only [returnLoop, hread, Option.bind_eq_bind, Option.bind_some, if_pos hneg]⟩
      rename_i hpos
      obtain ⟨n, s₂, rfl, ⟨p₂, hcall, h⟩ | ⟨_, hcall, -⟩⟩ := complete_cases h
      case inr =>
        obtain ⟨_, -, heq⟩ := Option.map_eq_some_iff.mp hcall
        cases heq
      obtain ⟨⟨nsend, t'⟩, hsend, heq⟩ := Option.map_eq_some_iff.mp hcall
      cases heq
      dsimp only at h
      split at h
      · rename_i hfail
        obtain ⟨rfl, rfl⟩ := closingRead_calls h
        exact ⟨1, by simp only [returnLoop, hread, Option.bind_eq_bind, Option.bind_some, if_neg hpos,
          hsend, if_pos hfail]⟩
      rename_i hok
      split at h
      · rename_i hfull
        obtain ⟨rounds, hloop⟩ := ih n (by omega) h
        exact ⟨rounds + 1, by simp only [returnLoop, hread, Option.bind_eq_bind, Option.bind_some,
          if_neg hpos, hsend, if_neg hok, if_pos hfull, hloop]⟩
      · rename_i hshort
        obtain ⟨rfl, rfl⟩ := closingRead_calls h
        exact ⟨1, by simp only [returnLoop, hread, Option.bind_eq_bind, Option.bind_some, if_neg hpos,
          hsend, if_neg hok, if_neg hshort]⟩

theorem openingRead_calls {r : Int} (h : threadCalls sys uninit fuel .openingRead s = some (s', r)) :
    ∃ rounds, returnSocketData sys rounds uninit s = some (r, s') := by
  obtain ⟨n, s₁, rfl, ⟨p₁, hopen, h⟩ | ⟨r', hopen, heq⟩⟩ := complete_cases h
  · simp only [threadCall, Option.some.injEq, Prod.mk.injEq] at hopen
    obtain ⟨rfl, hnext⟩ := hopen
    split at hnext
    · cases hnext
    · rename_i hok
      cases hnext
      obtain ⟨rounds, hloop⟩ := reading_calls h
      exact ⟨rounds, by simp only [returnSocketData, if_neg hok, hloop]⟩
  · simp only [threadCall, Option.some.injEq, Prod.mk.injEq] at hopen
    obtain ⟨rfl, hnext⟩ := hopen
    split at hnext
    · rename_i hfail
      cases hnext
      cases heq
      exact ⟨0, by simp only [returnSocketData, if_pos hfail]⟩
    · cases hnext

theorem closingAppend_calls {r : Int}
    (h : threadCalls sys uninit fuel (.closingAppend fd ret) s = some (s', r)) :
    ret = -1 ∧ s' = sys.close fd s ∧ r = -1 ∨
      ret ≠ -1 ∧ ∃ n, threadCalls sys uninit n .openingRead (sys.close fd s) = some (s', r) := by
  obtain ⟨n, s₁, rfl, ⟨p₁, hcall, h⟩ | ⟨r', hcall, heq⟩⟩ := complete_cases h
  · simp only [threadCall, Option.some.injEq, Prod.mk.injEq] at hcall
    obtain ⟨rfl, hnext⟩ := hcall
    split at hnext
    · cases hnext
    · rename_i hok
      cases hnext
      exact Or.inr ⟨hok, n, h⟩
  · simp only [threadCall, Option.some.injEq, Prod.mk.injEq] at hcall
    obtain ⟨rfl, hnext⟩ := hcall
    split at hnext
    · rename_i hfail
      cases hnext
      cases heq
      exact Or.inl ⟨hfail, rfl, rfl⟩
    · cases hnext

theorem recieving_calls {r : Int} (stray : Bool)
    (h : threadCalls sys uninit fuel (.recieving fd) s = some (s', r)) :
    ∃ rounds e, recieveLoop sys fd rounds stray s = some e ∧
      (e.outcome = .returned (-1) ∧ s' = e.world ∧ r = -1 ∨
        e.outcome = .returned 0 ∧
          ∃ n, threadCalls sys uninit n .openingRead e.world = some (s', r)) := by
  induction fuel using Nat.strongRecOn generalizing stray s with
  | ind fuel ih =>
      obtain ⟨n, s₁, rfl, ⟨p₁, hcall, h⟩ | ⟨_, hcall, -⟩⟩ := complete_cases h
      case inr =>
        obtain ⟨_, -, heq⟩ := Option.map_eq_some_iff.mp hcall
        cases heq
      obtain ⟨⟨nrecv, buf, t⟩, hrecv, heq⟩ := Option.map_eq_some_iff.mp hcall
      cases heq
      dsimp only at h
      split at h
      · rename_i hneg
        obtain ⟨-, rfl, rfl⟩ := (closingAppend_calls h).resolve_right fun hok => hok.1 rfl
        refine ⟨1, ⟨.returned (-1), stray || decide (nrecv < 0 ∨ bufSize < nrecv), _⟩, ?_,
          Or.inl ⟨rfl, rfl, rfl⟩⟩
        simp only [recieveLoop, recieveTurn, hrecv, Option.bind_eq_bind, Option.bind_some,
          if_pos hneg]
      rename_i hpos
      obtain ⟨n, s₂, rfl, ⟨p₂, hcall, h⟩ | ⟨_, hcall, -⟩⟩ := complete_cases h
      case inr =>
        obtain ⟨_, -, heq⟩ := Option.map_eq_some_iff.mp hcall
        cases heq
      obtain ⟨command, hparse, heq⟩ := Option.map_eq_some_iff.mp hcall
      cases heq
      cases command with
      | some seekto =>
          obtain ⟨n, s₃, rfl, ⟨p₃, hcall, h⟩ | ⟨_, hcall, -⟩⟩ := complete_cases h
          case inr => cases hcall
          simp only [threadCall, Option.some.injEq, Prod.mk.injEq, Sum.inl.injEq] at hcall
          obtain ⟨rfl, rfl⟩ := hcall
          split at h
          · rename_i hfail
            obtain ⟨-, rfl, rfl⟩ := (closingAppend_calls h).resolve_right fun hok => hok.1 rfl
            refine ⟨1, ⟨.returned (-1), stray || decide (nrecv < 0 ∨ bufSize < nrecv), _⟩, ?_,
          Or.inl ⟨rfl, rfl, rfl⟩⟩
            simp only [recieveLoop, recieveTurn, hrecv, hparse, Option.bind_eq_bind,
              Option.bind_some, if_neg hpos, if_pos hfail]
          · rename_i hok
            refine ⟨1, ⟨.returned 0, stray || decide (nrecv < 0 ∨ bufSize < nrecv), _⟩, ?_,
              Or.inr ⟨rfl, n, h⟩⟩
            simp only [recieveLoop, recieveTurn, hrecv, hparse, Option.bind_eq_bind,
              Option.bind_some, if_neg hpos, if_neg hok]
      | none =>
          obtain ⟨n, s₃, rfl, ⟨p₃, hcall, h⟩ | ⟨_, hcall, -⟩⟩ := complete_cases h
          case inr =>
            obtain ⟨_, -, heq⟩ := Option.map_eq_some_iff.mp hcall
            cases heq
          obtain ⟨⟨nwrit, t'⟩, hwrite, heq⟩ := Option.map_eq_some_iff.mp hcall
          cases heq
          dsimp only at h
          split at h
          · rename_i hfail
            obtain ⟨-, rfl, rfl⟩ := (closingAppend_calls h).resolve_right fun hok => hok.1 rfl
            refine ⟨1, ⟨.returned (-1), stray || decide (nrecv < 0 ∨ bufSize < nrecv), _⟩, ?_,
          Or.inl ⟨rfl, rfl, rfl⟩⟩
            simp only [recieveLoop, recieveTurn, hrecv, hparse, hwrite, Option.bind_eq_bind,
              Option.bind_some, if_neg hpos, if_pos hfail]
          rename_i hok
          split at h
          · rename_i hline
            obtain ⟨-, m, hanswer⟩ := (closingAppend_calls h).resolve_left fun hfail => by
              cases hfail.1
            refine ⟨1, ⟨.returned 0, stray || decide (nrecv < 0 ∨ bufSize < nrecv), _⟩, ?_,
              Or.inr ⟨rfl, m, hanswer⟩⟩
            simp only [recieveLoop, recieveTurn, hrecv, hparse, hwrite, Option.bind_eq_bind,
              Option.bind_some, if_neg hpos, if_neg hok, if_pos hline]
          · rename_i hmore
            obtain ⟨rounds, e, hloop, hend⟩ := ih n (by omega)
              (stray || decide (nrecv < 0 ∨ bufSize < nrecv)) h
            refine ⟨rounds + 1, e, ?_, hend⟩
            simp only [recieveLoop, recieveTurn, hrecv, hparse, hwrite, Option.bind_eq_bind,
              Option.bind_some, if_neg hpos, if_neg hok, if_neg hmore, hloop]

theorem serve_of_calls {r : Int} (h : threadCalls sys uninit fuel .openingAppend s = some (s', r)) :
    ∃ fuel', serveConnectionData sys uninit fuel' s = some (r, s') := by
  obtain ⟨n, s₁, rfl, ⟨p₁, hcall, h⟩ | ⟨_, hcall, -⟩⟩ := complete_cases h
  case inr => cases hcall
  simp only [threadCall, Option.some.injEq, Prod.mk.injEq, Sum.inl.injEq] at hcall
  obtain ⟨rfl, rfl⟩ := hcall
  split at h
  · rename_i hfail
    obtain ⟨-, rfl, rfl⟩ := (closingAppend_calls h).resolve_right fun hok => hok.1 rfl
    refine ⟨0, ?_⟩
    simp only [serveConnectionData, recieveSocketData, if_pos hfail, Option.bind_eq_bind,
      Option.bind_some, if_true]
  · rename_i hok
    obtain ⟨rounds, e, hloop, ⟨hout, rfl, rfl⟩ | ⟨hout, m, hanswer⟩⟩ := recieving_calls false h
    · refine ⟨rounds, ?_⟩
      simp only [serveConnectionData, recieveSocketData, if_neg hok, hloop, Option.bind_eq_bind,
        Option.bind_some, hout, if_true]
    · obtain ⟨rounds', hreturn⟩ := openingRead_calls hanswer
      refine ⟨rounds + rounds', ?_⟩
      have hrecieve := recieveLoop_add sys _ rounds rounds' _ _ hloop
      have hreturn' := returnSocketData_add sys rounds' rounds _ _ hreturn
      rw [Nat.add_comm] at hreturn'
      simp only [serveConnectionData, recieveSocketData, if_neg hok, hrecieve, Option.bind_eq_bind,
        Option.bind_some, hout, hreturn']
      rfl

def Returns (sys : Syscalls σ) (uninit : List UInt8) (p : ThreadPhase) (s : σ) (x : σ × Int) : Prop :=
  ∃ n, threadCalls sys uninit n p s = some x

theorem Returns.goes {p p' : ThreadPhase} {x : σ × Int}
    (hcall : threadCall sys uninit p s = some (s', .inl p')) (h : Returns sys uninit p' s' x) :
    Returns sys uninit p s x := by
  obtain ⟨n, hn⟩ := h
  have hfirst : threadCalls sys uninit (n + 1) p s = threadCalls sys uninit n p' s' :=
    complete_of_goes (by exact hcall) n
  exact ⟨n + 1, hfirst.trans hn⟩

theorem Returns.ends {p : ThreadPhase} {r : Int}
    (hcall : threadCall sys uninit p s = some (s', .inr r)) : Returns sys uninit p s (s', r) :=
  ⟨1, complete_of_ends (by exact hcall) 0⟩

theorem returns_closingRead (fd ret : Int) (s : σ) :
    Returns sys uninit (.closingRead fd ret) s (sys.close fd s, ret) :=
  .ends rfl

theorem returns_reading {r : Int} (rounds : Nat)
    (h : returnLoop sys fd rounds buf s = some (r, s')) :
    Returns sys uninit (.reading fd buf) s (s', r) := by
  induction rounds generalizing buf s with
  | zero => cases h
  | succ rounds ih =>
      rw [returnLoop] at h
      obtain ⟨⟨nread, buf₁, t⟩, hread, h⟩ := Option.bind_eq_some_iff.mp h
      have hcall : threadCall sys uninit (.reading fd buf) s =
          some (t, .inl (if nread < 0 then .closingRead fd (-1) else .sending fd nread buf₁)) := by
        rw [threadCall, hread, Option.map_some]
      dsimp only at h
      split at h
      · rename_i hneg
        cases h
        rw [if_pos hneg] at hcall
        exact .goes hcall (returns_closingRead fd (-1) t)
      rename_i hpos
      rw [if_neg hpos] at hcall
      obtain ⟨⟨nsend, t'⟩, hsend, h⟩ := Option.bind_eq_some_iff.mp h
      have hcall' : threadCall sys uninit (.sending fd nread buf₁) t =
          some (t', .inl (if nsend < 0 then .closingRead fd (-1)
            else if nsend = (bufSize : Int) then .reading fd buf₁ else .closingRead fd 0)) := by
        rw [threadCall, hsend, Option.map_some]
      refine .goes hcall (.goes hcall' ?_)
      dsimp only at h
      split at h
      · rename_i hfail
        cases h
        rw [if_pos hfail]
        exact returns_closingRead fd (-1) t'
      rename_i hok
      rw [if_neg hok]
      split at h
      · rename_i hfull
        rw [if_pos hfull]
        exact ih h
      · rename_i hshort
        cases h
        rw [if_neg hshort]
        exact returns_closingRead fd 0 t'

theorem returns_openingRead {r : Int} {rounds : Nat}
    (h : returnSocketData sys rounds uninit s = some (r, s')) :
    Returns sys uninit .openingRead s (s', r) := by
  have hcall : threadCall sys uninit .openingRead s = some ((sys.openRead s).2,
      if (sys.openRead s).1 < 0 then .inr (-1) else .inl (.reading (sys.openRead s).1 uninit)) := rfl
  simp only [returnSocketData] at h
  split at h
  · rename_i hfail
    cases h
    rw [if_pos hfail] at hcall
    exact .ends hcall
  · rename_i hok
    rw [if_neg hok] at hcall
    exact .goes hcall (returns_reading rounds h)

theorem returns_closingAppend (fd ret : Int) (s : σ) {x : σ × Int}
    (h : ret = -1 ∧ x = (sys.close fd s, -1) ∨
      ret ≠ -1 ∧ Returns sys uninit .openingRead (sys.close fd s) x) :
    Returns sys uninit (.closingAppend fd ret) s x := by
  have hcall : threadCall sys uninit (.closingAppend fd ret) s =
      some (sys.close fd s, if ret = -1 then .inr (-1) else .inl .openingRead) := rfl
  rcases h with ⟨hfail, rfl⟩ | ⟨hok, h⟩
  · rw [if_pos hfail] at hcall
    exact .ends hcall
  · rw [if_neg hok] at hcall
    exact .goes hcall h

theorem returns_recieving (rounds : Nat) (stray : Bool) {e : Ended σ} {ret : Int} {x : σ × Int}
    (h : recieveLoop sys fd rounds stray s = some e) (hret : e.outcome = .returned ret)
    (hx : ret = -1 ∧ x = (e.world, -1) ∨ ret ≠ -1 ∧ Returns sys uninit .openingRead e.world x) :
    Returns sys uninit (.recieving fd) s x := by
  induction rounds generalizing stray s with
  | zero => cases h
  | succ rounds ih =>
      simp only [recieveLoop, recieveTurn] at h
      obtain ⟨turn, hturn, h⟩ := Option.bind_eq_some_iff.mp h
      obtain ⟨⟨nrecv, buf, t⟩, hrecv, hturn⟩ := Option.bind_eq_some_iff.mp hturn
      have hcall : threadCall sys uninit (.recieving fd) s =
          some (t, .inl (if nrecv < 0 then .closingAppend fd (-1) else .parsing fd buf)) := by
        rw [threadCall, hrecv, Option.map_some]
      refine .goes hcall ?_
      dsimp only at hturn
      split at hturn
      · rename_i hneg
        cases hturn
        cases h
        cases hret
        rw [if_pos hneg]
        exact returns_closingAppend fd (-1) t hx
      rename_i hpos
      rw [if_neg hpos]
      split at hturn
      · cases hturn
        cases h
        cases hret
      · rename_i target hparse
        have hparsing : threadCall sys uninit (.parsing fd buf) t =
            some (t, .inl (.seeking fd target)) := by
          rw [threadCall, hparse, Option.map_some]
        have hseeking : threadCall sys uninit (.seeking fd target) t =
            some ((sys.ioctlSeekto fd target t).2, .inl (if (sys.ioctlSeekto fd target t).1 ≠ 0
              then .closingAppend fd (-1) else .openingRead)) := rfl
        refine .goes hparsing (.goes hseeking ?_)
        split at hturn
        · rename_i hfail
          cases hturn
          cases h
          cases hret
          rw [if_pos hfail]
          exact returns_closingAppend fd (-1) _ hx
        · rename_i hok
          cases hturn
          cases h
          cases hret
          rw [if_neg hok]
          exact (hx.resolve_left fun hfail => absurd hfail.1 (by decide)).2
      · rename_i hparse
        obtain ⟨⟨nwrit, t'⟩, hwrite, hturn⟩ := Option.bind_eq_some_iff.mp hturn
        have hparsing : threadCall sys uninit (.parsing fd buf) t =
            some (t, .inl (.writing fd buf)) := by
          rw [threadCall, hparse, Option.map_some]
        have hwriting : threadCall sys uninit (.writing fd buf) t =
            some (t', .inl (if nwrit < 0 then .closingAppend fd (-1)
              else if strchr (ofBytes buf) 10 then .closingAppend fd 0 else .recieving fd)) := by
          rw [threadCall, hwrite, Option.map_some]
        refine .goes hparsing (.goes hwriting ?_)
        dsimp only at hturn
        split at hturn
        · rename_i hfail
          cases hturn
          cases h
          cases hret
          rw [if_pos hfail]
          exact returns_closingAppend fd (-1) t' hx
        rename_i hok
        rw [if_neg hok]
        split at hturn
        · rename_i hline
          cases hturn
          cases h
          cases hret
          rw [if_pos hline]
          exact returns_closingAppend fd 0 t' hx
        · rename_i hmore
          cases hturn
          rw [if_neg hmore]
          exact ih _ h

theorem calls_of_serve {rounds : Nat} {r : Int}
    (h : serveConnectionData sys uninit rounds s = some (r, s')) :
    Returns sys uninit .openingAppend s (s', r) := by
  rw [serveConnectionData] at h
  obtain ⟨e, hrecieve, h⟩ := Option.bind_eq_some_iff.mp h
  have hcall : threadCall sys uninit .openingAppend s = some ((sys.openAppend s).2,
      .inl (if (sys.openAppend s).1 < 0 then .closingAppend (sys.openAppend s).1 (-1)
        else .recieving (sys.openAppend s).1)) := rfl
  refine .goes hcall ?_
  cases hout : e.outcome with
  | crashed =>
      rw [hout] at h
      cases h
  | returned ret =>
      rw [hout] at h
      have hx : ret = -1 ∧ (s', r) = (e.world, -1) ∨
          ret ≠ -1 ∧ Returns sys uninit .openingRead e.world (s', r) := by
        dsimp only at h
        split at h
        · rename_i hfail
          cases h
          exact Or.inl ⟨hfail, rfl⟩
        · rename_i hok
          exact Or.inr ⟨hok, returns_openingRead h⟩
      simp only [recieveSocketData] at hrecieve
      split at hrecieve
      · rename_i hfail
        cases hrecieve
        cases hout
        rw [if_pos hfail]
        exact returns_closingAppend _ (-1) _ hx
      · rename_i hok
        rw [if_neg hok]
        exact returns_recieving rounds false hrecieve hout hx

theorem serveConnectionData_add (fuel extra : Nat) {r : Int × σ}
    (h : serveConnectionData sys uninit fuel s = some r) :
    serveConnectionData sys uninit (fuel + extra) s = some r := by
  rw [serveConnectionData] at h ⊢
  obtain ⟨e, hrecieve, h⟩ := Option.bind_eq_some_iff.mp h
  rw [recieveSocketData_add sys fuel extra _ hrecieve]
  simp only [Option.bind_eq_bind, Option.bind_some]
  cases hout : e.outcome with
  | crashed =>
      rw [hout] at h
      cases h
  | returned res =>
      rw [hout] at h
      dsimp only at h ⊢
      split at h
      · rename_i hfail
        rw [if_pos hfail]
        exact h
      · rename_i hok
        rw [if_neg hok]
        exact returnSocketData_add sys fuel extra _ _ h

end Calls
end Aesd

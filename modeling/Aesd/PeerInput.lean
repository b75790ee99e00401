import Aesd.SocketServer
import Mathlib.Data.List.Infix

/-! What a peer can do to the receiving loop. `recv` may return any chunk, the end of the stream
or an error; the loop looks at each of them before it knows what it has. -/
namespace Aesd
open CString

inductive RecvResult
  | data (bytes : List UInt8)
  | closed
  | failed
  deriving DecidableEq

namespace RecvResult

def Possible : RecvResult → Prop
  | data bytes => bytes ≠ [] ∧ bytes.length ≤ bufSize
  | _ => True

def Ends : RecvResult → Prop
  | data _ => False
  | _ => True

/-- A chunk whose text, up to its first NUL, has a token, and two fields if that is the seek word. -/
def Understood : RecvResult → Prop
  | data bytes => Understandable (ofBytes bytes)
  | _ => False

def KeepsWaiting : RecvResult → Prop
  | data bytes => PlainText (ofBytes bytes) ∧ 10 ∉ ofBytes bytes
  | _ => False

end RecvResult

def peerSyscalls : Syscalls (List RecvResult) where
  openAppend s := (3, s)
  openRead s := (3, s)
  close _ s := s
  read _ buf _ s := some (0, buf, s)
  write _ buf s := some (buf.length, s)
  ioctlSeekto _ _ s := (0, s)
  recv _ s := match s with
    | [] => none
    | .data bytes :: s => some (bytes.length, bytes, s)
    | .closed :: s => some (0, [], s)
    | .failed :: s => some (-1, [], s)
  send bytes s := some (bytes.length, s)

/-- No access outside `buf` and no `NULL` in a string function, and the loop has returned at the
latest when there is no more data. -/
structure Withstands (results : List RecvResult) : Prop where
  inside : ∀ fuel e, recieveSocketData peerSyscalls fuel results = some e →
    e.stray = false ∧ e.outcome ≠ .crashed
  ends : ∀ pre r, pre ++ [r] <+: results → r.Ends → ∃ fuel e ret,
    recieveSocketData peerSyscalls fuel (pre ++ [r]) = some e ∧ e.outcome = .returned ret

/-- Every result that comes after nothing but data without a newline is understood. -/
def UnderstoodInTurn (results : List RecvResult) : Prop :=
  ∀ pre r rest, results = pre ++ r :: rest → (∀ q ∈ pre, q.KeepsWaiting) → r.Understood

namespace UnderstoodInTurn
variable {r : RecvResult} {results rest : List RecvResult}

theorem head (h : UnderstoodInTurn (r :: rest)) : r.Understood := h [] r rest rfl (by simp)

theorem tail (h : UnderstoodInTurn (r :: rest)) (hr : r.KeepsWaiting) : UnderstoodInTurn rest := by
  intro pre q rest' heq hpre
  refine h (r :: pre) q rest' (by rw [heq, List.cons_append]) ?_
  simpa only [List.mem_cons, forall_eq_or_imp] using ⟨hr, hpre⟩

theorem of_prefix (h : UnderstoodInTurn results) (hpre : rest <+: results) :
    UnderstoodInTurn rest := by
  obtain ⟨more, rfl⟩ := hpre
  intro pre r rest' heq hwait
  exact h pre r (rest' ++ more) (by rw [heq, List.append_assoc, List.cons_append]) hwait

end UnderstoodInTurn

section Loop
variable {r : RecvResult} {rest : List RecvResult}

theorem exists_parse_seekto {text : List UInt8} (h : Understandable text) (hplain : ¬ PlainText text) :
    ∃ seekto, parseCommand text = some (some seekto) := by
  have hnone : parseCommand text ≠ none := fun hnone => parseCommand_eq_none_iff.mp hnone h
  rw [← parseCommand_eq_data_iff] at hplain
  match hparse : parseCommand text with
  | none => exact absurd hparse hnone
  | some none => exact absurd hparse hplain
  | some (some seekto) => exact ⟨seekto, rfl⟩

theorem recieveLoop_waits (fuel : Nat) (hsize : r.Possible) (h : r.KeepsWaiting) :
    recieveLoop peerSyscalls 3 (fuel + 1) false (r :: rest) =
      recieveLoop peerSyscalls 3 fuel false rest := by
  cases r with
  | closed => cases h
  | failed => cases h
  | data bytes =>
      have hin : ¬ (bufSize : Int) < bytes.length := by exact_mod_cast Nat.not_lt.mpr hsize.2
      have hneg : ¬ (bytes.length : Int) < 0 := by omega
      simp only [recieveLoop, recieveTurn, peerSyscalls, Option.bind_eq_bind, Option.bind_some,
        parseCommand_of_plain h.1, strchr, List.contains_iff_mem, h.2, hin, hneg, if_false,
        or_self, decide_false, Bool.false_or]

theorem recieveLoop_decides (fuel : Nat) (hsize : r.Possible) (h : r.Understood)
    (hwait : ¬ r.KeepsWaiting) :
    recieveLoop peerSyscalls 3 (fuel + 1) false (r :: rest) =
      some ⟨.returned 0, false, rest⟩ := by
  cases r with
  | closed => cases h
  | failed => cases h
  | data bytes =>
      have hin : ¬ (bufSize : Int) < bytes.length := by exact_mod_cast Nat.not_lt.mpr hsize.2
      have hneg : ¬ (bytes.length : Int) < 0 := by omega
      by_cases hplain : PlainText (ofBytes bytes)
      · have hnl : 10 ∈ ofBytes bytes := by
          by_contra hnl
          exact hwait ⟨hplain, hnl⟩
        simp only [recieveLoop, recieveTurn, peerSyscalls, Option.bind_eq_bind, Option.bind_some,
          parseCommand_of_plain hplain, strchr, List.contains_iff_mem, hnl, hin, hneg, if_false,
          if_true, or_self, decide_false, Bool.false_or]
      · obtain ⟨seekto, hparse⟩ := exists_parse_seekto h hplain
        simp only [recieveLoop, recieveTurn, peerSyscalls, Option.bind_eq_bind, Option.bind_some,
          hparse, hin, hneg, if_false, ne_eq, not_true_eq_false, or_self, decide_false,
          Bool.false_or]

theorem recieveLoop_breaks (fuel : Nat) (rest : List RecvResult) (h : ¬ r.Understood) :
    ∃ e, recieveLoop peerSyscalls 3 (fuel + 1) false (r :: rest) = some e ∧
      (e.stray = true ∨ e.outcome = .crashed) := by
  cases r with
  | failed =>
      refine ⟨⟨.returned (-1), true, rest⟩, ?_, Or.inl rfl⟩
      simp [recieveLoop, recieveTurn, peerSyscalls]
  | closed =>
      have hparse : parseCommand (ofBytes []) = none := rfl
      refine ⟨⟨.crashed, false, rest⟩, ?_, Or.inr rfl⟩
      simp [recieveLoop, recieveTurn, peerSyscalls, hparse]
  | data bytes =>
      have hneg : ¬ (bytes.length : Int) < 0 := by omega
      have hparse := parseCommand_eq_none_iff.mpr h
      simp only [recieveLoop, recieveTurn, peerSyscalls, Option.bind_eq_bind, Option.bind_some,
        hparse, hneg, if_false]
      exact ⟨_, rfl, Or.inr rfl⟩

end Loop

theorem recieveLoop_inside {results : List RecvResult} (hsize : ∀ r ∈ results, r.Possible)
    (h : UnderstoodInTurn results) (fuel : Nat) {e : Ended (List RecvResult)}
    (hloop : recieveLoop peerSyscalls 3 fuel false results = some e) :
    e.stray = false ∧ e.outcome ≠ .crashed := by
  induction results generalizing fuel with
  | nil =>
      cases fuel with
      | zero => cases hloop
      | succ fuel => cases hloop
  | cons r rest ih =>
      rw [List.forall_mem_cons] at hsize
      cases fuel with
      | zero => cases hloop
      | succ fuel =>
          by_cases hwait : r.KeepsWaiting
          · rw [recieveLoop_waits fuel hsize.1 hwait] at hloop
            exact ih hsize.2 (h.tail hwait) fuel hloop
          · rw [recieveLoop_decides fuel hsize.1 h.head hwait, Option.some.injEq] at hloop
            subst hloop
            exact ⟨rfl, by simp⟩

theorem recieveLoop_ends {pre : List RecvResult} {r : RecvResult} (hends : r.Ends)
    (hsize : ∀ q ∈ pre, q.Possible) (h : UnderstoodInTurn (pre ++ [r])) :
    ∃ fuel e ret, recieveLoop peerSyscalls 3 fuel false (pre ++ [r]) = some e ∧
      e.outcome = .returned ret := by
  induction pre with
  | nil =>
      have hr := h.head
      cases r with
      | data bytes => cases hends
      | closed => cases hr
      | failed => cases hr
  | cons q pre ih =>
      rw [List.forall_mem_cons] at hsize
      by_cases hwait : q.KeepsWaiting
      · obtain ⟨fuel, e, ret, hloop, hret⟩ := ih hsize.2 (h.tail hwait)
        refine ⟨fuel + 1, e, ret, ?_, hret⟩
        rw [List.cons_append, recieveLoop_waits fuel hsize.1 hwait]
        exact hloop
      · exact ⟨1, _, 0, recieveLoop_decides 0 hsize.1 h.head hwait, rfl⟩

theorem recieveLoop_reaches {pre : List RecvResult} (hwait : ∀ q ∈ pre, q.KeepsWaiting)
    (hsize : ∀ q ∈ pre, q.Possible) (fuel : Nat) (rest : List RecvResult) :
    recieveLoop peerSyscalls 3 (pre.length + fuel) false (pre ++ rest) =
      recieveLoop peerSyscalls 3 fuel false rest := by
  induction pre with
  | nil => rw [List.length_nil, Nat.zero_add, List.nil_append]
  | cons q pre ih =>
      rw [List.forall_mem_cons] at hwait hsize
      rw [List.length_cons, Nat.succ_add, List.cons_append,
        recieveLoop_waits _ hsize.1 hwait.1, ih hwait.2 hsize.2]

/-- Client input and the receiving loop. Whatever `recv` returns, the loop stays inside its
buffer, hands no `NULL` to a string function and returns at the latest at the end of the
data, exactly when every result that comes after nothing but data without a newline is a
chunk that is understood. -/
theorem withstands_iff (results : List RecvResult) (hsize : ∀ r ∈ results, r.Possible) :
    Withstands results ↔ UnderstoodInTurn results := by
  constructor
  · rintro ⟨inside, -⟩ pre r rest rfl hwait
    by_contra hr
    obtain ⟨e, hloop, hbad⟩ := recieveLoop_breaks 0 rest hr
    have hreach := recieveLoop_reaches hwait (fun q hq => hsize q (by simp [hq])) 1 (r :: rest)
    obtain ⟨hstray, hcrash⟩ := inside (pre.length + 1) e (hreach.trans hloop)
    rcases hbad with hbad | hbad
    · rw [hstray] at hbad
      cases hbad
    · exact hcrash hbad
  · intro h
    refine ⟨fun fuel e hloop => recieveLoop_inside hsize h fuel hloop, fun pre r hpre hends => ?_⟩
    exact recieveLoop_ends hends (fun q hq => hsize q (hpre.subset (by simp [hq])))
      (h.of_prefix hpre)

theorem withstands_two_chunks : Withstands [.data [97], .data [98, 10], .closed] := by
  have hfirst : Understandable [97] :=
    not_not.mp fun h => absurd (parseCommand_eq_none_iff.mpr h) (by decide +kernel)
  have hsecond : Understandable [98, 10] :=
    not_not.mp fun h => absurd (parseCommand_eq_none_iff.mpr h) (by decide +kernel)
  refine (withstands_iff _ ?_).mpr fun pre r rest heq hwait => ?_
  · simp [RecvResult.Possible, bufSize]
  · match pre with
    | [] =>
        rw [List.nil_append, List.cons.injEq] at heq
        exact heq.1 ▸ hfirst
    | [_] =>
        rw [List.singleton_append, List.cons.injEq, List.cons.injEq] at heq
        exact heq.2.1 ▸ hsecond
    | _ :: q :: _ =>
        rw [List.cons_append, List.cons_append, List.cons.injEq, List.cons.injEq] at heq
        have hq := hwait q (by simp)
        rw [← heq.2.1] at hq
        exact absurd (show (10 : UInt8) ∈ ofBytes [98, 10] by decide) hq.2

/-- A chunk with nothing but a colon. -/
theorem not_withstands_colon : ¬ Withstands [.data [58]] := by
  intro h
  have hend : recieveSocketData peerSyscalls 1 [.data [58]] = some ⟨.crashed, false, []⟩ := rfl
  exact (h.inside 1 _ hend).2 rfl

end Aesd

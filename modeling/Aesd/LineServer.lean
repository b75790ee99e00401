import Aesd.SeekIsolation

/-! What the server is to its clients: the lines that they have sent, of which the last ten are kept. An
answer does not go on where a group of ten lines ends, so that the lines of the group that is not
complete yet are only reached by a seek command. -/
namespace Aesd

inductive Request
  | line (text : List UInt8)
  | seek (seekto : AesdSeekto)

/-- All lines, oldest first, and the position of a seek command that no answer has started at. -/
structure LineServer where
  lines : List (List UInt8)
  pending : Option Nat

namespace LineServer

/-- How many of `n` lines are newer than the last group of ten, when there is such a group. -/
def newerCount (n : Nat) : Nat := if n < 10 then 0 else n % 10

def kept (a : LineServer) : List (List UInt8) := a.lines.rtake 10

def older (a : LineServer) : List (List UInt8) := a.kept.take (10 - newerCount a.lines.length)

def newer (a : LineServer) : List (List UInt8) := a.kept.drop (10 - newerCount a.lines.length)

def answer (a : LineServer) (p : Nat) : List UInt8 :=
  if p < (contents a.older).length then (contents a.older).drop p
  else (contents a.newer).drop (p - (contents a.older).length)

/-- The byte that a seek command leads to. It counts the newer lines first. -/
def target (a : LineServer) (seekto : AesdSeekto) : Nat :=
  lineBytes (a.newer ++ a.older) seekto.writeCmd + seekto.writeCmdOffset

def step (a : LineServer) : Request → LineServer × List UInt8
  | .line text =>
      let a' : LineServer := ⟨a.lines ++ [text], none⟩
      (a', a'.answer (a.pending.getD 0))
  | .seek seekto =>
      if a.lines = [] then (⟨[], some (a.target seekto)⟩, [])
      else (⟨a.lines, none⟩, a.answer (a.target seekto))

def start : LineServer := ⟨[], none⟩

def after (a : LineServer) (requests : List Request) : LineServer :=
  requests.foldl (fun a q => (a.step q).1) a

def replies (a : LineServer) : List Request → List (List UInt8)
  | [] => []
  | q :: qs => (a.step q).2 :: (a.step q).1.replies qs

def Fits (a : LineServer) : List Request → Prop
  | [] => True
  | q :: qs => (contents (a.step q).1.kept).length < bufSize ∧ (a.step q).1.Fits qs

instance decidableFits (a : LineServer) : (requests : List Request) → Decidable (a.Fits requests)
  | [] => isTrue trivial
  | q :: qs =>
      have := decidableFits (a.step q).1 qs
      inferInstanceAs (Decidable (_ ∧ _))

theorem older_append_newer (a : LineServer) : a.older ++ a.newer = a.kept := List.take_append_drop _ _

theorem contents_older_append_newer (a : LineServer) :
    contents a.older ++ contents a.newer = contents a.kept := by
  rw [contents, contents, ← List.flatten_append, older_append_newer, contents]

def complete (n : Nat) : Nat := if n < 10 then n else n - n % 10

theorem length_kept (a : LineServer) : a.kept.length = min a.lines.length 10 := by
  rw [kept, List.rtake, List.length_drop]
  omega

theorem older_eq (a : LineServer) :
    a.older = (a.lines.take (complete a.lines.length)).drop (a.lines.length - 10) := by
  rw [older, kept, List.rtake, newerCount, complete]
  split
  · rename_i hlt
    rw [Nat.sub_eq_zero_of_le hlt.le, List.drop_zero, List.drop_zero, List.take_length,
      List.take_of_length_le (by omega)]
  · rw [List.drop_take]
    congr 1
    omega

theorem answer_zero (a : LineServer) (hne : a.older ≠ []) (hpos : ∀ l ∈ a.older, l ≠ []) :
    a.answer 0 = contents a.older := by
  have hlen : 0 < (contents a.older).length := by
    cases hlines : a.older with
    | nil => exact absurd hlines hne
    | cons l ls =>
        have hl := hpos l (by rw [hlines]; exact List.mem_cons_self)
        rw [contents, List.flatten_cons, List.length_append]
        exact Nat.add_pos_left (List.length_pos_iff.mpr hl) _
  rw [answer, if_pos hlen, List.drop_zero]

theorem older_ne_nil (a : LineServer) (hne : a.lines ≠ []) : a.older ≠ [] := by
  intro hnil
  have hlen := congrArg List.length hnil
  have hpos := List.length_pos_iff.mpr hne
  rw [older, List.length_take, length_kept, List.length_nil, newerCount] at hlen
  split at hlen <;> omega

theorem replies_lines (texts : List (List UInt8)) (hpos : ∀ l ∈ texts, l ≠ []) :
    ∀ (a : LineServer), a.pending = none → (∀ l ∈ a.lines, l ≠ []) →
      a.replies (texts.map .line) = (List.range texts.length).map fun i =>
        let sent := a.lines ++ texts.take (i + 1)
        contents ((sent.take (complete sent.length)).drop (sent.length - 10)) := by
  induction texts with
  | nil => exact fun _ _ _ => rfl
  | cons text texts ih =>
      intro a hpending hlines
      rw [List.forall_mem_cons] at hpos
      have hall : ∀ l ∈ a.lines ++ [text], l ≠ [] := by
        intro l hl
        rcases List.mem_append.mp hl with hl | hl
        · exact hlines l hl
        · rw [List.mem_singleton.mp hl]
          exact hpos.1
      rw [List.map_cons, replies, step, List.length_cons, List.range_succ_eq_map, List.map_cons,
        ih hpos.2 _ rfl hall, hpending, List.map_map]
      congr 1
      · rw [Option.getD_none, answer_zero, older_eq]
        · rfl
        · exact older_ne_nil _ (by simp)
        · intro l hl
          refine hall l ?_
          rw [older_eq] at hl
          exact List.mem_of_mem_take (List.mem_of_mem_drop hl)
      · refine List.map_congr_left fun i _ => ?_
        simp only [Function.comp_apply, List.take_succ_cons, List.append_assoc, List.singleton_append]

end LineServer
end Aesd

import Mathlib.Data.List.Basic
import Mathlib.Tactic.Common

/-! Cutting a sequence into maximal runs. An element that satisfies `ends` closes the run
it belongs to; the elements behind the last such one form the trailing run. That every
run is closed by its last element and by no other is part of the type. -/

/-- A run closed by its last element. -/
structure EndedRun {α : Type} (ends : α → Prop) (run : List α) : Prop where
  ne_nil : run ≠ []
  last : ∀ h : run ≠ [], ends (run.getLast h)
  body : ∀ x ∈ run.dropLast, ¬ ends x

structure Runs (α : Type) (ends : α → Prop) where
  ended : List (List α)
  trailing : List α
  ended_runs : ∀ run ∈ ended, EndedRun ends run
  trailing_open : ∀ x ∈ trailing, ¬ ends x

namespace Runs
variable {α : Type} {ends : α → Prop} [DecidablePred ends]

def empty : Runs α ends where
  ended := []
  trailing := []
  ended_runs := by simp
  trailing_open := by simp

def push (r : Runs α ends) (x : α) : Runs α ends where
  ended := if ends x then r.ended ++ [r.trailing ++ [x]] else r.ended
  trailing := if ends x then [] else r.trailing ++ [x]
  ended_runs run hrun := by
    split at hrun
    · rename_i hx
      rcases List.mem_append.mp hrun with hold | hnew
      · exact r.ended_runs run hold
      · rw [List.mem_singleton.mp hnew]
        exact ⟨by simp, fun _ => by simpa using hx, by simpa using r.trailing_open⟩
    · exact r.ended_runs run hrun
  trailing_open y hy := by
    split at hy
    · cases hy
    · rename_i hx
      rcases List.mem_append.mp hy with hold | hnew
      · exact r.trailing_open y hold
      · rw [List.mem_singleton.mp hnew]
        exact hx

def cut (r : Runs α ends) : Runs α ends where
  ended := r.ended
  trailing := []
  ended_runs := r.ended_runs
  trailing_open := by simp

theorem push_of_ends (r : Runs α ends) {x : α} (h : ends x) :
    (r.push x).ended = r.ended ++ [r.trailing ++ [x]] ∧ (r.push x).trailing = [] := by
  simp [push, h]

theorem push_of_not_ends (r : Runs α ends) {x : α} (h : ¬ ends x) :
    (r.push x).ended = r.ended ∧ (r.push x).trailing = r.trailing ++ [x] := by
  simp [push, h]

end Runs

import Aesd.AcceptLoop
import Aesd.Lib.FixedWidth

/-! How far `main` runs ahead of its threads. The assignment in the `if` of the pass makes it join every
thread on the list, and the second connection is the first to begin a pass: from then on the
list is empty whenever `main` is back at `accept`. Only the first two connections are ever
served by threads that run beside each other. -/
namespace Aesd
open Interleaving SList

def LoopPhase.Clears (m : ThreadTable) (l : List Nat) : LoopPhase → Prop
  | accepting => m.created ≤ 1 ∨ l = []
  | inserting t => t + 1 = m.created ∧ (m.created ≤ 2 ∨ l = [])
  | visiting datap => Chain m.head.next datap l ∧ ∀ t ∈ l, t + 1 = m.created ∨ m.created ≤ 2
  | examining datap datapTemp => (∃ rest, l = datap :: rest ∧ Chain m.head.next datapTemp rest) ∧
      ∀ t ∈ l, t + 1 = m.created ∨ m.created ≤ 2
  | joining datap datapTemp => (∃ rest, l = datap :: rest ∧ Chain m.head.next datapTemp rest) ∧
      ∀ t ∈ l, t + 1 = m.created ∨ m.created ≤ 2
  | removing datap datapTemp => (∃ rest, l = datap :: rest ∧ Chain m.head.next datapTemp rest) ∧
      ∀ t ∈ l, t + 1 = m.created ∨ m.created ≤ 2

/-- The memory holds the list `l`, and what it holds besides is on its way to being joined. -/
structure SerialInv (m : ThreadTable) (p : LoopPhase) (l : List Nat) : Prop extends LoopInv m p l where
  counted : m.counter = BitVec.ofNat 32 (m.created - p.entering.length)
  joined_exited : ∀ t ∈ m.joined, m.exited t = true
  clears : p.Clears m l

/-- All threads have ended but the newest, or there are no more than two. -/
def ServesAlone (m : ThreadTable) : Prop :=
  ∀ t < m.created, m.exited t = true ∨ t + 1 = m.created ∨ m.created ≤ 2

theorem slt_one_ofNat {n : Nat} (h : n < 2 ^ 31) :
    BitVec.slt 1 (BitVec.ofNat 32 n) = decide (2 ≤ n) := by
  rw [BitVec.slt, decide_eq_decide]
  have hone : (1 : BitVec 32).toInt = 1 := by decide
  have hn : (BitVec.ofNat 32 n).toInt = n := by
    rw [BitVec.toInt_ofNat', Int.bmod_eq_of_le (by omega) (by omega)]
  rw [hone, hn]
  omega

namespace SerialInv
variable {m m' : ThreadTable} {p p' : LoopPhase} {l : List Nat}

theorem start : SerialInv .start .accepting [] where
  toLoopInv := .start
  counted := rfl
  joined_exited t ht := by cases ht
  clears := Or.inr rfl

theorem exited_mono {m : ThreadTable} {t u : Nat} (h : m.exited u = true) :
    Function.update m.exited t true u = true := by
  by_cases heq : u = t
  · rw [heq, Function.update_self]
  · rwa [Function.update_of_ne heq]

theorem exit (inv : SerialInv m p l) {t : Nat} (hexit : exitStep t m = some m') :
    SerialInv m' p l := by
  rw [exitStep] at hexit
  split at hexit
  · cases hexit
    refine ⟨inv.toLoopInv.exit _ t, inv.counted, fun u hu => exited_mono (inv.joined_exited u hu), ?_⟩
    have hclears := inv.clears
    cases p <;> exact hclears
  · cases hexit

theorem alone_of_insert {t : Nat} (inv : SerialInv m (.inserting t) l) :
    ∀ u ∈ t :: l, u + 1 = m.created ∨ m.created ≤ 2 := by
  obtain ⟨hnewest, hfew | rfl⟩ := inv.clears
  · exact fun u _ => Or.inr hfew
  · intro u hu
    rw [List.mem_singleton.mp hu]
    exact Or.inl hnewest

theorem insert {t : Nat} (inv : SerialInv m (.inserting t) l) (hcreated : m.created < 2 ^ 31)
    (hstep : loopStep m (.inserting t) = some (m', p')) : ∃ l', SerialInv m' p' l' := by
  obtain ⟨hnewest, hclears⟩ := inv.clears
  have hcount : m.counter + 1 = BitVec.ofNat 32 m.created := by
    have hcounted : m.counter = BitVec.ofNat 32 (m.created - 1) := inv.counted
    rw [hcounted, ← hnewest, Nat.add_sub_cancel, BitVec.ofNat_add]
    rfl
  have halone := inv.alone_of_insert
  have inv' := inv.toLoopInv.insert (Function.update m.tdata t t) (m.counter + 1)
  rw [loopStep, hcount, slt_one_ofNat hcreated] at hstep
  dsimp only at hstep
  rw [hcount] at inv'
  split at hstep
  · cases hstep
    refine ⟨t :: l, inv'.begin_pass, ?_, inv.joined_exited, inv'.chain, halone⟩
    simp [LoopPhase.entering]
  · rename_i hfew
    cases hstep
    refine ⟨t :: l, inv', ?_, inv.joined_exited, Or.inl ?_⟩
    · simp [LoopPhase.entering]
    · dsimp only
      simp only [decide_eq_true_eq] at hfew
      omega

theorem remove {datap : Nat} {datapTemp : Option Nat} (inv : SerialInv m (.removing datap datapTemp) l)
    (hstep : loopStep m (.removing datap datapTemp) = some (m', p')) : ∃ l', SerialInv m' p' l' := by
  obtain ⟨⟨rest, rfl, hrest⟩, halone⟩ := inv.clears
  obtain ⟨l', inv'⟩ := loopInv_loopStep inv.toLoopInv hstep
  have hfront : Chain m.head.next m.head.first ([] ++ datap :: rest) := inv.chain
  obtain ⟨head, hremove, hchain, hnext⟩ := remove_eq hfront inv.nodup (Nat.zero_le m.created)
  rw [loopStep, hremove] at hstep
  cases hstep
  obtain rfl := inv'.chain.eq hchain
  refine ⟨_, inv', inv.counted, inv.joined_exited, ?_, fun t ht => halone t (List.mem_cons_of_mem _ ht)⟩
  exact hrest.congr fun a ha => hnext a (List.mem_cons_of_mem _ ha)

theorem step (inv : SerialInv m p l) (hcreated : m'.created < 2 ^ 31)
    (hstep : loopStep m p = some (m', p')) : ∃ l', SerialInv m' p' l' := by
  cases p with
  | accepting =>
      cases hstep
      refine ⟨l, inv.toLoopInv.accept _, ?_, inv.joined_exited, rfl, ?_⟩
      · exact inv.counted
      · exact inv.clears.imp Nat.succ_le_succ id
  | inserting t =>
      refine inv.insert ?_ hstep
      rw [loopStep] at hstep
      split at hstep <;> cases hstep <;> exact hcreated
  | visiting datap =>
      obtain ⟨hchain, halone⟩ := inv.clears
      cases datap with
      | none =>
          cases hstep
          obtain rfl : l = [] := hchain.eq (show Chain m.head.next none [] from rfl)
          exact ⟨[], inv.toLoopInv.end_pass, inv.counted, inv.joined_exited, Or.inr rfl⟩
      | some datap =>
          cases hstep
          cases l with
          | nil => cases hchain
          | cons a rest =>
              obtain rfl := Option.some.inj hchain.1
              exact ⟨_, inv.toLoopInv.visit, inv.counted, inv.joined_exited,
                ⟨rest, rfl, hchain.2⟩, halone⟩
  | examining datap datapTemp =>
      obtain ⟨l', inv'⟩ := loopInv_loopStep inv.toLoopInv hstep
      simp only [loopStep, Function.update_self, if_true, Option.some.injEq, Prod.mk.injEq] at hstep
      obtain ⟨rfl, rfl⟩ := hstep
      obtain rfl := inv'.chain.eq inv.chain
      exact ⟨_, inv', inv.counted, inv.joined_exited, inv.clears⟩
  | joining datap datapTemp =>
      obtain ⟨l', inv'⟩ := loopInv_loopStep inv.toLoopInv hstep
      rw [loopStep] at hstep
      split at hstep
      · rename_i hended
        cases hstep
        obtain rfl := inv'.chain.eq inv.chain
        refine ⟨_, inv', inv.counted, fun t ht => ?_, inv.clears⟩
        rcases List.mem_append.mp ht with ht | ht
        · exact inv.joined_exited t ht
        · rw [List.mem_singleton.mp ht]
          exact hended
      · cases hstep
  | removing datap datapTemp => exact inv.remove hstep

theorem servesAlone (inv : SerialInv m p l) : ServesAlone m := by
  intro t ht
  rcases inv.known t ht with hlisted | hjoined | hentering
  · refine Or.inr ?_
    have hclears := inv.clears
    cases p with
    | accepting =>
        obtain hfew | rfl := hclears
        · exact Or.inr (Nat.le_succ_of_le hfew)
        · cases hlisted
    | inserting t' =>
        obtain ⟨-, hfew | rfl⟩ := hclears
        · exact Or.inr hfew
        · cases hlisted
    | _ => exact hclears.2 t hlisted
  · exact Or.inl (inv.joined_exited t hjoined)
  · have hclears := inv.clears
    cases p with
    | inserting t' =>
        rw [List.mem_singleton.mp hentering]
        exact Or.inr (Or.inl hclears.1)
    | _ => cases hentering

/-- Back at `accept`, every thread has been joined. -/
theorem joined_of_accepting (inv : SerialInv m .accepting l) (htwo : 2 ≤ m.created) :
    m.listed = [] ∧ ∀ t < m.created, t ∈ m.joined := by
  obtain hfew | rfl := inv.clears
  · omega
  · refine ⟨inv.listed, fun t ht => ?_⟩
    rcases inv.known t ht with h | h | h
    · cases h
    · exact h
    · cases h

end SerialInv

theorem loopStep_examining (m : ThreadTable) (datap : Nat) (datapTemp : Option Nat) :
    loopStep m (.examining datap datapTemp) = some ({ m with
      threadCompleteSuccess := Function.update m.threadCompleteSuccess (m.tdata datap) true
      visited := m.visited ++ [datap]
      joinCalls := m.joinCalls ++ [(m.threadId datap, m.exited (m.threadId datap))] },
      .joining datap datapTemp) := by
  rw [loopStep, Function.update_self, if_pos rfl]

theorem loopStep_created {m m' : ThreadTable} {p p' : LoopPhase}
    (hstep : loopStep m p = some (m', p')) : m.created ≤ m'.created ∧ m'.exited = m.exited := by
  cases p with
  | accepting =>
      cases hstep
      exact ⟨Nat.le_succ _, rfl⟩
  | inserting t =>
      rw [loopStep] at hstep
      split at hstep <;> cases hstep <;> exact ⟨Nat.le_refl _, rfl⟩
  | visiting datap =>
      cases datap <;> cases hstep <;> exact ⟨Nat.le_refl _, rfl⟩
  | examining datap datapTemp =>
      cases (loopStep_examining m datap datapTemp).symm.trans hstep
      exact ⟨Nat.le_refl _, rfl⟩
  | joining datap datapTemp =>
      rw [loopStep] at hstep
      split at hstep <;> cases hstep
      exact ⟨Nat.le_refl _, rfl⟩
  | removing datap datapTemp =>
      obtain ⟨head, -, heq⟩ := Option.map_eq_some_iff.mp hstep
      cases heq
      exact ⟨Nat.le_refl _, rfl⟩

theorem exitStep_created {m m' : ThreadTable} {t : Nat} (hexit : exitStep t m = some m') :
    m'.created = m.created ∧ m'.exited = Function.update m.exited t true := by
  rw [exitStep] at hexit
  split at hexit <;> cases hexit
  exact ⟨rfl, rfl⟩

section Run
variable {s s' : State (Option Nat) ThreadTable LoopPhase} {i : Option Nat}

def SerialLoop (s : State (Option Nat) ThreadTable LoopPhase) : Prop :=
  s.shared.created < 2 ^ 31 → ∃ l, SerialInv s.shared (s.party none) l

theorem SerialLoop.act (h : SerialLoop s) (hact : act threadStep s i = some s') :
    SerialLoop s' := by
  intro hfew
  obtain ⟨m, p, hstep, rfl⟩ := act_eq_some hact
  cases i with
  | none =>
      dsimp only at hfew ⊢
      rw [Function.update_self]
      obtain ⟨l, inv⟩ := h (Nat.lt_of_le_of_lt (loopStep_created hstep).1 hfew)
      exact inv.step hfew hstep
  | some t =>
      obtain ⟨m', hexit, heq⟩ := Option.map_eq_some_iff.mp hstep
      cases heq
      dsimp only at hfew ⊢
      rw [(exitStep_created hexit).1] at hfew
      obtain ⟨l, inv⟩ := h hfew
      rw [Function.update_of_ne (Option.some_ne_none t).symm]
      exact ⟨l, inv.exit hexit⟩

/-- `main` waits for the threads. Up to 2^31 - 1 connections, and in whatever order their threads end, all
but the newest have ended once there are three; and whenever `main` is back at `accept` with two
or more behind it, every thread has ended and has been joined, and the list is empty. -/
theorem main_waits_for_threads (schedule : List (Option Nat))
    (hrun : run threadStep loopStart schedule = some s) (hfew : s.shared.created < 2 ^ 31) :
    ServesAlone s.shared ∧
      (s.party none = .accepting → 2 ≤ s.shared.created → s.shared.listed = [] ∧
        ∀ t < s.shared.created, t ∈ s.shared.joined ∧ s.shared.exited t = true) := by
  have hstart : SerialLoop loopStart := fun _ => ⟨[], .start⟩
  obtain ⟨l, inv⟩ := run_invariant (fun _ _ _ h hact => h.act hact) hstart schedule hrun hfew
  refine ⟨inv.servesAlone, fun hphase htwo => ?_⟩
  rw [hphase] at inv
  obtain ⟨hlisted, hjoined⟩ := inv.joined_of_accepting htwo
  exact ⟨hlisted, fun t ht => ⟨hjoined t ht, inv.joined_exited t (hjoined t ht)⟩⟩

theorem main_waits_for_threads_three : ∃ s, run threadStep loopStart
    [none, none, none, some 1, none, none, none, none, none, some 0, none, none, none, none, none,
      none] = some s ∧ s.party none = .inserting 2 ∧ ServesAlone s.shared := by
  obtain ⟨s, hs⟩ : ∃ s, run threadStep loopStart [none, none, none, some 1, none, none, none, none,
    none, some 0, none, none, none, none, none, none] = some s := ⟨_, rfl⟩
  have hvalues : (run threadStep loopStart [none, none, none, some 1, none, none, none, none, none,
      some 0, none, none, none, none, none, none]).map (fun s => (s.party none, s.shared.created)) =
      some (.inserting 2, 3) := by decide +kernel
  rw [hs, Option.map_some, Option.some.injEq, Prod.mk.injEq] at hvalues
  exact ⟨s, hs, hvalues.1, (main_waits_for_threads _ hs (by rw [hvalues.2]; decide)).1⟩

end Run
end Aesd

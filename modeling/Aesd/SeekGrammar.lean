import Aesd.MessageChunks

/-! The messages that the server takes for a seek command, against the form that a command has:
the word, a colon, two decimal numbers with a comma between them and a newline. -/
namespace Aesd
open CString

/-- A number as it is written: some decimal digits, with a value of 32 bits. -/
structure Spelled (digits : List UInt8) (n : Nat) : Prop where
  ne_nil : digits ≠ []
  digit : ∀ d ∈ digits, isdigit d = true
  value : decimal digits = n
  lt : n < 2 ^ 32

/-- `AESDCHAR_IOCSEEKTO:X,Y` and a newline. -/
def IsSeekCommand (m : List UInt8) (target : AesdSeekto) : Prop :=
  ∃ X Y, m = seekWord ++ 58 :: (X ++ 44 :: (Y ++ [10])) ∧ Spelled X target.writeCmd ∧
    Spelled Y target.writeCmdOffset

/-- In the round that receives the message, a command is carried out with its two numbers, and
any other message is written as it is. -/
structure ParsedExactly (m : List UInt8) : Prop where
  command : ∀ target, IsSeekCommand m target → ∀ fd, ∃ t,
    recieveTurn trafficSyscalls fd ⟨[m], [], []⟩ = some t ∧ t.outcome = some (.returned 0) ∧
      t.world = ⟨[], [], [target]⟩
  data : (∀ target, ¬ IsSeekCommand m target) → ∀ fd, ∃ t,
    recieveTurn trafficSyscalls fd ⟨[m], [], []⟩ = some t ∧ t.world = ⟨[], m, []⟩

theorem isdigit_bounds {d : UInt8} (h : isdigit d = true) : 48 ≤ d ∧ d ≤ 57 := by
  simpa [isdigit] using h

theorem Spelled.notMem {digits : List UInt8} {n : Nat} (h : Spelled digits n) {c : UInt8}
    (hc : isdigit c = false) : c ∉ digits := by
  intro hmem
  rw [h.digit c hmem] at hc
  cases hc

theorem Spelled.atoi {digits rest : List UInt8} {n : Nat} (h : Spelled digits n)
    (hrest : rest.takeWhile isdigit = []) : toUint32 (atoi (digits ++ rest)) = n := by
  obtain ⟨d, ds, rfl⟩ := List.exists_cons_of_ne_nil h.ne_nil
  have hd := isdigit_bounds (h.digit d (by simp))
  have hspace : isspace d = false := by
    have h9 : ¬ d ≤ 13 := fun hle => absurd (UInt8.le_trans hd.1 hle) (by decide)
    have h32 : d ≠ 32 := fun heq => absurd (heq ▸ hd.1) (by decide)
    simp [isspace, h9, h32]
  have hminus : d ≠ 45 := fun heq => absurd (heq ▸ hd.1) (by decide)
  have hplus : d ≠ 43 := fun heq => absurd (heq ▸ hd.1) (by decide)
  have hread : (d :: ds ++ rest).takeWhile isdigit = d :: ds := by
    rw [List.takeWhile_append_of_pos h.digit, hrest, List.append_nil]
  have hvalue := h.value
  have hlt := h.lt
  have hstrtol : strtol (d :: ds ++ rest) = n := by
    simp only [strtol, List.cons_append, List.dropWhile_cons, hspace, Bool.false_eq_true, if_false,
      List.head?_cons, Option.some.injEq, hminus, hplus, or_self]
    rw [← List.cons_append, hread, hvalue]
    omega
  unfold CString.atoi toUint32
  rw [hstrtol]
  omega

section Command
variable {m : List UInt8} {target : AesdSeekto}

theorem IsSeekCommand.parse (h : IsSeekCommand m target) :
    parseCommand (ofBytes m) = some (some target) := by
  obtain ⟨X, Y, rfl, hX, hY⟩ := h
  have hnul : (0 : UInt8) ∉ seekWord ++ 58 :: (X ++ 44 :: (Y ++ [10])) := by
    have hword : (0 : UInt8) ∉ seekWord := by decide
    simp [hword, hX.notMem (c := 0) rfl, hY.notMem (c := 0) rfl]
  have hcomma : (44 : UInt8) ∉ Y ++ [10] := by simp [hY.notMem (c := 44) rfl]
  rw [ofBytes_of_notMem hnul, parseCommand, strtok_append (by decide) (by decide)]
  dsimp only
  rw [if_pos rfl, strtok_append hX.ne_nil (hX.notMem rfl)]
  dsimp only
  rw [strtok_of_notMem hcomma (by simp)]
  have hcmd : toUint32 (atoi (X ++ [])) = target.writeCmd := hX.atoi rfl
  have hoffset : toUint32 (atoi (Y ++ [10])) = target.writeCmdOffset := hY.atoi rfl
  rw [List.append_nil] at hcmd
  dsimp only
  rw [hcmd, hoffset]

theorem recieveTurn_message (fd : Int) (m : List UInt8) :
    ∃ t, recieveTurn trafficSyscalls fd ⟨[m], [], []⟩ = some t ∧
      match parseCommand (ofBytes m) with
      | none => t.world = ⟨[], [], []⟩
      | some none => t.world = ⟨[], m, []⟩
      | some (some target) => t.outcome = some (.returned 0) ∧ t.world = ⟨[], [], [target]⟩ := by
  have hpos : ¬ (m.length : Int) < 0 := by omega
  simp only [recieveTurn, trafficSyscalls, Option.bind_eq_bind, Option.bind_some, hpos, if_false]
  cases parseCommand (ofBytes m) with
  | none => exact ⟨_, rfl, rfl⟩
  | some command =>
      cases command with
      | none =>
          dsimp only
          split <;> exact ⟨_, rfl, rfl⟩
      | some target => exact ⟨_, rfl, rfl, rfl⟩

end Command

/-- The parser keeps to the form exactly on the commands that have it and on the messages whose
text, up to the first NUL, has something in it but colons and does not start, behind any
colons, with the command word as a token. -/
theorem parsedExactly_iff (body : List UInt8) :
    ParsedExactly (body ++ [10]) ↔
      (∃ target, IsSeekCommand (body ++ [10]) target) ∨ PlainText (ofBytes (body ++ [10])) := by
  constructor
  · intro h
    by_cases hform : ∃ target, IsSeekCommand (body ++ [10]) target
    · exact Or.inl hform
    · obtain ⟨t, hturn, hworld⟩ := h.data (not_exists.mp hform) 3
      obtain ⟨t', hturn', hcase⟩ := recieveTurn_message 3 (body ++ [10])
      rw [hturn, Option.some.injEq] at hturn'
      subst hturn'
      refine Or.inr (parseCommand_eq_data_iff.mp ?_)
      cases hparse : parseCommand (ofBytes (body ++ [10])) with
      | none =>
          rw [hparse, hworld] at hcase
          simp at hcase
      | some command =>
          cases command with
          | none => rfl
          | some target =>
              rw [hparse, hworld] at hcase
              simp at hcase
  · intro h
    refine ⟨fun target hform fd => ?_, fun hform fd => ?_⟩
    · obtain ⟨t, hturn, hcase⟩ := recieveTurn_message fd (body ++ [10])
      rw [hform.parse] at hcase
      exact ⟨t, hturn, hcase⟩
    · obtain ⟨t, hturn, hcase⟩ := recieveTurn_message fd (body ++ [10])
      have hplain := h.resolve_left (not_exists.mpr hform)
      rw [parseCommand_of_plain hplain] at hcase
      exact ⟨t, hturn, hcase⟩

def colonCommand : List UInt8 := 58 :: seekWord ++ [58, 49, 44, 50, 10]

/-- The message is carried out as a command and its bytes are lost. -/
theorem not_parsedExactly_colonCommand : ¬ ParsedExactly colonCommand := by
  intro h
  have hform : ∀ target, ¬ IsSeekCommand colonCommand target := by
    rintro target ⟨X, Y, heq, -, -⟩
    have hhead : some (58 : UInt8) = some 65 := congrArg List.head? heq
    exact absurd hhead (by decide)
  obtain ⟨t, hturn, hworld⟩ := h.data hform 3
  have hrun : (recieveTurn trafficSyscalls 3 ⟨[colonCommand], [], []⟩).map
      (fun t => (t.world.written, t.world.ioctls)) = some ([], [⟨1, 2⟩]) := by decide +kernel
  rw [hturn, Option.map_some, hworld] at hrun
  exact absurd hrun (by decide)

end Aesd

import Aesd.CharDevice
import Aesd.Lib.CString

/-! `aesdsocket.c`: how a connection is received and answered. The system calls are functions on
a state that the server knows nothing else about, so that the same code runs over the
driver, over a plain file or over a record of what it did. `printf` and `syslog` are
left out. -/
namespace Aesd
open CString

def bufSize : Nat := 1024 * 30

/-- The system calls, with their results. `none` is a call that does not return. A file is
opened for appending by the receiving side and for reading by the answering one. -/
structure Syscalls (σ : Type) where
  openAppend : σ → Int × σ
  openRead : σ → Int × σ
  close : (fd : Int) → σ → σ
  /-- `nread` and the buffer -/
  read : (fd : Int) → (buf : List UInt8) → (count : Nat) → σ → Option (Int × List UInt8 × σ)
  write : (fd : Int) → (buf : List UInt8) → σ → Option (Int × σ)
  ioctlSeekto : (fd : Int) → AesdSeekto → σ → Int × σ
  /-- `nrecv` and the bytes received -/
  recv : (count : Nat) → σ → Option (Int × List UInt8 × σ)
  send : (bytes : List UInt8) → σ → Option (Int × σ)

/-- How a function of the server ends. `crashed` stands for `NULL` passed to a string
function. -/
inductive Outcome
  | returned (ret : Int)
  | crashed
  deriving DecidableEq

def seekWord : List UInt8 :=
  [65, 69, 83, 68, 67, 72, 65, 82, 95, 73, 79, 67, 83, 69, 69, 75, 84, 79]

def toUint32 (n : Int) : Nat := (n % 2 ^ 32).toNat

/-- What `strtok` and `strcmp` make of the text received: `none` if `NULL` reaches `strcmp` or
`atoi`, `some none` for data, and the arguments of a seek command. -/
def parseCommand (text : List UInt8) : Option (Option AesdSeekto) :=
  match strtok 58 text with
  | none => none
  | some (word, rest) =>
      if word = seekWord then
        match strtok 44 rest with
        | none => none
        | some (entry, rest) =>
            match strtok 44 rest with
            | none => none
            | some (offset, _) => some (some ⟨toUint32 (atoi entry), toUint32 (atoi offset)⟩)
      else some none

/-- The first token is the seek word, and `fields` is what comes behind its colon. -/
def NamesCommand (text fields : List UInt8) : Prop :=
  ∃ n, text = List.replicate n 58 ++ seekWord ∧ fields = [] ∨
    text = List.replicate n 58 ++ (seekWord ++ 58 :: fields)

def HasFields (fields : List UInt8) : Prop :=
  ∃ front back, fields = front ++ 44 :: back ∧ (∃ b ∈ front, b ≠ 44) ∧ ∃ b ∈ back, b ≠ 44

def PlainText (text : List UInt8) : Prop :=
  (∃ b ∈ text, b ≠ 58) ∧ ∀ fields, ¬ NamesCommand text fields

def Understandable (text : List UInt8) : Prop :=
  (∃ b ∈ text, b ≠ 58) ∧ ∀ fields, NamesCommand text fields → HasFields fields

section Parse
variable {text fields : List UInt8}

theorem strtok_eq_none_iff_colons : strtok 58 text = none ↔ ¬ ∃ b ∈ text, b ≠ 58 := by
  rw [strtok_eq_none_iff]
  push Not
  rfl

theorem strtok_eq_seekWord_iff :
    strtok 58 text = some (seekWord, fields) ↔ NamesCommand text fields := by
  constructor
  · intro h
    exact (exists_of_strtok h).2.2
  · rintro ⟨n, ⟨rfl, rfl⟩ | rfl⟩
    · rw [strtok_replicate_append, strtok_of_notMem (by decide) (by decide)]
    · rw [strtok_replicate_append, strtok_append (by decide) (by decide)]

theorem subset_tail_dropWhile (front back : List UInt8) :
    back ⊆ ((front ++ 44 :: back).dropWhile (· ≠ 44)).tail := by
  induction front with
  | nil => simp
  | cons c front ih =>
      by_cases hc : c = 44
      · subst hc
        intro b hb
        simp [hb]
      · simpa [hc] using ih

theorem strtok_eq_none_or_iff :
    (∃ entry rest, strtok 44 fields = some (entry, rest) ∧ strtok 44 rest ≠ none) ↔
      HasFields fields := by
  constructor
  · rintro ⟨entry, rest, hentry, hrest⟩
    obtain ⟨hne, hcomma, n, ⟨-, rfl⟩ | hfields⟩ := exists_of_strtok hentry
    · exact absurd rfl hrest
    · rw [Ne, strtok_eq_none_iff] at hrest
      push Not at hrest
      obtain ⟨b, hb⟩ := List.exists_mem_of_ne_nil _ hne
      refine ⟨List.replicate n 44 ++ entry, rest, by rw [hfields, List.append_assoc],
        ⟨b, List.mem_append_right _ hb, fun heq => hcomma (heq ▸ hb)⟩, hrest⟩
  · rintro ⟨front, back, rfl, ⟨b, hb, hne⟩, c, hc, hne'⟩
    have hstart : ∃ n x front', front = List.replicate n 44 ++ x :: front' ∧ x ≠ 44 := by
      clear hc hne' c back
      induction front with
      | nil => cases hb
      | cons x front ih =>
          by_cases hx : x = 44
          · subst hx
            have hmem : b ∈ front := (List.mem_cons.mp hb).resolve_left hne
            obtain ⟨n, y, front', rfl, hy⟩ := ih hmem
            exact ⟨n + 1, y, front', rfl, hy⟩
          · exact ⟨0, x, front, rfl, hx⟩
    obtain ⟨n, x, front', rfl, hx⟩ := hstart
    rw [List.append_assoc, strtok_replicate_append, List.cons_append, strtok_cons_of_ne hx]
    refine ⟨_, _, rfl, fun hnone => hne' ?_⟩
    exact strtok_eq_none_iff.mp hnone c (subset_tail_dropWhile front' back hc)

theorem NamesCommand.fields_unique {fields' : List UInt8} (h : NamesCommand text fields)
    (h' : NamesCommand text fields') : fields' = fields := by
  rw [← strtok_eq_seekWord_iff] at h h'
  rw [h, Option.some.injEq, Prod.mk.injEq] at h'
  exact h'.2.symm

theorem parseCommand_of_plain (h : PlainText text) : parseCommand text = some none := by
  rw [parseCommand]
  cases htoken : strtok 58 text with
  | none => exact absurd h.1 (strtok_eq_none_iff_colons.mp htoken)
  | some token =>
      refine if_neg fun hword => h.2 token.2 ?_
      rw [← strtok_eq_seekWord_iff, ← hword]
      exact htoken

theorem parseCommand_of_names (h : NamesCommand text fields) :
    (HasFields fields ∧ ∃ seekto, parseCommand text = some (some seekto)) ∨
      (¬ HasFields fields ∧ parseCommand text = none) := by
  rw [← strtok_eq_none_or_iff, parseCommand, strtok_eq_seekWord_iff.mpr h]
  dsimp only
  rw [if_pos rfl]
  cases hentry : strtok 44 fields with
  | none => exact Or.inr ⟨by simp, rfl⟩
  | some entry =>
      obtain ⟨entry, rest⟩ := entry
      cases hoffset : strtok 44 rest with
      | none => exact Or.inr ⟨by simp [hoffset], by simp [hoffset]⟩
      | some offset => exact Or.inl ⟨⟨entry, rest, rfl, by simp [hoffset]⟩, by simp [hoffset]⟩

theorem parseCommand_eq_none_iff : parseCommand text = none ↔ ¬ Understandable text := by
  by_cases htoken : ∃ b ∈ text, b ≠ 58
  · by_cases hplain : PlainText text
    · rw [parseCommand_of_plain hplain]
      refine iff_of_false (Option.some_ne_none _) (not_not_intro ⟨htoken, fun fields h => ?_⟩)
      exact absurd h (hplain.2 fields)
    · obtain ⟨fields, hnames⟩ : ∃ fields, NamesCommand text fields := by
        by_contra hnone
        exact hplain ⟨htoken, not_exists.mp hnone⟩
      rcases parseCommand_of_names hnames with ⟨hfields, seekto, hparse⟩ | ⟨hfields, hparse⟩
      · rw [hparse]
        refine iff_of_false (Option.some_ne_none _) (not_not_intro ⟨htoken, fun fields' h => ?_⟩)
        rwa [hnames.fields_unique h]
      · exact iff_of_true hparse fun h => hfields (h.2 fields hnames)
  · rw [parseCommand, strtok_eq_none_iff_colons.mpr htoken]
    exact iff_of_true rfl fun h => htoken h.1

theorem parseCommand_eq_data_iff : parseCommand text = some none ↔ PlainText text := by
  refine ⟨fun hparse => ⟨?_, fun fields hnames => ?_⟩, parseCommand_of_plain⟩
  · by_contra htoken
    rw [parseCommand, strtok_eq_none_iff_colons.mpr htoken] at hparse
    cases hparse
  · rcases parseCommand_of_names hnames with ⟨-, seekto, h⟩ | ⟨-, h⟩ <;> rw [h] at hparse <;>
      cases hparse

theorem parseCommand_offset_lt {target : AesdSeekto} (h : parseCommand text = some (some target)) :
    target.writeCmdOffset < 2 ^ 32 := by
  unfold parseCommand at h
  split at h
  · cases h
  · split at h
    · split at h
      · cases h
      · split at h
        · cases h
        · simp only [Option.some.injEq] at h
          subst h
          unfold toUint32
          dsimp only
          omega
    · cases h

end Parse

/-- How one round of the receiving loop ends; `stray` says whether `buf[nrecv] = 0` was outside
`buf`. -/
structure Turn (σ : Type) where
  /-- `none` to go on -/
  outcome : Option Outcome
  stray : Bool
  world : σ

section Server
variable {σ : Type} (sys : Syscalls σ)

/-- One round of the loop of `recieve_socket_data`. -/
def recieveTurn (fd : Int) (s : σ) : Option (Turn σ) := do
  let (nrecv, buf, s) ← sys.recv bufSize s
  let stray : Bool := nrecv < 0 ∨ bufSize < nrecv
  if nrecv < 0 then some ⟨some (.returned (-1)), stray, sys.close fd s⟩
  else
    match parseCommand (ofBytes buf) with
    | none => some ⟨some .crashed, stray, s⟩
    | some (some seekto) =>
        let r := sys.ioctlSeekto fd seekto s
        if r.1 ≠ 0 then some ⟨some (.returned (-1)), stray, sys.close fd r.2⟩
        else some ⟨some (.returned 0), stray, r.2⟩
    | some none => do
        let (nwrit, s) ← sys.write fd buf s
        if nwrit < 0 then some ⟨some (.returned (-1)), stray, sys.close fd s⟩
        else if strchr (ofBytes buf) 10 then some ⟨some (.returned 0), stray, sys.close fd s⟩
        else some ⟨none, stray, s⟩

structure Ended (σ : Type) where
  outcome : Outcome
  stray : Bool
  world : σ

def recieveLoop (fd : Int) : (fuel : Nat) → (stray : Bool) → σ → Option (Ended σ)
  | 0, _, _ => none
  | fuel + 1, stray, s => do
      let t ← recieveTurn sys fd s
      match t.outcome with
      | some outcome => some ⟨outcome, stray || t.stray, t.world⟩
      | none => recieveLoop fd fuel (stray || t.stray) t.world

/-- `recieve_socket_data` -/
def recieveSocketData (fuel : Nat) (s : σ) : Option (Ended σ) :=
  let f := sys.openAppend s
  if f.1 < 0 then some ⟨.returned (-1), false, sys.close f.1 f.2⟩
  else recieveLoop sys f.1 fuel false f.2

/-- `n` bytes of memory from a buffer on. The list may go on behind the buffer; behind the list
zeros stand for bytes that nothing is known of. -/
def bytesFrom (buf : List UInt8) (n : Nat) : List UInt8 :=
  buf.take n ++ List.replicate (n - buf.length) 0

@[simp] theorem length_bytesFrom (buf : List UInt8) (n : Nat) : (bytesFrom buf n).length = n := by
  simp only [bytesFrom, List.length_append, List.length_take, List.length_replicate]
  omega

theorem bytesFrom_of_le {buf : List UInt8} {n : Nat} (h : n ≤ buf.length) :
    bytesFrom buf n = buf.take n := by
  rw [bytesFrom, Nat.sub_eq_zero_of_le h, List.replicate_zero, List.append_nil]

theorem bytesFrom_congr {buf buf' : List UInt8} {n : Nat} (h : buf'.take n = buf.take n) :
    bytesFrom buf' n = bytesFrom buf n := by
  have hlen := congrArg List.length h
  rw [List.length_take, List.length_take] at hlen
  rw [bytesFrom, bytesFrom, h]
  congr 2
  omega

/-- At most `fuel` rounds of the loop of `return_socket_data`. `send` is given as many bytes as
`read` has returned, also where these are more than `BUF_SIZE`. -/
def returnLoop (fd : Int) : (fuel : Nat) → (buf : List UInt8) → σ → Option (Int × σ)
  | 0, _, _ => none
  | fuel + 1, buf, s => do
      let (nread, buf, s) ← sys.read fd buf bufSize s
      if nread < 0 then some (-1, sys.close fd s)
      else do
        let (nsend, s) ← sys.send (bytesFrom buf nread.toNat) s
        if nsend < 0 then some (-1, sys.close fd s)
        else if nsend = bufSize then returnLoop fd fuel buf s
        else some (0, sys.close fd s)

/-- `return_socket_data`; `buf` is what its uninitialised buffer contains. -/
def returnSocketData (fuel : Nat) (buf : List UInt8) (s : σ) : Option (Int × σ) :=
  let f := sys.openRead s
  if f.1 < 0 then some (-1, f.2) else returnLoop sys f.1 fuel buf f.2

theorem returnLoop_add (fd : Int) (fuel extra : Nat) (buf : List UInt8) (s : σ) {r : Int × σ}
    (h : returnLoop sys fd fuel buf s = some r) :
    returnLoop sys fd (fuel + extra) buf s = some r := by
  induction fuel generalizing buf s with
  | zero => cases h
  | succ fuel ih =>
      rw [Nat.add_right_comm, returnLoop]
      rw [returnLoop] at h
      obtain ⟨read, hread, h⟩ := Option.bind_eq_some_iff.mp h
      rw [hread]
      dsimp only [Option.bind_eq_bind, Option.bind_some] at h ⊢
      split at h
      · rename_i hneg
        rw [if_pos hneg]
        exact h
      · rename_i hneg
        rw [if_neg hneg]
        obtain ⟨sent, hsend, h⟩ := Option.bind_eq_some_iff.mp h
        rw [hsend]
        dsimp only [Option.bind_some]
        split at h
        · rename_i hfail
          rw [if_pos hfail]
          exact h
        · rename_i hfail
          rw [if_neg hfail]
          split at h
          · rename_i hfull
            rw [if_pos hfull]
            exact ih _ _ h
          · rename_i hfull
            rw [if_neg hfull]
            exact h

theorem recieveLoop_add (fd : Int) (fuel extra : Nat) (stray : Bool) (s : σ) {e : Ended σ}
    (h : recieveLoop sys fd fuel stray s = some e) :
    recieveLoop sys fd (fuel + extra) stray s = some e := by
  induction fuel generalizing stray s with
  | zero => cases h
  | succ fuel ih =>
      rw [Nat.add_right_comm, recieveLoop]
      rw [recieveLoop] at h
      obtain ⟨turn, hturn, h⟩ := Option.bind_eq_some_iff.mp h
      rw [hturn]
      dsimp only [Option.bind_eq_bind, Option.bind_some] at h ⊢
      split at h
      · exact h
      · exact ih _ _ h

theorem recieveSocketData_add (fuel extra : Nat) (s : σ) {e : Ended σ}
    (h : recieveSocketData sys fuel s = some e) :
    recieveSocketData sys (fuel + extra) s = some e := by
  simp only [recieveSocketData] at h ⊢
  split at h
  · rename_i hfail
    rw [if_pos hfail]
    exact h
  · rename_i hopen
    rw [if_neg hopen]
    exact recieveLoop_add _ _ _ _ _ _ h

theorem returnSocketData_add (fuel extra : Nat) (buf : List UInt8) (s : σ) {r : Int × σ}
    (h : returnSocketData sys fuel buf s = some r) :
    returnSocketData sys (fuel + extra) buf s = some r := by
  simp only [returnSocketData] at h ⊢
  split at h
  · rename_i hfail
    rw [if_pos hfail]
    exact h
  · rename_i hopen
    rw [if_neg hopen]
    exact returnLoop_add _ _ _ _ _ _ h

end Server
end Aesd

import Aesd.SocketServer
import Mathlib.Data.List.Infix

/-! Segmentation of a message. `recieve_socket_data` looks for the seek command in every chunk
that `recv` returns, and writes or executes what it has before the rest has come. -/
namespace Aesd
open CString

structure Traffic where
  incoming : List (List UInt8)
  written : List UInt8
  ioctls : List AesdSeekto

/-- Every call succeeds; `recv` waits when nothing has come. -/
def trafficSyscalls : Syscalls Traffic where
  openAppend t := (3, t)
  openRead t := (3, t)
  close _ t := t
  read _ buf _ t := some (0, buf, t)
  write _ buf t := some (buf.length, { t with written := t.written ++ buf })
  ioctlSeekto _ seekto t := (0, { t with ioctls := t.ioctls ++ [seekto] })
  recv _ t := match t.incoming with
    | [] => none
    | chunk :: chunks => some (chunk.length, chunk, { t with incoming := chunks })
  send bytes t := some (bytes.length, t)

def IsMessage (m : List UInt8) : Prop := ∃ body, m = body ++ [10] ∧ 10 ∉ body

/-- What successive `recv` calls can return of a message. -/
structure Splits (chunks : List (List UInt8)) (m : List UInt8) : Prop where
  flatten : chunks.flatten = m
  sizes : ∀ c ∈ chunks, c ≠ [] ∧ c.length ≤ bufSize

/-- However the message is split, and whatever comes behind it, the server takes the message's
chunks and no more, with one and the same effect: it writes the message, or issues one
seek command. -/
def SplitIndependent (m : List UInt8) : Prop :=
  ∃ written ioctls, (written = m ∧ ioctls = [] ∨ written = [] ∧ ∃ seekto, ioctls = [seekto]) ∧
    ∀ chunks, Splits chunks m → ∀ later, ∃ fuel e,
      recieveSocketData trafficSyscalls fuel ⟨chunks ++ later, [], []⟩ = some e ∧
        e.outcome = .returned 0 ∧ e.world = ⟨later, written, ioctls⟩

structure IsData (c : List UInt8) : Prop where
  ne_nil : c ≠ []
  no_nul : 0 ∉ c
  no_colon : 58 ∉ c
  ne_word : c ≠ seekWord

theorem IsData.parse {c : List UInt8} (d : IsData c) : parseCommand (ofBytes c) = some none := by
  rw [ofBytes_of_notMem d.no_nul, parseCommand, strtok_of_notMem d.no_colon d.ne_nil]
  exact if_neg d.ne_word

theorem isData_singleton {b : UInt8} (hnul : b ≠ 0) (hcolon : b ≠ 58) : IsData [b] where
  ne_nil := List.cons_ne_nil _ _
  no_nul := by simpa using hnul.symm
  no_colon := by simpa using hcolon.symm
  ne_word h := by
    have hlen : [b].length = seekWord.length := congrArg List.length h
    exact absurd (show 1 = 18 from hlen) (by decide)

section Loop
variable {c : List UInt8} (fd : Int) (fuel : Nat) (stray : Bool) (chunks : List (List UInt8))
  (acc : List UInt8) (ioctls : List AesdSeekto)

theorem recieveTurn_data (d : IsData c) :
    ∃ t, recieveTurn trafficSyscalls fd ⟨c :: chunks, acc, ioctls⟩ = some t ∧
      t.outcome = (if 10 ∈ c then some (.returned 0) else none) ∧
      t.world = ⟨chunks, acc ++ c, ioctls⟩ := by
  have hpos : ¬ (c.length : Int) < 0 := by omega
  have hparse := d.parse
  rw [ofBytes_of_notMem d.no_nul] at hparse
  rw [recieveTurn]
  simp only [trafficSyscalls, Option.bind_eq_bind, Option.bind_some, hpos, if_false,
    ofBytes_of_notMem d.no_nul, hparse, strchr, List.contains_iff_mem]
  split
  · exact ⟨_, rfl, rfl, rfl⟩
  · exact ⟨_, rfl, rfl, rfl⟩

theorem recieveLoop_data (d : IsData c) (hnl : 10 ∉ c) :
    ∃ stray', recieveLoop trafficSyscalls fd (fuel + 1) stray ⟨c :: chunks, acc, ioctls⟩ =
      recieveLoop trafficSyscalls fd fuel stray' ⟨chunks, acc ++ c, ioctls⟩ := by
  obtain ⟨⟨outcome, s, world⟩, hturn, hout, hworld⟩ := recieveTurn_data fd chunks acc
    ioctls d
  dsimp only at hout hworld
  rw [if_neg hnl] at hout
  subst hout hworld
  refine ⟨stray || s, ?_⟩
  rw [recieveLoop, hturn]
  rfl

theorem recieveLoop_last (d : IsData c) (hnl : 10 ∈ c) :
    ∃ e, recieveLoop trafficSyscalls fd (fuel + 1) stray ⟨c :: chunks, acc, ioctls⟩ = some e ∧
      e.outcome = .returned 0 ∧ e.world = ⟨chunks, acc ++ c, ioctls⟩ := by
  obtain ⟨⟨outcome, s, world⟩, hturn, hout, hworld⟩ := recieveTurn_data fd chunks acc
    ioctls d
  dsimp only at hout hworld
  rw [if_pos hnl] at hout
  subst hout hworld
  refine ⟨⟨.returned 0, stray || s, ⟨chunks, acc ++ c, ioctls⟩⟩, ?_, rfl, rfl⟩
  rw [recieveLoop, hturn]
  rfl

theorem recieveLoop_message (later : List (List UInt8)) (hdata : ∀ c ∈ chunks, IsData c)
    {body : List UInt8} (hflat : chunks.flatten = body ++ [10]) (hbody : 10 ∉ body) :
    ∃ e, recieveLoop trafficSyscalls fd chunks.length stray ⟨chunks ++ later, acc, ioctls⟩ = some e ∧
      e.outcome = .returned 0 ∧ e.world = ⟨later, acc ++ (body ++ [10]), ioctls⟩ := by
  induction chunks generalizing body acc stray with
  | nil => simp at hflat
  | cons c chunks ih =>
      have d := hdata c (by simp)
      rw [List.flatten_cons] at hflat
      rw [List.length_cons, List.cons_append]
      by_cases hrest : chunks.flatten = []
      · have hnil : chunks = [] := by
          cases chunks with
          | nil => rfl
          | cons c' chunks =>
              have hne := (hdata c' (by simp)).ne_nil
              simp [hne] at hrest
        subst hnil
        rw [hrest, List.append_nil] at hflat
        subst hflat
        exact recieveLoop_last fd _ stray later acc ioctls d (by simp)
      · obtain ⟨rest, hc, hrest'⟩ : ∃ rest, body = c ++ rest ∧ chunks.flatten = rest ++ [10] := by
          rcases List.append_eq_append_iff.mp hflat with h | ⟨extra, hc, hextra⟩
          · exact h
          · have hnil : extra = [] := by
              have hlen := congrArg List.length hextra
              have hpos := List.length_pos_iff.mpr hrest
              rw [List.length_singleton, List.length_append] at hlen
              exact List.length_eq_zero_iff.mp (by omega)
            rw [hnil, List.append_nil] at hc
            rw [hnil, List.nil_append] at hextra
            exact ⟨[], by rw [hc, List.append_nil], by rw [← hextra, List.nil_append]⟩
        rw [hc, List.mem_append, not_or] at hbody
        obtain ⟨stray', hstep⟩ := recieveLoop_data fd chunks.length stray (chunks ++ later) acc
          ioctls d hbody.1
        obtain ⟨e, hloop, hout, hworld⟩ := ih stray' (acc ++ c)
          (fun c' hc' => hdata c' (by simp [hc'])) hrest' hbody.2
        refine ⟨e, hstep.trans hloop, hout, ?_⟩
        rw [hworld, hc, List.append_assoc, List.append_assoc]

theorem recieveLoop_crash {bad : List UInt8} (hbad : parseCommand (ofBytes bad) = none)
    (hdata : ∀ c ∈ chunks, IsData c ∧ 10 ∉ c) (later : List (List UInt8)) {e : Ended Traffic}
    (hloop : recieveLoop trafficSyscalls fd fuel stray ⟨chunks ++ bad :: later, acc, ioctls⟩ =
      some e) : e.outcome = .crashed := by
  induction chunks generalizing fuel acc stray with
  | nil =>
      cases fuel with
      | zero => cases hloop
      | succ fuel =>
          have hpos : ¬ (bad.length : Int) < 0 := by omega
          simp only [recieveLoop, recieveTurn, trafficSyscalls, List.nil_append, Option.bind_eq_bind,
            Option.bind_some, hpos, if_false, hbad, Option.some.injEq] at hloop
          rw [← hloop]
  | cons c chunks ih =>
      cases fuel with
      | zero => cases hloop
      | succ fuel =>
          obtain ⟨d, hnl⟩ := hdata c (by simp)
          obtain ⟨stray', hstep⟩ := recieveLoop_data fd fuel stray (chunks ++ bad :: later) acc
            ioctls d hnl
          rw [List.cons_append, hstep] at hloop
          exact ih fuel _ _ (fun c' hc' => hdata c' (by simp [hc'])) hloop

end Loop

theorem splits_data {m : List UInt8} (hnul : 0 ∉ m) (hcolon : 58 ∉ m) (hword : ¬ seekWord <:+: m)
    {chunks : List (List UInt8)} (hs : Splits chunks m) : ∀ c ∈ chunks, IsData c := by
  intro c hc
  have hsub : c <:+: m := by
    rw [← hs.flatten]
    exact List.infix_of_mem_flatten hc
  exact ⟨(hs.sizes c hc).1, fun h => hnul (hsub.subset h), fun h => hcolon (hsub.subset h),
    fun h => hword (h ▸ hsub)⟩

theorem flatten_singletons (l : List UInt8) : (l.map fun b => [b]).flatten = l := by
  rw [← List.flatMap_def, List.flatMap_singleton']

theorem not_splitIndependent {m : List UInt8} (hm : IsMessage m)
    (before bad behind : List UInt8) (heq : m = before ++ (bad ++ behind))
    (hbad : parseCommand (ofBytes bad) = none)
    (hne : bad ≠ []) (hsize : bad.length ≤ bufSize) (hnul : 0 ∉ before) (hcolon : 58 ∉ before) :
    ¬ SplitIndependent m := by
  obtain ⟨body, hbody, hnl⟩ := hm
  have hbefore : 10 ∉ before := by
    have hstart : before <+: body := by
      refine List.prefix_of_prefix_length_le ⟨_, heq.symm⟩ ⟨_, hbody.symm⟩ ?_
      have hlen := congrArg List.length (heq.symm.trans hbody)
      have hpos := List.length_pos_iff.mpr hne
      simp only [List.length_append, List.length_singleton] at hlen
      omega
    exact fun h => hnl (hstart.subset h)
  rintro ⟨written, ioctls, -, hall⟩
  have hsplit : Splits (before.map (fun b => [b]) ++ bad :: behind.map fun b => [b]) m := by
    refine ⟨?_, fun c hc => ?_⟩
    · rw [List.flatten_append, List.flatten_cons, flatten_singletons, flatten_singletons, heq]
    · rcases List.mem_append.mp hc with hc | hc
      · obtain ⟨b, -, rfl⟩ := List.mem_map.mp hc
        exact ⟨List.cons_ne_nil _ _, by unfold bufSize; simp⟩
      · rcases List.mem_cons.mp hc with rfl | hc
        · exact ⟨hne, hsize⟩
        · obtain ⟨b, -, rfl⟩ := List.mem_map.mp hc
          exact ⟨List.cons_ne_nil _ _, by unfold bufSize; simp⟩
  obtain ⟨fuel, e, hrun, hout, -⟩ := hall _ hsplit []
  have hloop : recieveLoop trafficSyscalls 3 fuel false
      ⟨before.map (fun b => [b]) ++ bad :: (behind.map fun b => [b]), [], []⟩ = some e := by
    rw [List.append_nil] at hrun
    exact hrun
  have hcrash := recieveLoop_crash 3 fuel false _ [] [] hbad (fun c hc => by
    obtain ⟨b, hb, rfl⟩ := List.mem_map.mp hc
    exact ⟨isData_singleton (fun h => hnul (h ▸ hb)) (fun h => hcolon (h ▸ hb)),
      fun h => hbefore (List.mem_singleton.mp h ▸ hb)⟩) _ hloop
  rw [hout] at hcrash
  cases hcrash

/-- Segmentation matters. The effect of a message is the same for every way of splitting it
exactly when it contains no NUL, no colon and not the command word. -/
theorem splitIndependent_iff (m : List UInt8) (hm : IsMessage m) :
    SplitIndependent m ↔ 0 ∉ m ∧ 58 ∉ m ∧ ¬ seekWord <:+: m := by
  constructor
  · intro h
    have hbytes : ∀ b ∈ m, b ≠ 0 ∧ b ≠ 58 := by
      by_contra hex
      have hhead : m.dropWhile (fun b => b ≠ 0 ∧ b ≠ 58) ≠ [] := by
        rw [ne_eq, List.dropWhile_eq_nil_iff]
        simpa using hex
      obtain ⟨bad, behind, hdrop⟩ := List.exists_cons_of_ne_nil hhead
      have hbad : ¬ (bad ≠ 0 ∧ bad ≠ 58) := by
        have hnot := List.head_dropWhile_not (fun b : UInt8 => decide (b ≠ 0 ∧ b ≠ 58)) hhead
        simp only [hdrop, List.head_cons, decide_eq_false_iff_not] at hnot
        exact hnot
      have hsplit : m = m.takeWhile (fun b => b ≠ 0 ∧ b ≠ 58) ++ ([bad] ++ behind) := by
        rw [List.singleton_append, ← hdrop, List.takeWhile_append_dropWhile]
      have hparse : parseCommand (ofBytes [bad]) = none := by
        by_cases hnul : bad = 0
        · subst hnul
          rfl
        · have hcolon : bad = 58 := by
            by_contra hne
            exact hbad ⟨hnul, hne⟩
          subst hcolon
          rfl
      refine not_splitIndependent hm _ _ _ hsplit hparse (List.cons_ne_nil _ _)
        (by unfold bufSize; simp)
        (fun hmem => ?_) (fun hmem => ?_) h
      · simpa using List.mem_takeWhile_imp hmem
      · simpa using List.mem_takeWhile_imp hmem
    have hnul : 0 ∉ m := fun hmem => (hbytes 0 hmem).1 rfl
    have hcolon : 58 ∉ m := fun hmem => (hbytes 58 hmem).2 rfl
    refine ⟨hnul, hcolon, fun ⟨before, behind, hword⟩ => ?_⟩
    have hsub : ∀ b ∈ before, b ∈ m := fun b hb => by
      rw [← hword]
      simp [hb]
    refine not_splitIndependent hm before seekWord behind ?_ (by decide) (by decide) (by decide)
      (fun hb => hnul (hsub 0 hb))
      (fun hb => hcolon (hsub 58 hb)) h
    rw [← hword, List.append_assoc]
  · rintro ⟨hnul, hcolon, hword⟩
    obtain ⟨body, rfl, hbody⟩ := hm
    refine ⟨body ++ [10], [], Or.inl ⟨rfl, rfl⟩, fun chunks hs later => ?_⟩
    obtain ⟨e, hloop, hout, hworld⟩ := recieveLoop_message 3 false chunks [] [] later
      (splits_data hnul hcolon hword hs) hs.flatten hbody
    exact ⟨chunks.length, e, hloop, hout, hworld⟩

theorem splitIndependent_hi : SplitIndependent [104, 105, 10] :=
  (splitIndependent_iff [104, 105, 10] ⟨[104, 105], rfl, by decide⟩).mpr
    ⟨by decide, by decide, by decide⟩

/-- `"a:b\n"` crashes the server when the colon comes alone. -/
theorem not_splitIndependent_colon :
    IsMessage [97, 58, 98, 10] ∧ ¬ SplitIndependent [97, 58, 98, 10] := by
  have hm : IsMessage [97, 58, 98, 10] := ⟨[97, 58, 98], rfl, by decide⟩
  exact ⟨hm, not_splitIndependent hm [97] [58] [98, 10] rfl rfl
    (by decide) (by decide) (by decide) (by decide)⟩

end Aesd

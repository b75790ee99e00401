import Aesd.DeviceSimulation
import Aesd.LineFraming
import Aesd.Lib.Replay
import Aesd.SeekCommand
import Aesd.ServerReply

/-! Clients that the server serves one after the other over the driver. The position of a seek
command stays in the device until a read gets past the end-of-data test; the answer on the
same connection is the first to try. -/
namespace Aesd
open CString FixedWidth Memory Replay

/-- A connection: the chunk that the client sends, the outcomes of the kernel calls it leads to, and
what the uninitialised buffer of `return_socket_data` contains. -/
structure Client where
  request : List UInt8
  env : DeviceEnv
  buf : List UInt8

namespace Client

def sendsLine (c : Client) : Bool := parseCommand (ofBytes c.request) = some none

/-- `accept_connection_thread` between the lock and the unlock, with what has been sent. `none` also
stands for a server that has crashed or called `exit`. -/
def serve (fuel : Nat) (k : Kernel) (c : Client) : Option (Kernel × List UInt8) := do
  let e ← recieveSocketData (deviceSyscalls c.env) fuel ⟨k, 0, 0, [c.request], []⟩
  match e.outcome with
  | .crashed => none
  | .returned res =>
      if res = -1 then none
      else do
        let r ← returnSocketData (deviceSyscalls c.env) fuel c.buf e.world
        if r.1 = -1 then none else some (r.2.kernel, r.2.sent)

structure Line (c : Client) : Prop where
  plain : PlainText (ofBytes c.request)
  seen : 10 ∈ ofBytes c.request
  ends : ∃ text, c.request = text ++ [newline]

structure Seek (c : Client) (target : AesdSeekto) : Prop where
  parsed : parseCommand (ofBytes c.request) = some (some target)
  cmd_lt : target.writeCmd < maxWriteOperationsSupported

structure Valid (c : Client) : Prop where
  length_le : c.request.length ≤ bufSize
  reads : ∀ i, (c.env.read i).Succeeds
  writes : ∀ i, (c.env.write i).Succeeds
  sends : c.Line ∨ ∃ target, c.Seek target

def received (fuel : Nat) (k : Kernel) (c : Client) : Option Kernel :=
  (recieveSocketData (deviceSyscalls c.env) fuel ⟨k, 0, 0, [c.request], []⟩).map fun e =>
    e.world.kernel

/-- The same client in another run. What the fresh blocks of its kernel calls and the uninitialised
buffer contain may differ. -/
structure Resends (c d : Client) : Prop where
  request : d.request = c.request
  reads : ∀ i, (d.env.read i).Succeeds
  writes : ∀ i, (d.env.write i).Succeeds

end Client

/-- The reads of an answer are `BUF_SIZE` bytes apart from the pending seek, or from the first byte,
on. None of them that starts in the data copies from outside the entries. -/
def AnswerInside (k : Kernel) : Prop :=
  0 < k.dev.buffer.totalSize → ∀ j : Nat,
    readPosition k.dev 0 + bufSize * j < k.dev.buffer.totalSize → ∀ i off,
      k.dev.buffer.Starts (readPosition k.dev 0 + bufSize * j) i off →
        ReadFits bufSize off ((k.dev.buffer.stretch i).takeWhile (· ≠ 0))

/-- The answers stay inside the entries; and a seek command that the next line comes right behind
is served where there are bytes to read, or leads to the first one. -/
def TakesSeeks : Kernel → List Client → Prop
  | _, [] => True
  | k, c :: cs =>
      (∀ d ∈ cs.head?, d.sendsLine = true → ∀ target, c.Seek target →
        0 < k.dev.buffer.totalSize ∨ seektoTarget k.dev target = 0) ∧
      (∀ fuel k', c.received fuel k = some k' → AnswerInside k') ∧
        ∀ fuel r, c.serve fuel k = some r → TakesSeeks r.1 cs

/-- The clients that send lines get the same replies when the others do not come. -/
def Undisturbed (k : Kernel) (clients : List Client) : Prop :=
  ∀ others, List.Forall₂ Client.Resends (clients.filter Client.sendsLine) others →
    ∃ fuel t t', replay (Client.serve fuel) k clients = some t ∧
      replay (Client.serve fuel) k others = some t' ∧
      t'.2 = ((clients.zip t.2).filter fun r => r.1.sendsLine).map Prod.snd

structure Answered (k₀ : Kernel) (fPos : Int) (k k' : Kernel) : Prop where
  reached : Reached k₀ k'
  lines : k'.contents.lines = k.contents.lines
  dev : k'.dev = { k.dev with seek := k'.dev.seek }
  seek : k'.dev.seek = true → k.dev.seek = true ∧ k.dev.buffer.totalSize ≤ fPos

namespace Answered
variable {k₀ k k' k'' : Kernel} {fPos fPos' : Int}

theorem of_read (reached : Reached k₀ k) (p : Placed k) {env : ReadEnv} (ha : env.Allocates)
    {ubuf : List UInt8} {count : Nat} (hcount : count < kmallocBound) (h0 : -2 ^ 63 ≤ fPos)
    {res : ReadResult} (hcall : aesdRead env k ubuf count fPos = some res) :
    Answered k₀ fPos k res.kernel := by
  obtain ⟨_, hsame, hcontents, -, hdev, -⟩ := p.read ha hcount h0 ubuf
  rw [hcall, Option.some.injEq] at hsame
  subst hsame
  refine ⟨reached.read hcall, by rw [hcontents]; rfl, by rw [hdev], fun hset => ?_⟩
  rw [(aesdRead_dev p.unlocked hcall).2, Bool.and_eq_true, decide_eq_true_eq] at hset
  exact hset

theorem trans (a : Answered k₀ fPos k k') (b : Answered k₀ fPos' k' k'') : Answered k₀ fPos k k'' := by
  refine ⟨b.reached, b.lines.trans a.lines, ?_, fun hset => a.seek (b.seek hset).1⟩
  rw [b.dev, a.dev]

theorem readPosition_eq (a : Answered k₀ fPos k k') (hin : fPos < k.dev.buffer.totalSize)
    (p : Int) : readPosition k'.dev p = p := by
  refine if_neg fun hset => ?_
  have hend := (a.seek hset).2
  omega

end Answered

structure Abreast (k₀ : Kernel) (w w' : DeviceWorld) : Prop where
  lines : w'.kernel.contents.lines = w.kernel.contents.lines
  reached : Reached k₀ w.kernel
  reached' : Reached k₀ w'.kernel
  sent : w'.sent = w.sent
  fPos : w'.fPos = w.fPos
  fPos_ge : -2 ^ 63 ≤ w.fPos
  position : readPosition w'.kernel.dev w.fPos = readPosition w.kernel.dev w.fPos
  position_ge : -2 ^ 63 ≤ readPosition w.kernel.dev w.fPos
  inside : w.fPos < w.kernel.dev.buffer.totalSize → ∀ j : Nat,
    readPosition w.kernel.dev w.fPos + bufSize * j < w.kernel.dev.buffer.totalSize → ∀ i off,
      w.kernel.dev.buffer.Starts (readPosition w.kernel.dev w.fPos + bufSize * j) i off →
        ReadFits bufSize off ((w.kernel.dev.buffer.stretch i).takeWhile (· ≠ 0))

namespace Abreast
variable {slots : Vector BufferEntry 10} {unset : Unset} {w w' : DeviceWorld} {env env' : DeviceEnv}

theorem read (a : Abreast (initModule slots unset) w w') (henv : ∀ i, (env.read i).Succeeds)
    (henv' : ∀ i, (env'.read i).Succeeds) (buf buf' : List UInt8) :
    ∃ res res', aesdRead (env.read w.calls) w.kernel buf bufSize w.fPos = some res ∧
      aesdRead (env'.read w'.calls) w'.kernel buf' bufSize w'.fPos = some res' ∧
      ReadAlike bufSize res res' := by
  have hsize : ∀ i, (w'.kernel.dev.buffer.slot i).size = (w.kernel.dev.buffer.slot i).size := by
    intro i
    rw [← length_line_contents, a.lines, length_line_contents]
  have hout : w'.kernel.dev.buffer.outOffs = w.kernel.dev.buffer.outOffs :=
    congrArg Lines.outOffs a.lines
  rw [a.fPos]
  refine aesdRead_alike (.of_eq a.lines) a.reached.placed a.reached'.placed (henv _) (henv' _)
    (by decide) a.fPos_ge a.position (fun _ _ i off starts => ?_) (fun hlt hin _ p i off hp starts => ?_)
    buf buf'
  · exact (CircularBuffer.starts_congr hout hsize _ i off).mpr starts
  · have hpos : p = readPosition w.kernel.dev w.fPos + bufSize * (0 : Nat) := by
      rw [hp, Nat.cast_zero, mul_zero, add_zero]
      rfl
    rw [hpos] at starts
    exact a.inside hlt 0 (by rw [Nat.cast_zero, mul_zero, add_zero]; exact hin) i off starts

theorem round (a : Abreast (initModule slots unset) w w') (henv : ∀ i, (env.read i).Succeeds)
    (henv' : ∀ i, (env'.read i).Succeeds) (fd : Int) (buf buf' : List UInt8) :
    ∃ u u', u'.sent = u.sent ∧ Answered (initModule slots unset) w.fPos w.kernel u.kernel ∧
      Answered (initModule slots unset) w.fPos w'.kernel u'.kernel ∧
      ((∀ fuel, returnLoop (deviceSyscalls env) fd (fuel + 1) buf w = some (0, u) ∧
          returnLoop (deviceSyscalls env') fd (fuel + 1) buf' w' = some (0, u')) ∨
        Abreast (initModule slots unset) u u' ∧
          readPosition w.kernel.dev w.fPos < w.kernel.dev.buffer.totalSize ∧
          readPosition w.kernel.dev w.fPos < readPosition u.kernel.dev u.fPos ∧
          ∃ buf₁ buf₁', ∀ fuel, returnLoop (deviceSyscalls env) fd (fuel + 1) buf w =
              returnLoop (deviceSyscalls env) fd fuel buf₁ u ∧
            returnLoop (deviceSyscalls env') fd (fuel + 1) buf' w' =
              returnLoop (deviceSyscalls env') fd fuel buf₁' u') := by
  obtain ⟨r, hm⟩ := a.reached.mirrors
  obtain ⟨total, htotal, -, hle⟩ := hm.totalSize_le a.reached.settled
  have hsame : w'.kernel.dev.buffer.totalSize = w.kernel.dev.buffer.totalSize :=
    congrArg Lines.totalSize a.lines
  obtain ⟨res, res', hcall, hcall', alike⟩ := a.read henv henv' buf buf'
  have hstop := a.reached.placed.read_fPos (henv _).toAllocates (by decide) a.fPos_ge (by omega) hcall
  obtain ⟨n, hret⟩ := Int.eq_ofNat_of_zero_le (show 0 ≤ res.ret by omega)
  have hleft := Answered.of_read a.reached a.reached.placed (henv _).toAllocates (by decide)
    a.fPos_ge hcall
  have hleft' := Answered.of_read a.reached' a.reached'.placed (henv' _).toAllocates (by decide)
    (by rw [a.fPos]; exact a.fPos_ge) hcall'
  rw [a.fPos] at hleft'
  have hsent : bytesFrom res'.ubuf n = bytesFrom res.ubuf n := by
    refine bytesFrom_congr ?_
    have hdelivered := alike.delivered
    rwa [hret, Int.toNat_natCast] at hdelivered
  have hloop := fun fuel => returnLoop_device fd fuel hcall hret
  have hloop' := fun fuel => returnLoop_device fd fuel hcall' (alike.ret.trans hret)
  refine ⟨w.answered res n, w'.answered res' n, ?_, hleft, hleft', ?_⟩
  · simp only [DeviceWorld.answered, a.sent, hsent]
  by_cases hfull : n = bufSize
  · have hB := bufSize_pos
    have hge := a.position_ge
    obtain ⟨hin, -, hfPos, hpos⟩ := hstop.resolve_left (by omega)
    have hnext := hleft.readPosition_eq hin res.fPos
    have hnext' := hleft'.readPosition_eq (hsame ▸ hin) res.fPos
    have hbuffer : res.kernel.dev.buffer = w.kernel.dev.buffer := by rw [hleft.dev]
    refine Or.inr ⟨⟨?_, hleft.reached, hleft'.reached, ?_, alike.fPos, ?_, ?_, ?_, ?_⟩, by omega, ?_,
      res.ubuf, res'.ubuf, fun fuel => ⟨?_, ?_⟩⟩
    · show res'.kernel.contents.lines = res.kernel.contents.lines
      rw [hleft.lines, hleft'.lines, a.lines]
    · simp only [DeviceWorld.answered, a.sent, hsent]
    · show -2 ^ 63 ≤ res.fPos
      omega
    · show readPosition res'.kernel.dev res.fPos = readPosition res.kernel.dev res.fPos
      rw [hnext, hnext']
    · show -2 ^ 63 ≤ readPosition res.kernel.dev res.fPos
      omega
    · show res.fPos < res.kernel.dev.buffer.totalSize → ∀ j : Nat,
        readPosition res.kernel.dev res.fPos + bufSize * j < res.kernel.dev.buffer.totalSize → _
      intro _ j
      have hlater : readPosition res.kernel.dev res.fPos + bufSize * j =
          readPosition w.kernel.dev w.fPos + bufSize * (j + 1 : Nat) := by
        rw [hnext, hfPos, hret, hfull, Nat.cast_succ, mul_add, mul_one, add_assoc,
          add_comm (bufSize : Int)]
      show _ → ∀ i off, res.kernel.dev.buffer.Starts (readPosition res.kernel.dev res.fPos +
        bufSize * j) i off → ReadFits bufSize off
          ((res.kernel.dev.buffer.stretch i).takeWhile (· ≠ 0))
      rw [hlater, hbuffer]
      exact a.inside hin (j + 1)
    · show readPosition w.kernel.dev w.fPos < readPosition res.kernel.dev res.fPos
      omega
    · rw [hloop, if_pos hfull]
    · rw [hloop', if_pos hfull]
  · exact Or.inl fun fuel => ⟨by rw [hloop, if_neg hfull], by rw [hloop', if_neg hfull]⟩

theorem answer (a : Abreast (initModule slots unset) w w') (henv : ∀ i, (env.read i).Succeeds)
    (henv' : ∀ i, (env'.read i).Succeeds) (fd : Int) (fuel : Nat)
    (hfuel : w.kernel.dev.buffer.totalSize ≤ readPosition w.kernel.dev w.fPos + fuel)
    (buf buf' : List UInt8) :
    ∃ u u', returnLoop (deviceSyscalls env) fd (fuel + 1) buf w = some (0, u) ∧
      returnLoop (deviceSyscalls env') fd (fuel + 1) buf' w' = some (0, u') ∧ u'.sent = u.sent ∧
      Answered (initModule slots unset) w.fPos w.kernel u.kernel ∧
      Answered (initModule slots unset) w.fPos w'.kernel u'.kernel := by
  induction fuel generalizing w w' buf buf' with
  | zero =>
      obtain ⟨u, u', hsent, hleft, hleft', hend | ⟨-, hin, -⟩⟩ := a.round henv henv' fd buf buf'
      · exact ⟨u, u', (hend 0).1, (hend 0).2, hsent, hleft, hleft'⟩
      · omega
  | succ fuel ih =>
      obtain ⟨u, u', hsent, hleft, hleft', hend | ⟨b, hin, hlater, buf₁, buf₁', hloop⟩⟩ :=
        a.round henv henv' fd buf buf'
      · exact ⟨u, u', (hend _).1, (hend _).2, hsent, hleft, hleft'⟩
      · have htotal : u.kernel.dev.buffer.totalSize = w.kernel.dev.buffer.totalSize := by rw [hleft.dev]
        obtain ⟨v, v', hrest, hrest', hsame, hlast, hlast'⟩ := ih b (by omega) buf₁ buf₁'
        refine ⟨v, v', ?_, ?_, hsame, hleft.trans hlast, hleft'.trans hlast'⟩
        · rw [(hloop (fuel + 1)).1, hrest]
        · rw [(hloop (fuel + 1)).2, hrest']

theorem answer_ends (a : Abreast (initModule slots unset) w w') (henv : ∀ i, (env.read i).Succeeds)
    (henv' : ∀ i, (env'.read i).Succeeds) (fd : Int) (buf buf' : List UInt8) :
    ∃ u u', returnLoop (deviceSyscalls env) fd (2 ^ 64 + 1) buf w = some (0, u) ∧
      returnLoop (deviceSyscalls env') fd (2 ^ 64 + 1) buf' w' = some (0, u') ∧ u'.sent = u.sent ∧
      Answered (initModule slots unset) w.fPos w.kernel u.kernel ∧
      Answered (initModule slots unset) w.fPos w'.kernel u'.kernel := by
  obtain ⟨r, hm⟩ := a.reached.mirrors
  obtain ⟨total, htotal, -, hle⟩ := hm.totalSize_le a.reached.settled
  unfold kmallocBound at hle
  have hge := a.position_ge
  refine a.answer henv henv' fd (2 ^ 64) ?_ buf buf'
  rw [htotal]
  push_cast
  omega

end Abreast

namespace Client
variable {c : Client} {k : Kernel}

theorem recieve_line (hlen : c.request.length ≤ bufSize) (h : c.Line) {res : WriteResult}
    (hwrite : aesdWrite (c.env.write 0) k c.request = some res) (hret : 0 ≤ res.ret) (fuel : Nat) :
    recieveSocketData (deviceSyscalls c.env) (fuel + 1) ⟨k, 0, 0, [c.request], []⟩ =
      some ⟨.returned 0, false, ⟨res.kernel, 0, 1, [], []⟩⟩ := by
  have hin : ¬ (bufSize : Int) < c.request.length := by exact_mod_cast Nat.not_lt.mpr hlen
  have hneg : ¬ (c.request.length : Int) < 0 := by omega
  have hok : ¬ res.ret < 0 := by omega
  have hfd : ¬ (3 : Int) < 0 := by omega
  simp only [recieveSocketData, recieveLoop, recieveTurn, deviceSyscalls, hfd, if_false,
    Option.bind_eq_bind, Option.bind_some, parseCommand_of_plain h.plain, hwrite, Option.map_some,
    strchr, List.contains_iff_mem, h.seen, hin, hneg, hok, or_self, decide_false, if_true,
    Bool.false_or, Nat.zero_add]

theorem recieve_seek (hlen : c.request.length ≤ bufSize) {target : AesdSeekto} (h : c.Seek target)
    (k : Kernel) (fuel : Nat) :
    recieveSocketData (deviceSyscalls c.env) (fuel + 1) ⟨k, 0, 0, [c.request], []⟩ =
      some ⟨.returned 0, false, ⟨(adjustFileOffset k target).1, 0, 0, [], []⟩⟩ := by
  have hin : ¬ (bufSize : Int) < c.request.length := by exact_mod_cast Nat.not_lt.mpr hlen
  have hneg : ¬ (c.request.length : Int) < 0 := by omega
  have hret : (adjustFileOffset k target).2 = 0 := rfl
  have hfd : ¬ (3 : Int) < 0 := by omega
  simp only [recieveSocketData, recieveLoop, recieveTurn, deviceSyscalls, hfd, if_false,
    Option.bind_eq_bind, Option.bind_some, h.parsed, aesdIoctl_seekto, hret, ne_eq,
    not_true_eq_false, hin, hneg, or_self, decide_false, Bool.false_or]

theorem serve_eq {fuel : Nat} {stray : Bool} {w u : DeviceWorld}
    (hrecieve : recieveSocketData (deviceSyscalls c.env) fuel ⟨k, 0, 0, [c.request], []⟩ =
      some ⟨.returned 0, stray, w⟩)
    (hreturn : returnLoop (deviceSyscalls c.env) 3 fuel c.buf { w with fPos := 0 } = some (0, u)) :
    c.serve fuel k = some (u.kernel, u.sent) := by
  have hdata : returnSocketData (deviceSyscalls c.env) fuel c.buf w = some (0, u) := hreturn
  rw [serve, hrecieve]
  simp [hdata]

theorem serve_add (fuel extra : Nat) {r : Kernel × List UInt8} (h : c.serve fuel k = some r) :
    c.serve (fuel + extra) k = some r := by
  rw [serve] at h ⊢
  obtain ⟨e, hrecieve, h⟩ := Option.bind_eq_some_iff.mp h
  rw [recieveSocketData_add _ fuel extra _ hrecieve]
  dsimp only [Option.bind_eq_bind, Option.bind_some] at h ⊢
  cases hout : e.outcome with
  | crashed =>
      rw [hout] at h
      cases h
  | returned res =>
      rw [hout] at h
      dsimp only at h ⊢
      split at h
      · cases h
      · rename_i hok
        rw [if_neg hok]
        obtain ⟨u, hreturn, h⟩ := Option.bind_eq_some_iff.mp h
        rw [returnSocketData_add _ fuel extra _ _ hreturn]
        exact h

theorem serve_unique {fuel fuel' : Nat} {r r' : Kernel × List UInt8} (h : c.serve fuel k = some r)
    (h' : c.serve fuel' k = some r') : r' = r := by
  have hmore := serve_add fuel fuel' h
  rw [Nat.add_comm, serve_add fuel' fuel h', Option.some.injEq] at hmore
  exact hmore

theorem received_unique {fuel fuel' : Nat} {k₁ k₂ : Kernel} (h : c.received fuel k = some k₁)
    (h' : c.received fuel' k = some k₂) : k₂ = k₁ := by
  obtain ⟨e, hcall, rfl⟩ := Option.map_eq_some_iff.mp h
  obtain ⟨e', hcall', rfl⟩ := Option.map_eq_some_iff.mp h'
  have hmore := recieveSocketData_add _ fuel fuel' _ hcall
  rw [Nat.add_comm, recieveSocketData_add _ fuel' fuel _ hcall', Option.some.injEq] at hmore
  rw [hmore]

theorem replay_unique {clients : List Client} {fuel fuel' : Nat} {t t' : Kernel × List (List UInt8)}
    (h : replay (serve fuel) k clients = some t) (h' : replay (serve fuel') k clients = some t') :
    t' = t := by
  have hmore := replay_mono (fun _ _ _ => serve_add fuel fuel') h
  rw [Nat.add_comm, replay_mono (fun _ _ _ => serve_add fuel' fuel) h', Option.some.injEq] at hmore
  exact hmore

theorem Valid.line (v : c.Valid) (h : c.sendsLine = true) : c.Line := by
  refine v.sends.resolve_right ?_
  rintro ⟨target, hseek⟩
  rw [sendsLine, decide_eq_true_eq, hseek.parsed] at h
  cases h

theorem Valid.seek (v : c.Valid) (h : c.sendsLine = false) : ∃ target, c.Seek target := by
  refine v.sends.resolve_left fun hline => ?_
  rw [sendsLine, parseCommand_of_plain hline.plain] at h
  cases h

def answerFuel : Nat := 2 ^ 64 + 1

theorem Line.endsLine (h : c.Line) : EndsLine c.request := by
  obtain ⟨text, htext⟩ := h.ends
  rw [EndsLine, htext]
  simp

structure Stored (k₀ k : Kernel) (c : Client) (res : WriteResult) : Prop where
  call : aesdWrite (c.env.write 0) k c.request = some res
  ret : 0 ≤ res.ret
  contents : res.kernel.contents = k.contents.write c.request
  reached : Reached k₀ res.kernel

theorem Line.stores {k₀ : Kernel} (h : c.Line) (hlen : c.request.length ≤ bufSize)
    (hwrites : ∀ i, (c.env.write i).Succeeds) (p : Placed k) (reached : Reached k₀ k)
    (hroom : bufSize + k.dev.pendingSize < kmallocBound) : ∃ res, Stored k₀ k c res := by
  have hne : c.request ≠ [] := by
    obtain ⟨text, htext⟩ := h.ends
    rw [htext]
    exact List.append_ne_nil_of_right_ne_nil _ (List.cons_ne_nil _ _)
  obtain ⟨res, hcall, hcontents, -, hret⟩ := p.write (hwrites 0) (Or.inl hne) (by omega)
  refine ⟨res, hcall, by omega, hcontents, reached.write ?_ hcall⟩
  show c.request.length + k.dev.pendingSize < kmallocBound
  omega

theorem Stored.position {k₀ : Kernel} {res : WriteResult} (st : Stored k₀ k c res)
    (hharmless : k.dev.seek = true → k.dev.seektoPosition = 0) :
    Aesd.readPosition res.kernel.dev 0 = 0 ∧ res.kernel.dev.seek = k.dev.seek ∧
      res.kernel.dev.seektoPosition = k.dev.seektoPosition := by
  have hseek : res.kernel.dev.seek = k.dev.seek := congrArg Contents.seek st.contents
  have hstored : res.kernel.dev.seektoPosition = k.dev.seektoPosition :=
    congrArg Contents.position st.contents
  refine ⟨?_, hseek, hstored⟩
  rw [Aesd.readPosition, hseek, hstored]
  split
  · rename_i hset
    exact hharmless hset
  · rfl

theorem Stored.isPartial {k₀ : Kernel} {res : WriteResult} (st : Stored k₀ k c res) (h : c.Line) :
    res.kernel.dev.isPartial = false := by
  have hnone : res.kernel.contents.lines.pending = none := by
    rw [st.contents]
    show (k.contents.lines.write _).pending = none
    rw [Lines.write, if_pos h.endsLine, Lines.pending_add]
  by_contra hset
  rw [Bool.not_eq_false] at hset
  rw [Kernel.contents] at hnone
  dsimp only at hnone
  rw [if_pos hset] at hnone
  cases hnone

variable {slots : Vector BufferEntry 10} {unset : Unset} {k' : Kernel} {d : Client}

theorem Valid.serve_line (v : c.Valid) (h : c.Line) (again : c.Resends d)
    (hlines : k'.contents.lines = k.contents.lines) (reached : Reached (initModule slots unset) k)
    (reached' : Reached (initModule slots unset) k')
    (hroom : bufSize + k.dev.pendingSize < kmallocBound) (hseek' : k'.dev.seek = false)
    (hharmless : k.dev.seek = true → k.dev.seektoPosition = 0)
    (inside : ∀ fuel k₁, c.received fuel k = some k₁ → AnswerInside k₁) :
    ∃ r r', c.serve answerFuel k = some r ∧ d.serve answerFuel k' = some r' ∧ r'.2 = r.2 ∧
      r'.1.contents.lines = r.1.contents.lines ∧ Reached (initModule slots unset) r.1 ∧
      Reached (initModule slots unset) r'.1 ∧ r.1.dev.isPartial = false ∧
      r'.1.dev.seek = false ∧ (r.1.dev.seek = true → r.1.dev.seektoPosition = 0) := by
  have hlen := v.length_le
  have hd : d.Line := by
    obtain ⟨plain, seen, ends⟩ := h
    constructor <;> rw [again.request] <;> assumption
  have hlen' : d.request.length ≤ bufSize := by rw [again.request]; exact hlen
  have hroom' : bufSize + k'.dev.pendingSize < kmallocBound := by
    rw [← pendingSize_contents, hlines, pendingSize_contents]
    exact hroom
  obtain ⟨res, st⟩ := h.stores hlen v.writes reached.placed reached hroom
  obtain ⟨res', st'⟩ := hd.stores hlen' again.writes reached'.placed reached' hroom'
  have hwrote : res'.kernel.contents.lines = res.kernel.contents.lines := by
    rw [st.contents, st'.contents, again.request]
    show k'.contents.lines.write _ = k.contents.lines.write _
    rw [hlines]
  obtain ⟨hstart, hseek, hstored⟩ := st.position hharmless
  obtain ⟨hstart', hgiven, -⟩ :=
    st'.position fun hset => absurd (hseek'.symm.trans hset) Bool.false_ne_true
  have hrecieve := recieve_line hlen h st.call st.ret
  have hstays : AnswerInside res.kernel := inside 1 _ (by rw [received, hrecieve]; rfl)
  have abreast : Abreast (initModule slots unset) ⟨res.kernel, 0, 1, [], []⟩
      ⟨res'.kernel, 0, 1, [], []⟩ :=
    ⟨hwrote, st.reached, st'.reached, rfl, rfl, by norm_num, hstart'.trans hstart.symm,
      by rw [hstart]; norm_num, hstays⟩
  obtain ⟨u, u', hreply, hreply', hsent, left, left'⟩ :=
    abreast.answer_ends v.reads again.reads 3 c.buf d.buf
  refine ⟨_, _, serve_eq (hrecieve _) hreply,
    serve_eq (recieve_line hlen' hd st'.call st'.ret _) hreply', hsent, ?_, left.reached,
    left'.reached, ?_, ?_, fun hset => ?_⟩
  · rw [left.lines, left'.lines, hwrote]
  · rw [left.dev]
    exact st.isPartial h
  · refine Bool.eq_false_iff.mpr fun hset => ?_
    have hold := (left'.seek hset).1
    rw [hgiven, hseek'] at hold
    cases hold
  · rw [left.dev]
    have hold := (left.seek hset).1
    rw [hseek] at hold
    exact hstored.trans (hharmless hold)

theorem Valid.serve_seek (v : c.Valid) {target : AesdSeekto} (h : c.Seek target)
    (reached : Reached (initModule slots unset) k)
    (inside : ∀ fuel k₁, c.received fuel k = some k₁ → AnswerInside k₁) :
    ∃ r, c.serve answerFuel k = some r ∧ Reached (initModule slots unset) r.1 ∧
      r.1.contents.lines = k.contents.lines ∧
      r.1.dev = { k.dev with seektoPosition := seektoTarget k.dev target
                             seek := r.1.dev.seek } ∧
      (r.1.dev.seek = true → k.dev.buffer.totalSize ≤ 0) := by
  have hsettled : Reached (initModule slots unset) (adjustFileOffset k target).1 := by
    have hcall := reached.ioctl iocSeekto (some target)
    rwa [aesdIoctl_seekto] at hcall
  have hlines : (adjustFileOffset k target).1.contents.lines = k.contents.lines := by
    rw [contents_seekto]
    rfl
  have hge : -2 ^ 63 ≤ Aesd.readPosition (adjustFileOffset k target).1.dev 0 := le_toSsize _
  have hrecieve := recieve_seek v.length_le h k
  have hstays : AnswerInside (adjustFileOffset k target).1 :=
    inside 1 _ (by rw [received, hrecieve]; rfl)
  have abreast : Abreast (initModule slots unset) ⟨(adjustFileOffset k target).1, 0, 0, [], []⟩
      ⟨(adjustFileOffset k target).1, 0, 0, [], []⟩ :=
    ⟨rfl, hsettled, hsettled, rfl, rfl, by norm_num, rfl, hge, hstays⟩
  obtain ⟨u, -, hreply, -, -, left, -⟩ := abreast.answer_ends v.reads v.reads 3 c.buf c.buf
  exact ⟨_, serve_eq (hrecieve _) hreply, left.reached, left.lines.trans hlines, left.dev,
    fun hset => (left.seek hset).2⟩

end Client

structure Follows (k₀ : Kernel) (cs : List Client) (k k' : Kernel) : Prop where
  lines : k'.contents.lines = k.contents.lines
  reached : Reached k₀ k
  reached' : Reached k₀ k'
  room : bufSize + k.dev.pendingSize < kmallocBound
  seek' : k'.dev.seek = false
  valid : ∀ c ∈ cs, c.Valid
  taken : TakesSeeks k cs
  harmless : ∀ d ∈ cs.head?, d.sendsLine = true → k.dev.seek = true → k.dev.seektoPosition = 0

namespace Follows
variable {slots : Vector BufferEntry 10} {unset : Unset} {c d : Client} {cs : List Client}
  {k k' : Kernel}

theorem line (f : Follows (initModule slots unset) (c :: cs) k k') (h : c.sendsLine = true)
    (again : c.Resends d) :
    ∃ r r', c.serve Client.answerFuel k = some r ∧ d.serve Client.answerFuel k' = some r' ∧
      r'.2 = r.2 ∧ Follows (initModule slots unset) cs r.1 r'.1 := by
  have v := f.valid c (List.mem_cons_self ..)
  obtain ⟨r, r', hserve, hserve', hreply, lines, reached, reached', hclear, hseek', hharmless⟩ :=
    v.serve_line (v.line h) again f.lines f.reached f.reached' f.room f.seek' (f.harmless c rfl h)
      f.taken.2.1
  refine ⟨r, r', hserve, hserve', hreply, lines, reached, reached', ?_, hseek',
    fun d hd => f.valid d (List.mem_cons_of_mem _ hd), f.taken.2.2 _ _ hserve,
    fun _ _ _ => hharmless⟩
  rw [AesdDev.pendingSize, hclear, if_neg Bool.false_ne_true]
  decide

theorem seek (f : Follows (initModule slots unset) (c :: cs) k k') (h : c.sendsLine = false) :
    ∃ r, c.serve Client.answerFuel k = some r ∧ Follows (initModule slots unset) cs r.1 k' := by
  have v := f.valid c (List.mem_cons_self ..)
  obtain ⟨target, hseek⟩ := v.seek h
  obtain ⟨r, hserve, reached, hlines, hdev, hleft⟩ := v.serve_seek hseek f.reached f.taken.2.1
  refine ⟨r, hserve, f.lines.trans hlines.symm, reached, f.reached', ?_, f.seek',
    fun d hd => f.valid d (List.mem_cons_of_mem _ hd), f.taken.2.2 _ _ hserve,
    fun d hd hline hset => ?_⟩
  · rw [hdev]
    exact f.room
  · rw [hdev]
    exact (f.taken.1 d hd hline target hseek).resolve_left (hleft hset).not_gt

end Follows

/-- Lines and seek commands of different clients. From any state that a run from the load of the
module reaches, with no pending seek, the clients that send lines are answered as if the
others did not come, when no answer copies anything from outside the entries and each seek
command that the next line comes right behind is served where there are bytes to read or leads to
the first byte. -/
theorem undisturbed_of_takesSeeks {slots : Vector BufferEntry 10} {unset : Unset} (k : Kernel)
    (reached : Reached (initModule slots unset) k) (hseek : k.dev.seek = false)
    (hroom : bufSize + k.dev.pendingSize < kmallocBound) (clients : List Client)
    (hvalid : ∀ c ∈ clients, c.Valid) (htaken : TakesSeeks k clients) : Undisturbed k clients := by
  intro others hothers
  have start : Follows (initModule slots unset) clients k k :=
    ⟨rfl, reached, reached, hroom, hseek, hvalid, htaken,
      fun _ _ _ hset => absurd (hseek.symm.trans hset) Bool.false_ne_true⟩
  obtain ⟨t, t', hrun, hrun', hreplies⟩ := replay_filter
    (fun cs k k' => Follows (initModule slots unset) cs k k') Client.sendsLine Client.Resends
    (fun _ _ _ _ _ f h again => f.line h again) (fun _ _ _ _ f h => f.seek h) start hothers
  exact ⟨_, t, t', hrun, hrun', hreplies⟩

def Client.sending (request : List UInt8) : Client :=
  ⟨request, ⟨fun _ => (ReadCall.zeroed 0).env, fun _ => .zeroed⟩, []⟩

def seekToSecondByte : List UInt8 := seekWord ++ [58, 48, 44, 49, 10]

theorem seek_seekToSecondByte : (Client.sending seekToSecondByte).Seek ⟨0, 1⟩ :=
  ⟨by decide +kernel, by decide⟩

theorem Client.Resends.sending (request : List UInt8) :
    (Client.sending request).Resends (.sending request) :=
  ⟨rfl, fun _ => ⟨⟨rfl, rfl, rfl⟩, rfl⟩, fun _ => WriteEnv.zeroed_succeeds⟩

theorem Client.valid_sending {request : List UInt8} (hlen : request.length ≤ bufSize)
    (h : (sending request).Line ∨ ∃ target, (sending request).Seek target) :
    (sending request).Valid :=
  ⟨hlen, fun _ => ⟨⟨rfl, rfl, rfl⟩, rfl⟩, fun _ => WriteEnv.zeroed_succeeds, h⟩

def ShortAnswer (k : Kernel) (i off : Nat) : Prop :=
  k.dev.buffer.totalSize ≤ readPosition k.dev 0 + bufSize ∧
    k.dev.buffer.Starts (readPosition k.dev 0) i off ∧
      ReadFits bufSize off ((k.dev.buffer.stretch i).takeWhile (· ≠ 0))

instance (k : Kernel) (i off : Nat) : Decidable (ShortAnswer k i off) :=
  inferInstanceAs (Decidable (_ ∧ _ ∧ _))

theorem ShortAnswer.inside {k : Kernel} {i off : Nat} (h : ShortAnswer k i off) :
    AnswerInside k := by
  obtain ⟨hshort, hstarts, hfits⟩ := h
  rintro - (_ | j) hin i' off' starts
  · rw [Nat.cast_zero, mul_zero, add_zero] at starts
    obtain ⟨rfl, rfl⟩ := hstarts.unique starts
    exact hfits
  · rw [Nat.cast_succ, mul_add, mul_one] at hin
    have hpast : (0 : Int) ≤ bufSize * j := by positivity
    omega

namespace Client
variable {c d : Client} {k : Kernel}

theorem inside_of_received {n i off : Nat}
    (h : (c.received n k).any (ShortAnswer · i off) = true) (fuel : Nat) (k' : Kernel)
    (hreceived : c.received fuel k = some k') : AnswerInside k' := by
  obtain ⟨k₁, hfirst, hshort⟩ := (Option.any_eq_true _ _).mp h
  rw [received_unique hfirst hreceived]
  exact (of_decide_eq_true hshort).inside

end Client

theorem undisturbed_between_lines : Undisturbed (initModule CircularBuffer.init.entry .zeroed)
    [.sending [97, 98, 10], .sending seekToSecondByte, .sending [99, 10]] := by
  have hline : (Client.sending [97, 98, 10]).Line :=
    ⟨parseCommand_eq_data_iff.mp (by decide +kernel), by decide +kernel, [97, 98], rfl⟩
  have hline' : (Client.sending [99, 10]).Line :=
    ⟨parseCommand_eq_data_iff.mp (by decide +kernel), by decide +kernel, [99], rfl⟩
  have hseek : (Client.sending seekToSecondByte).sendsLine = false := by decide +kernel
  have hall : ((Client.sending [97, 98, 10]).received 1
        (initModule CircularBuffer.init.entry .zeroed)).any (ShortAnswer · 0 0) = true ∧
      ((Client.sending [97, 98, 10]).serve 1
        (initModule CircularBuffer.init.entry .zeroed)).any (fun r =>
          decide (0 < r.1.dev.buffer.totalSize) &&
            (((Client.sending seekToSecondByte).received 1 r.1).any (ShortAnswer · 0 1) &&
              ((Client.sending seekToSecondByte).serve 1 r.1).any fun r =>
                ((Client.sending [99, 10]).received 1 r.1).any (ShortAnswer · 0 0))) = true := by
    decide +kernel
  obtain ⟨hfirst, hrest⟩ := hall
  obtain ⟨r, hr, hrest⟩ := (Option.any_eq_true _ _).mp hrest
  rw [Bool.and_eq_true, Bool.and_eq_true] at hrest
  obtain ⟨htotal, hsecond, hrest⟩ := hrest
  obtain ⟨r', hr', hthird⟩ := (Option.any_eq_true _ _).mp hrest
  refine undisturbed_of_takesSeeks _ .load rfl (by decide) _ ?_
    ⟨fun d hd h => ?_, Client.inside_of_received hfirst, fun fuel r₁ hserve => ?_⟩
  · simp only [List.mem_cons, List.not_mem_nil, or_false, forall_eq_or_imp, forall_eq]
    exact ⟨Client.valid_sending (by decide) (Or.inl hline),
      Client.valid_sending (by decide) (Or.inr ⟨_, seek_seekToSecondByte⟩),
      Client.valid_sending (by decide) (Or.inl hline')⟩
  · obtain rfl := Option.some.inj hd
    rw [hseek] at h
    cases h
  · obtain rfl := Client.serve_unique hr hserve
    refine ⟨fun d hd h target hs => Or.inl (of_decide_eq_true htotal),
      Client.inside_of_received hsecond, fun fuel r₂ hserve => ?_⟩
    obtain rfl := Client.serve_unique hr' hserve
    exact ⟨fun d hd => absurd hd (Option.not_mem_none d), Client.inside_of_received hthird,
      fun _ _ _ => trivial⟩

/-- The seek command comes before there is a line: the first reply starts at its second byte. -/
theorem disturbed_on_empty_device : ¬ Undisturbed (initModule CircularBuffer.init.entry .zeroed)
    [.sending seekToSecondByte, .sending [97, 98, 10]] := by
  intro h
  have hkept : [Client.sending seekToSecondByte, .sending [97, 98, 10]].filter Client.sendsLine =
      [.sending [97, 98, 10]] := by
    rw [List.filter_cons_of_neg (by decide +kernel), List.filter_cons_of_pos (by decide +kernel),
      List.filter_nil]
  obtain ⟨fuel, t, t', hrun, hrun', hreplies⟩ := h [.sending [97, 98, 10]] (by
    rw [hkept]
    exact .cons (.sending _) .nil)
  have hwith : (replay (Client.serve 1) (initModule CircularBuffer.init.entry .zeroed)
      [.sending seekToSecondByte, .sending [97, 98, 10]]).map Prod.snd = some [[], [98, 10]] := by
    decide +kernel
  have hwithout : (replay (Client.serve 1) (initModule CircularBuffer.init.entry .zeroed)
      [.sending [97, 98, 10]]).map Prod.snd = some [[97, 98, 10]] := by decide +kernel
  obtain ⟨u, hone, hshown⟩ := Option.map_eq_some_iff.mp hwith
  obtain ⟨u', hone', hshown'⟩ := Option.map_eq_some_iff.mp hwithout
  rw [Client.replay_unique hone hrun, hshown] at hreplies
  rw [Client.replay_unique hone' hrun', hshown'] at hreplies
  exact absurd hreplies (by decide +kernel)

end Aesd

import Aesd.ServedLines
import Aesd.ServerProgress

/-! The whole server over the driver. Clients that send lines and seek commands get the replies of the
line server, however `main` and the threads of the connections interleave. -/
namespace Aesd
open CString LockedSection Replay

structure ConnectionWorld where
  fPos : Int
  calls : Nat
  incoming : List (List UInt8)
  sent : List UInt8

def DeviceWorld.split : DeviceWorld ≃ Kernel × ConnectionWorld where
  toFun w := (w.kernel, ⟨w.fPos, w.calls, w.incoming, w.sent⟩)
  invFun r := ⟨r.1, r.2.fPos, r.2.calls, r.2.incoming, r.2.sent⟩
  left_inv _ := rfl
  right_inv _ := rfl

def driverPlatform (clients : Nat → Client) : Platform DeviceWorld Kernel ConnectionWorld where
  sys t := deviceSyscalls (clients t).env
  split := DeviceWorld.split
  conn t := ⟨0, 0, [(clients t).request], []⟩
  uninit t := (clients t).buf

/-- A client of the server that the line server answers: ten lines like its own fit one block. -/
structure Client.Small (c : Client) : Prop extends c.Valid where
  short : 10 * c.request.length < bufSize

def KeepsLines (k : Kernel) (a : LineServer) : Prop :=
  (∃ r, Serves k r a) ∧ ∀ l ∈ a.lines, 10 * l.length < bufSize

/-- What the clients see of a state of the server: the process is up, and in the order in which the
threads have come to the mutex, those that are through have sent the line server's replies. -/
structure AnswersLines (clients : Nat → Client) (s : Server Kernel ConnectionWorld) : Prop where
  up : s.ended = false
  replies : ∃ answered, (s.device.order = answered ∨ ∃ t, s.device.order = answered ++ [t]) ∧
    (∀ t, (∃ r, (s.thread t).Ended r) → t ∈ answered) ∧
    List.Forall₂ (fun t reply => ∃ c ret, (s.thread t).Ended (c, ret) ∧ c.sent = reply) answered
      (LineServer.start.replies (answered.map fun t => (clients t).asks))
  order : s.table.created < 2 ^ 31 → AcceptanceOrder s.table.created s.device.order

theorem LineServer.kept_lt {a : LineServer} (h : ∀ l ∈ a.lines, 10 * l.length < bufSize) :
    (contents a.kept).length < bufSize := by
  have hlen := a.length_kept
  have hle : ∀ n ∈ a.kept.map List.length, n ≤ 3071 := by
    intro n hn
    obtain ⟨l, hl, rfl⟩ := List.mem_map.mp hn
    have hlt := h l (List.mem_of_mem_drop hl)
    unfold bufSize at hlt
    omega
  have hsum := List.sum_le_card_nsmul _ _ hle
  rw [List.length_map, nsmul_eq_mul, Nat.cast_id] at hsum
  rw [length_contents]
  unfold bufSize
  omega

section Serve
variable {clients : Nat → Client} {t : Nat} {k : Kernel} {a : LineServer}

theorem serve_of_client {fuel : Nat} {x : Kernel × List UInt8}
    (h : (clients t).serve fuel k = some x) : ∃ c ret, ret ≠ -1 ∧ c.sent = x.2 ∧
      (driverPlatform clients).serve fuel k t = some (x.1, c, ret) := by
  rw [Client.serve] at h
  obtain ⟨e, hrecieve, h⟩ := Option.bind_eq_some_iff.mp h
  cases hout : e.outcome with
  | crashed =>
      rw [hout] at h
      cases h
  | returned res =>
      rw [hout] at h
      dsimp only at h
      split at h
      · cases h
      · rename_i hok
        obtain ⟨⟨ret, w⟩, hreturn, h⟩ := Option.bind_eq_some_iff.mp h
        dsimp only at h
        split at h
        · cases h
        · rename_i hret
          cases h
          refine ⟨⟨w.fPos, w.calls, w.incoming, w.sent⟩, ret, hret, rfl, ?_⟩
          have hserve : serveConnectionData (deviceSyscalls (clients t).env) (clients t).buf fuel
              ⟨k, 0, 0, [(clients t).request], []⟩ = some (ret, w) := by
            rw [serveConnectionData, hrecieve]
            simp only [Option.bind_eq_bind, Option.bind_some, hout, if_neg hok, hreturn]
          exact congrArg (Option.map _) hserve

theorem KeepsLines.serve (h : KeepsLines k a) (hsmall : (clients t).Small) :
    ∃ k' c ret, ret ≠ -1 ∧ c.sent = (a.step (clients t).asks).2 ∧
      (driverPlatform clients).serve 1 k t = some (k', c, ret) ∧
      KeepsLines k' (a.step (clients t).asks).1 := by
  obtain ⟨⟨r, s⟩, hlines⟩ := h
  have hlines' : ∀ l ∈ (a.step (clients t).asks).1.lines, 10 * l.length < bufSize := by
    unfold Client.asks LineServer.step
    split
    · rename_i text hasks
      split at hasks
      · cases hasks
      · cases hasks
        intro l hl
        rcases List.mem_append.mp hl with hl | hl
        · exact hlines l hl
        · rw [List.mem_singleton.mp hl]
          exact hsmall.short
    · split
      · exact fun l hl => by cases hl
      · exact hlines
  obtain ⟨k', r', hserve, s'⟩ := hsmall.toValid.serves s (LineServer.kept_lt hlines)
    (LineServer.kept_lt hlines')
  obtain ⟨c, ret, hret, hsent, hx⟩ := serve_of_client (hserve 0)
  exact ⟨k', c, ret, hret, hsent, hx, ⟨r', s'⟩, hlines'⟩

theorem servable_of_small (hsmall : ∀ t, (clients t).Small) :
    Servable (driverPlatform clients) fun k => ∃ a, KeepsLines k a := by
  rintro k t ⟨a, h⟩
  obtain ⟨k', c, ret, hret, -, hserve, h'⟩ := h.serve (hsmall t)
  exact ⟨1, _, hserve, hret, _, h'⟩

theorem KeepsLines.replay (hsmall : ∀ t, (clients t).Small) {rounds : Nat} {ts : List Nat}
    {k' : Kernel} {results : List (ConnectionWorld × Int)} (h : KeepsLines k a)
    (hrun : Replay.replay ((driverPlatform clients).serve rounds) k ts = some (k', results)) :
    List.Forall₂ (fun r reply => r.1.sent = reply) results
      (a.replies (ts.map fun t => (clients t).asks)) := by
  induction ts generalizing k a results with
  | nil =>
      cases hrun
      exact .nil
  | cons t ts ih =>
      obtain ⟨x, hfirst, hrun⟩ := Option.bind_eq_some_iff.mp hrun
      obtain ⟨u, hrest, heq⟩ := Option.bind_eq_some_iff.mp hrun
      cases heq
      obtain ⟨k₁, c, ret, -, hsent, hserve, h'⟩ := h.serve (hsmall t)
      obtain rfl := Platform.serve_unique hserve hfirst
      exact .cons hsent (ih h' hrest)

end Serve

theorem keepsLines_load (unset : Unset) :
    KeepsLines (initModule CircularBuffer.init.entry unset) .start :=
  ⟨⟨_, .load unset⟩, fun l hl => by cases hl⟩

/-- Concurrent clients. From the load of the module, however `main` and the threads interleave, the
server stays up, and the connections that have been served have sent what the line server answers
when it is asked in the order of the lock, which is that of acceptance but for the first two. -/
theorem concurrent_clients_answered (unset : Unset) (clients : Nat → Client)
    (hsmall : ∀ t, (clients t).Small) (schedule : List (Option Nat)) {s : Server Kernel ConnectionWorld}
    (hrun : serverRun (driverPlatform clients)
      (.start (initModule CircularBuffer.init.entry unset)) schedule = some s) :
    AnswersLines clients s := by
  obtain ⟨hup, -, -⟩ := server_goes_on _ _ (servable_of_small hsmall) _ ⟨_, keepsLines_load unset⟩
    schedule hrun
  have inv := serverRun_invariant (fun _ _ inv move => ServerInv.move inv move)
    (ServerInv.start (initModule CircularBuffer.init.entry unset)) schedule hrun
  obtain ⟨rounds, finished, k, results, hreplay, hresults, current⟩ :=
    (servedInTurn_of_inTurn inv.turns).served
  have hreplies := (keepsLines_load unset).replay hsmall hreplay
  refine ⟨hup, ⟨finished, ?_, ?_, ?_⟩, inv.order⟩
  · cases current with
    | between none order data => exact Or.inl order
    | inside i l here order goes => exact Or.inr ⟨i, order⟩
  · rintro t ⟨r, hended⟩
    exact inv.ended_mem current hended
  · refine (forall₂_through hresults hreplies).imp ?_
    rintro t reply ⟨⟨c, ret⟩, hended, hsent⟩
    exact ⟨c, ret, hended, hsent⟩

def twoClients (t : Nat) : Client := .sending (if t = 0 then [97, 10] else [98, 10])

theorem concurrent_clients_answered_two : ∃ s, serverRun (driverPlatform twoClients)
    (.start (initModule CircularBuffer.init.entry .zeroed)) secondFirst = some s ∧
      s.device.order = [1, 0] ∧ AnswersLines twoClients s := by
  have hline : ∀ text ∈ [[97, 10], [98, 10]], (Client.sending text).Small := by
    intro text htext
    have hall : ∀ text ∈ [[97, 10], [98, 10]], parseCommand (ofBytes text) = some none ∧
        10 ∈ ofBytes text ∧ text = [text.headD 0] ++ [newline] := by decide +kernel
    obtain ⟨hparse, hseen, hends⟩ := hall text htext
    have hlen : text.length = 2 := by rw [hends]; rfl
    have hB : 20 < bufSize := by decide
    have hshort : 10 * text.length < bufSize := by omega
    exact ⟨Client.valid_sending (by omega)
      (Or.inl ⟨parseCommand_eq_data_iff.mp hparse, hseen, _, hends⟩), hshort⟩
  have hsmall : ∀ t, (twoClients t).Small := by
    intro t
    unfold twoClients
    split
    · exact hline _ List.mem_cons_self
    · exact hline _ (List.mem_cons_of_mem _ List.mem_cons_self)
  have hvalues : (serverRun (driverPlatform twoClients)
      (.start (initModule CircularBuffer.init.entry .zeroed)) secondFirst).map
        (fun s => s.device.order) = some [1, 0] := by decide +kernel
  obtain ⟨s, hrun, horder⟩ := Option.map_eq_some_iff.mp hvalues
  exact ⟨s, hrun, horder, concurrent_clients_answered .zeroed twoClients hsmall _ hrun⟩

end Aesd

import ConcurrentServers.Exchange.Progress

/-!
# When a session can get stuck

`conn_main` reads nothing before its request is out. If a request is longer than
what fits on the two wires, a server that takes it one byte at a time is stopped
by the echo that nobody reads, while the client still has something to send. So the
room that is enough for a session to end is also necessary.
-/

namespace ConcurrentServers.Exchange

open Systems
open Loadgen (Conn Job Control)
open Protocol (Connection SendAll)

variable {job : Job} {rooms : Rooms} {s t : Session} {v v' : Connection}

/-! ## Sessions in which the server reads byte by byte -/

/-- The client has not sent all of its first request, and the server owes no more than one
byte for what it has read. -/
structure Session.Careful (job : Job) (rooms : Rooms) (s : Session) : Prop where
  sound : s.Sound job
  opening : (sentStream job s.client.control).length < job.payloadBytes + 2
  close : (Frame.reply s.received).length ≤ s.accepted.length + 1
  room : s.down.length ≤ rooms.down

theorem careful_start (job : Job) (rooms : Rooms) : Session.start.Careful job rooms where
  sound := sound_start job
  opening := Nat.succ_pos _
  close := le_rfl
  room := Nat.zero_le _

theorem le_length_requests (job : Job) {m : ℕ} (hm : 0 < m) :
    job.payloadBytes + 2 ≤ (requests job m).length := by
  rw [length_requests]
  exact Nat.le_mul_of_pos_left _ hm

/-- What has been sent is the beginning of a single request. -/
theorem Session.Careful.received_eq (h : s.Careful job rooms) (hmessages : 0 < job.messages) :
    s.received = (Loadgen.request job.payloadBytes).take s.received.length := by
  have hone : requests job 1 = Loadgen.request job.payloadBytes := List.append_nil _
  have hreceived : s.received <+: sentStream job s.client.control := ⟨s.up, h.sound.upward⟩
  have hsent := hreceived.trans (sentStream_due h.sound.regular)
  have hfirst := requests_prefix job (Nat.succ_le_of_lt hmessages)
  rw [hone] at hfirst
  have hle := hreceived.length_le
  have hopening := h.opening
  apply List.prefix_iff_eq_take.mp
  apply List.prefix_of_prefix_length_le hsent hfirst
  rw [length_request]
  omega

theorem Session.Careful.not_returned (h : s.Careful job rooms) (hmessages : 0 < job.messages) :
    s.client.control ≠ .returned := by
  intro hc
  have hopening := h.opening
  rw [hc] at hopening
  exact absurd hopening (Nat.not_lt.mpr (le_length_requests job hmessages))

/-! ## One careful step -/

/-- The last byte of the request finds no room. -/
theorem Session.Careful.sent_lt (h : s.Careful job rooms) (hmessages : 0 < job.messages)
    (hlong : rooms.up + rooms.down < job.payloadBytes) {m : ℕ} {k : SendAll}
    (hk : s.client.control = .sending m k) (hroom : s.up.length < rooms.up) :
    (sentStream job s.client.control).length < job.payloadBytes + 1 := by
  have hm : m = 0 := by
    by_contra hne
    have hopening := h.opening
    have hle := le_length_requests job (Nat.pos_of_ne_zero hne)
    rw [hk] at hopening
    change (requests job m ++ _).length < _ at hopening
    rw [List.length_append] at hopening
    omega
  have hupward := congrArg List.length h.sound.upward
  have hdownward := h.sound.downward
  rw [hk, hm] at hdownward
  have haccepted := congrArg List.length hdownward
  change (['*'.toUInt8] ++ s.down).length = _ at haccepted
  rw [List.length_append, List.length_singleton] at haccepted
  have hclose := h.close
  have hdown := h.room
  have hnone : requests job 0 ++ (Loadgen.request job.payloadBytes).take s.received.length =
      s.received := (h.received_eq hmessages).symm
  rw [← hnone, reply_requests_take, List.length_append, List.length_take, length_expected] at hclose
  change 1 + _ ≤ _ at hclose
  have hlength := congrArg List.length (h.received_eq hmessages)
  rw [List.length_take, length_request] at hlength
  rw [List.length_append] at hupward
  omega

theorem length_reply_concat (xs : List UInt8) (b : UInt8) :
    (Frame.reply (xs ++ [b])).length ≤ (Frame.reply xs).length + 1 := by
  rw [Frame.reply_append, List.length_append, Transducer.output_cons, Transducer.output_nil,
    List.append_nil]
  exact Nat.add_le_add_left (Frame.length_emit_le _ b) _

theorem length_serverPuts_le (v : Connection) (n : ℕ) :
    (serverPuts v (.send (.ok n))).length ≤ n := by
  unfold serverPuts
  dsimp only
  split <;> simp [SendAll.taken]

theorem length_serverPuts_error (v : Connection) (e : Errno) :
    serverPuts v (.send (.error e)) = [] := by
  unfold serverPuts
  dsimp only
  split <;> rfl

/-- No more is ever on its way to the client than there is room for. -/
theorem Moves.room {l : Label} (hm : Moves job rooms s l t) (h : s.down.length ≤ rooms.down) :
    t.down.length ≤ rooms.down := by
  cases hm with
  | client hpermits hc =>
      refine le_trans ?_ h
      exact (List.drop_sublist _ _).length_le
  | enter hnone hconnected => exact h
  | @server a v v' hv hpermits hv' =>
      change (s.down ++ serverPuts v a).length ≤ rooms.down
      rw [List.length_append]
      cases a with
      | recv r | tick => exact h
      | send r =>
          cases r with
          | error e => rwa [length_serverPuts_error]
          | ok n =>
              have hroom := of_decide_eq_true (Bool.and_eq_true_iff.mp hpermits).2
              exact (Nat.add_le_add_left (length_serverPuts_le v n) _).trans hroom

/-- A step of the server is careful if it reads at most one byte, and only when it owes
nothing. -/
theorem Session.Careful.server (h : s.Careful job rooms) (hv : s.server = some v)
    {a : Protocol.Answer} (hpermits : s.serverPermits rooms a = true) (hv' : v.step a = some v')
    (hadvance : ServerAdvance s v v' (serverPuts v a) (serverGets a))
    (hgets : serverGets a = [] ∨
      v.accepted = Frame.reply v.received ∧ ∃ b, serverGets a = [b]) :
    (s.afterServer v a v').Careful job rooms := by
  refine ⟨h.sound.afterServer hv hv' hadvance, h.opening, ?_,
    Moves.room (.server hv hpermits hv' : Moves job rooms s _ _) h.room⟩
  have hclose := h.close
  change (Frame.reply v'.received).length ≤ v'.accepted.length + 1
  rw [Session.received_of hv, Session.accepted_of hv] at hclose
  rw [hadvance.received, hadvance.accepted, List.length_append]
  rcases hgets with hnone | ⟨haccepted, b, hb⟩
  · rw [hnone, List.append_nil]
    omega
  · have hle := length_reply_concat v.received b
    rw [hb, haccepted]
    omega

/-- A step of the client is careful if it leaves something to send. -/
theorem Session.Careful.client (h : s.Careful job rooms) {a : Loadgen.Answer} {c : Conn}
    (hpermits : s.clientPermits rooms a = true) (hc : job.step s.client a = some c)
    (hl : (Label.client a).interrupted = false)
    (hopening : (sentStream job s.client.control).length + (clientPuts s.client a).length <
      job.payloadBytes + 2) : (s.afterClient a c).Careful job rooms := by
  rcases h.sound.client hpermits hc with ⟨hinterrupted, -⟩ | ⟨-, hadvance⟩
  · rw [hl] at hinterrupted
    cases hinterrupted
  · refine ⟨h.sound.afterClient hc hadvance, ?_, h.close,
      Moves.room (.client hpermits hc : Moves job rooms s _ _) h.room⟩
    change (sentStream job c.control).length < _
    rwa [hadvance.sent, List.length_append]

/-- Where the client can make a call, it can make one that leaves something to send. -/
theorem Session.Careful.client_exists (h : s.Careful job rooms) (hmessages : 0 < job.messages)
    (hlong : rooms.up + rooms.down < job.payloadBytes) {a : Loadgen.Answer} {c : Conn}
    (hl : (Label.client a).interrupted = false) (hpermits : s.clientPermits rooms a = true)
    (hc : job.step s.client a = some c) :
    ∃ l t, l.interrupted = false ∧ s.step job rooms l = some t ∧ t.Careful job rooms := by
  by_cases hputs : clientPuts s.client a = []
  · refine ⟨.client a, _, hl, clientStep_of hpermits hc, h.client hpermits hc hl ?_⟩
    rw [hputs]
    exact h.opening
  · obtain ⟨m, k, r, hk, rfl⟩ : ∃ m k r, s.client.control = .sending m k ∧ a = .send r := by
      unfold clientPuts at hputs
      split at hputs
      · split at hputs
        · next hk => exact ⟨_, _, _, hk, rfl⟩
        · exact absurd rfl hputs
      · exact absurd rfl hputs
    have hregular := h.sound.regular
    rw [hk] at hregular
    have hroom : s.up.length < rooms.up := by
      have hreturned := h.sound.not_serverReturned (h.not_returned hmessages)
      simp only [Session.clientPermits, hreturned] at hpermits
      rcases sendPermits_cases hpermits with rfl | ⟨n, hpos, hroom, -⟩
      · cases hl
      · omega
    have hlt := h.sent_lt hmessages hlong hk hroom
    obtain ⟨t, ht⟩ := client_sends job hk hregular.2.2 hroom
    refine ⟨.client (.send (.ok 1)), t, rfl, ht, ?_⟩
    cases moves_of_step (l := .client (.send (.ok 1))) ht with
    | client hpermits hc =>
        refine h.client hpermits hc rfl ?_
        have hone : (clientPuts s.client (.send (.ok 1))).length ≤ 1 := by
          simp only [clientPuts, hk, SendAll.taken, List.length_take]
          exact Nat.min_le_left _ _
        omega

theorem Session.Careful.server_exists (h : s.Careful job rooms) (hmessages : 0 < job.messages)
    {a : Protocol.Answer} (hl : (Label.server a).interrupted = false) (hv : s.server = some v)
    (hpermits : s.serverPermits rooms a = true) (hv' : v.step a = some v') :
    ∃ l t, l.interrupted = false ∧ s.step job rooms l = some t ∧ t.Careful job rooms := by
  have hadvance : ∀ {a : Protocol.Answer} {v' : Connection},
      (Label.server a).interrupted = false → s.serverPermits rooms a = true → v.step a = some v' →
      ServerAdvance s v v' (serverPuts v a) (serverGets a) := by
    intro a v' hl hpermits hv'
    rcases h.sound.server hv hpermits hv' with ⟨hinterrupted, -⟩ | ⟨-, hadvance⟩
    · rw [hl] at hinterrupted
      cases hinterrupted
    · exact hadvance
  cases a with
  | tick | send =>
      exact ⟨_, _, hl, serverStep_of hv hpermits hv',
        h.server hv hpermits hv' (hadvance hl hpermits hv') (Or.inl rfl)⟩
  | recv r =>
      have hmoves := Protocol.moves_of_step hv'
      have hfollows := Protocol.reachable_follows (h.sound.genuine v hv)
      unfold Connection.Follows at hfollows
      generalize hk : v.control = k at hmoves hfollows
      cases hmoves with
      | interrupted => cases hl
      | recvFailed he => exact absurd (of_decide_eq_true hpermits) he
      | closed =>
          -- The client is not done, so its end of the stream is open.
          have hended := (hadvance hl hpermits hv').ended .serveOk rfl
          exact absurd hended.2.1 (h.not_returned hmessages)
      | @block b data hlen =>
          obtain ⟨rest, hrest⟩ := List.isPrefixOf_iff_prefix.mp hpermits
          obtain ⟨t, ht⟩ := server_receives rooms hv hk hrest.symm
          refine ⟨.server (.recv (.ok [b])), t, rfl, ht, ?_⟩
          have hm : Moves job rooms s (.server (.recv (.ok [b]))) t := moves_of_step ht
          cases hm with
          | server hv₁ hpermits hv' =>
              cases hv.symm.trans hv₁
              exact h.server hv hpermits hv' (hadvance rfl hpermits hv')
                (Or.inr ⟨hfollows.2, b, rfl⟩)

/-- Where a call can be made, a careful one can be made. -/
theorem Session.Careful.exists_step (h : s.Careful job rooms) (hmessages : 0 < job.messages)
    (hlong : rooms.up + rooms.down < job.payloadBytes) {l : Label} (hl : l.interrupted = false)
    (hs : s.step job rooms l = some t) :
    ∃ l t, l.interrupted = false ∧ s.step job rooms l = some t ∧ t.Careful job rooms := by
  cases moves_of_step hs with
  | client hpermits hc => exact h.client_exists hmessages hlong hl hpermits hc
  | enter hnone hconnected =>
      have hm := moves_of_step hs
      refine ⟨_, _, hl, hs, h.sound.moves hm, h.opening, ?_, h.room⟩
      exact le_rfl
  | server hv hpermits hv' => exact h.server_exists hmessages hl hv hpermits hv'

/-! ## The room that is needed -/

/-- The session is not over, and every call blocks. Only a timeout can end it. -/
def Session.Stuck (job : Job) (rooms : Rooms) (s : Session) : Prop :=
  ¬s.Final ∧ ∀ l t, l.interrupted = false → s.step job rooms l ≠ some t

theorem exists_stuck (hmessages : 0 < job.messages)
    (hlong : rooms.up + rooms.down < job.payloadBytes) :
    ∃ s, (exchange job rooms).Reachable s ∧ s.Stuck job rooms := by
  have hprogress : ∀ s : Session, s.Careful job rooms → ¬s.Stuck job rooms → ∃ l t,
      (fun _ _ => True : Session → Label → Prop) s l ∧ (fun _ => True : Label → Prop) l ∧
        (exchange job rooms).step s l = some t ∧ t.Careful job rooms ∧
        t.left job < s.left job := by
    intro s h hmoves
    obtain ⟨l, t, hl, ht⟩ : ∃ l t, l.interrupted = false ∧ s.step job rooms l = some t := by
      by_contra hnone
      refine hmoves ⟨fun hfinal => h.not_returned hmessages hfinal.1, fun l t hl ht => ?_⟩
      exact hnone ⟨l, t, hl, ht⟩
    obtain ⟨l, t, hl, ht, hcareful⟩ := h.exists_step hmessages hlong hl ht
    refine ⟨l, t, trivial, trivial, ht, hcareful, ?_⟩
    rcases h.sound.left_lt (moves_of_step ht) with ⟨hinterrupted, -⟩ | ⟨-, hlt⟩
    · rw [hl] at hinterrupted
      cases hinterrupted
    · exact hlt
  obtain ⟨ls, s, hrun, -, -, -, hstuck⟩ :=
    Machine.exists_run_of_progress (Session.left job) hprogress (careful_start job rooms)
  exact ⟨s, Machine.reachable_of_run ls rfl hrun, hstuck⟩

/-- A session of at least one message can always go on exactly if the payload fits on the
two wires. -/
theorem exchange_deadlock_free_iff (hmessages : 0 < job.messages) (hup : 0 < rooms.up)
    (hdown : 0 < rooms.down) :
    (∀ s, (exchange job rooms).Reachable s → ¬s.Stuck job rooms) ↔
      job.payloadBytes ≤ rooms.up + rooms.down := by
  constructor
  · intro h
    by_contra hlong
    obtain ⟨s, hs, hstuck⟩ := exists_stuck hmessages (Nat.not_le.mp hlong)
    exact h s hs hstuck
  · rintro hfits s hs ⟨hnot, hnone⟩
    have hprogress := (reachable_sound hs).progress ⟨hup, hdown, hfits⟩
    obtain ⟨l, t, hl, ht⟩ := hprogress.resolve_left hnot
    exact hnone l t hl ht

/-- One message of three bytes. -/
def threeBytes : Job := ((Loadgen.parseArgs 1 1 (some 3)).get (by decide)).toJob

/-- Three bytes do not go over two wires of one byte each. -/
theorem exchange_deadlock_free_iff_oneRoom :
    (∀ s, (exchange oneByte oneRoom).Reachable s → ¬s.Stuck oneByte oneRoom) ∧
      ¬∀ s, (exchange threeBytes oneRoom).Reachable s → ¬s.Stuck threeBytes oneRoom := by
  have hroom : 0 < oneRoom.up := Nat.one_pos
  have hone : 0 < oneByte.messages := Nat.one_pos
  have hthree : 0 < threeBytes.messages := Nat.one_pos
  exact ⟨(exchange_deadlock_free_iff hone hroom hroom).mpr (by decide),
    mt (exchange_deadlock_free_iff hthree hroom hroom).mp (by decide)⟩

end ConcurrentServers.Exchange

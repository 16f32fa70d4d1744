import ConcurrentServers.Exchange.Streams

/-!
# What a session exchanges

What the client has sent and received makes up the two streams of the server,
together with what is on the wires, and the stream of the server is the reply that
the protocol gives. So every echo is the expected one, and neither side sees the
other one leave too early. Each step is described once, by what it puts on a wire
and takes off the other one and by how far it gets.
-/

namespace ConcurrentServers.Exchange

open Systems
open Loadgen (Conn Job Control RecvExact request expected)
open Protocol (Connection SendAll)

/-! ## The invariant -/

def Session.received (s : Session) : List UInt8 := s.server.elim [] Connection.received

def Session.accepted (s : Session) : List UInt8 := s.server.elim [] Connection.accepted

structure Session.Sound (job : Job) (s : Session) : Prop where
  books : s.client.Books job
  regular : Regular job s.client.control
  connected : Connected s.client
  clean : s.client.errors = 0 ∧ s.client.mismatches = 0
  genuine : ∀ v, s.server = some v → Protocol.serveConnection.Reachable v
  upward : s.received ++ s.up = sentStream job s.client.control
  downward : gotStream job s.client.control ++ s.down = s.accepted
  ended : ∀ v r, s.server = some v → v.result = some r →
    r = .serveOk ∧ s.client.control = .returned ∧ s.up = []

variable {job : Job} {rooms : Rooms} {s t : Session} {v : Connection}

theorem Session.Sound.received_due (h : s.Sound job) :
    Frame.reply s.received <+: Frame.reply (sentStream job s.client.control) := by
  apply Frame.reply_prefix
  exact ⟨s.up, h.upward⟩

theorem Session.Sound.accepted_due (h : s.Sound job) :
    s.accepted <+: Frame.reply s.received := by
  unfold Session.accepted Session.received
  cases hv : s.server with
  | none => exact List.nil_prefix
  | some v =>
      have hfollows := Protocol.reachable_follows (h.genuine v hv)
      exact hfollows.accepted_prefix

/-- Nothing but the reply to what was sent comes back. -/
theorem Session.Sound.got_due (h : s.Sound job) :
    gotStream job s.client.control ++ s.down <+:
      Frame.reply (sentStream job s.client.control) := by
  rw [h.downward]
  exact h.accepted_due.trans h.received_due

/-- A server that has returned has seen the client leave. -/
theorem Session.Sound.not_serverReturned (h : s.Sound job)
    (hc : s.client.control ≠ .returned) : s.serverReturned = false := by
  unfold Session.serverReturned
  by_contra hreturned
  obtain ⟨r, hr⟩ := Option.isSome_iff_exists.mp (Bool.not_eq_false _ ▸ hreturned)
  obtain ⟨v, hv, hr⟩ := Option.bind_eq_some_iff.mp hr
  exact hc (h.ended v r hv hr).2.1

/-! ## Steps of the client -/

theorem recvPermits_cases {wire : List UInt8} {r : SysResult (List UInt8)}
    (h : recvPermits wire false r = true) :
    r = .error .eintr ∨ ∃ data, data ≠ [] ∧ r = .ok data ∧ data <+: wire := by
  cases r with
  | error e =>
      left
      rw [of_decide_eq_true h]
  | ok data =>
      cases data with
      | nil => simp [recvPermits] at h
      | cons b data => exact Or.inr ⟨b :: data, by simp, rfl, List.isPrefixOf_iff_prefix.mp h⟩

theorem sendPermits_cases {room : ℕ} {wire : List UInt8} {r : SysResult ℕ}
    (h : sendPermits room wire false r = true) :
    r = .error .eintr ∨ ∃ n, 0 < n ∧ wire.length + n ≤ room ∧ r = .ok n := by
  cases r with
  | error e =>
      left
      simpa [sendPermits] using h
  | ok n =>
      obtain ⟨hpos, hroom⟩ := Bool.and_eq_true_iff.mp h
      exact Or.inr ⟨n, of_decide_eq_true hpos, of_decide_eq_true hroom, rfl⟩

/-- The steps that a client is away from its first byte. -/
def toGo : Control → ℕ
  | .unborn => 5
  | .connecting => 4
  | .arriving _ => 3
  | .waiting _ => 2
  | .passed _ => 1
  | _ => 0

theorem toGo_head_lt (job : Job) (m : ℕ) {n : ℕ} (hn : 0 < n) : toGo (job.head m) < 0 + 0 + n := by
  have hzero : toGo (job.head m) = 0 := by
    unfold Job.head
    split <;> rfl
  omega

/-- A client gets on: it puts `out` on one wire and takes `inn` off the other one, or comes
closer to its first byte. -/
structure ClientAdvance (job : Job) (s : Session) (c : Conn) (out inn : List UInt8) : Prop where
  regular : Regular job c.control
  connected : Connected c
  clean : c.errors = 0 ∧ c.mismatches = 0
  sent : sentStream job c.control = sentStream job s.client.control ++ out
  got : gotStream job c.control = gotStream job s.client.control ++ inn
  taken : inn <+: s.down
  work : toGo c.control < toGo s.client.control + out.length + inn.length

theorem Session.Sound.afterClient (h : s.Sound job) {a : Loadgen.Answer} {c : Conn}
    (hc : job.step s.client a = some c)
    (hadvance : ClientAdvance job s c (clientPuts s.client a) (clientGets a)) :
    (s.afterClient a c).Sound job := by
  have hstays : s.client.control ≠ .returned := by
    intro hreturned
    rw [Loadgen.step_returned hreturned] at hc
    cases hc
  refine ⟨h.books.moves (Loadgen.moves_of_step hc), hadvance.regular, hadvance.connected,
    hadvance.clean, h.genuine, ?_, ?_, ?_⟩
  · change s.received ++ (s.up ++ clientPuts s.client a) = sentStream job c.control
    rw [hadvance.sent, ← h.upward, List.append_assoc]
  · obtain ⟨rest, hrest⟩ := hadvance.taken
    change gotStream job c.control ++ s.down.drop (clientGets a).length = s.accepted
    rw [hadvance.got, ← h.downward, ← hrest, List.drop_left, List.append_assoc]
  · intro v r hv hr
    exact absurd (h.ended v r hv hr).2.1 hstays

/-- The client waits for the acknowledgement, and nothing else can arrive. -/
theorem Session.Sound.ack_eq (h : s.Sound job) {k : RecvExact}
    (hk : s.client.control = .recvAck k) {data : List UInt8} (hdata : data ≠ [])
    (hdown : data <+: s.down) : data = ['*'.toUInt8] := by
  have hregular := h.regular
  have hdue := h.got_due
  rw [hk] at hregular hdue
  change k.got ++ s.down <+: ['*'.toUInt8] at hdue
  rw [hregular.2, List.nil_append] at hdue
  have hone := hdown.trans hdue
  have hlength := hone.length_le
  apply hone.eq_of_length
  have hpos := List.length_pos_iff.mpr hdata
  change data.length ≤ 1 at hlength
  change data.length = 1
  omega

/-- What arrives for a request is the expected echo. -/
theorem Session.Sound.echo_due (h : s.Sound job) {m : ℕ} {k : RecvExact}
    (hk : s.client.control = .receiving m k) {data : List UInt8} (hdown : data <+: s.down) :
    k.got ++ data <+: expected job.payloadBytes := by
  have hdue := h.got_due
  rw [hk] at hdue
  change (Frame.reply (requests job m) ++ k.got) ++ s.down <+:
    Frame.reply (requests job (m + 1)) at hdue
  rw [reply_requests_succ, List.append_assoc, List.prefix_append_right_inj] at hdue
  obtain ⟨rest, hrest⟩ := hdown
  rw [← hrest, ← List.append_assoc] at hdue
  exact (List.prefix_append _ rest).trans hdue

theorem Session.Sound.connected_of (h : s.Sound job) (hunborn : s.client.control ≠ .unborn)
    (hconnecting : s.client.control ≠ .connecting) : s.client.connected = true :=
  (h.connected.resolve_left hunborn).resolve_left hconnecting

/-- A step before the first byte. -/
theorem Session.Sound.setup (h : s.Sound job) {c : Conn} (hregular : Regular job c.control)
    (hconnected : Connected c)
    (hclean : c.errors = s.client.errors ∧ c.mismatches = s.client.mismatches)
    (hsent : sentStream job c.control = sentStream job s.client.control)
    (hgot : gotStream job c.control = gotStream job s.client.control)
    (hwork : toGo c.control < toGo s.client.control) : ClientAdvance job s c [] [] where
  regular := hregular
  connected := hconnected
  clean := by
    rw [hclean.1, hclean.2]
    exact h.clean
  sent := hsent.trans (List.append_nil _).symm
  got := hgot.trans (List.append_nil _).symm
  taken := List.nil_prefix
  work := hwork

/-- The client waits for the acknowledgement. -/
theorem Session.Sound.recvAck (h : s.Sound job) {k : RecvExact}
    (hk : s.client.control = .recvAck k) {data : List UInt8} {c : Conn} (hdata : data ≠ [])
    (hdown : data <+: s.down) (hc : job.step s.client (.recv (.ok data)) = some c) :
    ClientAdvance job s c [] data := by
  have hregular := h.regular
  rw [hk] at hregular
  obtain ⟨hlen, hgot⟩ := hregular
  have hack := h.ack_eq hk hdata hdown
  subst hack
  have hround : k.round (.ok ['*'.toUInt8]) = .done ['*'.toUInt8] := by
    simp [RecvExact.round, hgot, hlen]
  have hallows : k.allows (.ok ['*'.toUInt8]) = true := by simp [RecvExact.allows, hgot, hlen]
  simp only [Job.step, Job.stepRecv, hk, hallows, hround, if_true, ne_eq, not_true_eq_false,
    if_false, Option.some.injEq] at hc
  subst hc
  obtain ⟨hsent, hgot'⟩ := streams_head job (Nat.zero_le _)
  have hconnected := h.connected_of (by simp [hk]) (by simp [hk])
  refine ⟨regular_head job 0, connected_of_true hconnected, h.clean, ?_, ?_, hdown, ?_⟩
  · rw [hk]
    exact hsent
  · rw [hk]
    change gotStream job (job.head 0) = k.got ++ _
    rw [hgot', hgot]
    rfl
  · rw [hk]
    exact toGo_head_lt job 0 Nat.one_pos

/-- The client waits for an echo. -/
theorem Session.Sound.receiving (h : s.Sound job) {m : ℕ} {k : RecvExact}
    (hk : s.client.control = .receiving m k) {data : List UInt8} {c : Conn} (hdata : data ≠ [])
    (hdown : data <+: s.down) (hc : job.step s.client (.recv (.ok data)) = some c) :
    ClientAdvance job s c [] data := by
  have hregular := h.regular
  rw [hk] at hregular
  obtain ⟨hm, hlen, hgot⟩ := hregular
  have hconnected := h.connected_of (by simp [hk]) (by simp [hk])
  have hdue := h.echo_due hk hdown
  have hpos := List.length_pos_iff.mpr hdata
  obtain ⟨b, rest, rfl⟩ := List.exists_cons_of_ne_nil hdata
  simp only [Job.step, Job.stepRecv, hk] at hc
  obtain ⟨-, hc⟩ := Option.ite_none_right_eq_some.mp hc
  by_cases hlt : (k.got ++ b :: rest).length < k.len
  · simp only [RecvExact.round, hlt, if_true, Option.some.injEq] at hc
    subst hc
    refine ⟨⟨hm, hlen, hlen ▸ hlt⟩, connected_of_true hconnected, h.clean, ?_, ?_, hdown, ?_⟩
    · simp [hk, sentStream]
    · simp [hk, gotStream]
    · simp [hk, toGo]
  · simp only [RecvExact.round, hlt, if_false, Option.some.injEq] at hc
    subst hc
    -- The echo is complete, so it is all of the expected bytes.
    have hwhole : k.got ++ b :: rest = expected job.payloadBytes := by
      apply hdue.eq_of_length_le
      rw [length_expected]
      omega
    obtain ⟨hsent, hgot'⟩ := streams_head job (Nat.succ_le_of_lt hm)
    refine ⟨regular_head job (m + 1), connected_of_true hconnected, ⟨h.clean.1, ?_⟩, ?_, ?_,
      hdown, ?_⟩
    · change (if _ then _ else _) = 0
      rw [if_neg (not_not.mpr hwhole)]
      exact h.clean.2
    · rw [hk]
      exact hsent.trans (List.append_nil _).symm
    · rw [hk]
      change gotStream job (job.head (m + 1)) = (Frame.reply (requests job m) ++ k.got) ++ _
      rw [hgot', reply_requests_succ, List.append_assoc, hwhole]
    · rw [hk]
      exact toGo_head_lt job (m + 1) hpos

/-- The client sends a request. -/
theorem Session.Sound.sending (h : s.Sound job) {m n : ℕ} {k : SendAll}
    (hk : s.client.control = .sending m k) {c : Conn} (hpos : 0 < n)
    (hc : job.step s.client (.send (.ok n)) = some c) :
    ClientAdvance job s c (k.taken (.ok n)) [] := by
  have hregular := h.regular
  rw [hk] at hregular
  obtain ⟨hm, hbuf, hsent⟩ := hregular
  have hconnected := h.connected_of (by simp [hk]) (by simp [hk])
  simp only [Job.step, Job.stepSend, hk] at hc
  obtain ⟨hreturns, hc⟩ := Option.ite_none_right_eq_some.mp hc
  have hn : n ≤ k.buf.length - k.sent := of_decide_eq_true hreturns
  have htaken : (k.taken (.ok n)).length = n := by
    rw [SendAll.taken, List.length_take, List.length_drop, Nat.min_eq_left hn]
  have htake : (request job.payloadBytes).take (k.sent + n) =
      (request job.payloadBytes).take k.sent ++ k.taken (.ok n) := by
    rw [List.take_add, ← hbuf]
    rfl
  have hwork : 0 < toGo s.client.control + (k.taken (.ok n)).length + ([] : List UInt8).length := by
    rw [htaken]
    exact Nat.lt_of_lt_of_le hpos (Nat.le_add_left _ _)
  by_cases hlt : k.sent + n < k.buf.length
  · simp only [SendAll.round, hlt, if_true, Option.some.injEq] at hc
    subst hc
    refine ⟨⟨hm, hbuf, hlt⟩, connected_of_true hconnected, h.clean, ?_, ?_, List.nil_prefix, hwork⟩
    · rw [hk]
      change requests job m ++ (request job.payloadBytes).take (k.sent + n) =
        (requests job m ++ (request job.payloadBytes).take k.sent) ++ _
      rw [htake, List.append_assoc]
    · simp [hk, gotStream]
  · simp only [SendAll.round, hlt, if_false, Option.some.injEq] at hc
    subst hc
    have hall : (request job.payloadBytes).take (k.sent + n) = request job.payloadBytes := by
      apply List.take_of_length_le
      rw [← hbuf]
      exact Nat.not_lt.mp hlt
    refine ⟨⟨hm, rfl, job.payload_pos⟩, connected_of_true hconnected, h.clean, ?_, ?_,
      List.nil_prefix, hwork⟩
    · rw [hk]
      change requests job (m + 1) = (requests job m ++ (request job.payloadBytes).take k.sent) ++ _
      rw [requests_succ, List.append_assoc, ← htake, hall]
    · simp [hk, gotStream]

theorem afterClient_recv_eintr (s : Session) :
    s.afterClient (.recv (.error .eintr)) s.client = s := by
  unfold Session.afterClient clientPuts clientGets Exchange.received
  rw [List.append_nil]
  rfl

theorem afterClient_send_eintr (s : Session) :
    s.afterClient (.send (.error .eintr)) s.client = s := by
  have hputs : clientPuts s.client (.send (.error .eintr)) = [] := by
    unfold clientPuts
    dsimp only
    split <;> rfl
  unfold Session.afterClient
  rw [hputs, List.append_nil]
  rfl

/-- A `recv` of the client that is not interrupted gets bytes. -/
theorem Session.Sound.client_recv (h : s.Sound job) {r : SysResult (List UInt8)} {c : Conn}
    (hc : job.step s.client (.recv r) = some c) (hstays : s.client.control ≠ .returned)
    (hpermits : s.clientPermits rooms (.recv r) = true) :
    r = .error .eintr ∧ c = s.client ∨ (∃ data, r = .ok data) ∧
      ClientAdvance job s c (clientPuts s.client (.recv r)) (clientGets (.recv r)) := by
  have hc' := hc
  simp only [Session.clientPermits, h.not_serverReturned hstays] at hpermits
  simp only [Job.step, Job.stepRecv] at hc'
  rcases recvPermits_cases hpermits with rfl | ⟨data, hdata, rfl, hdown⟩
  · left
    split at hc'
    · next k hk =>
        cases hc'
        exact ⟨rfl, congrArg (fun control => { s.client with control }) hk.symm⟩
    · next m k hk =>
        cases hc'
        exact ⟨rfl, congrArg (fun control => { s.client with control }) hk.symm⟩
    · cases hc'
  · right
    split at hc'
    · next k hk => exact ⟨⟨data, rfl⟩, h.recvAck hk hdata hdown hc⟩
    · next m k hk => exact ⟨⟨data, rfl⟩, h.receiving hk hdata hdown hc⟩
    · cases hc'

theorem Session.Sound.client_send (h : s.Sound job) {r : SysResult ℕ} {c : Conn}
    (hc : job.step s.client (.send r) = some c) (hstays : s.client.control ≠ .returned)
    (hpermits : s.clientPermits rooms (.send r) = true) :
    r = .error .eintr ∧ c = s.client ∨ (∃ n, r = .ok n) ∧
      ClientAdvance job s c (clientPuts s.client (.send r)) (clientGets (.send r)) := by
  have hc' := hc
  simp only [Session.clientPermits, h.not_serverReturned hstays] at hpermits
  simp only [Job.step, Job.stepSend] at hc'
  split at hc'
  · next m k hk =>
      rcases sendPermits_cases hpermits with rfl | ⟨n, hpos, -, rfl⟩
      · left
        cases hc'
        exact ⟨rfl, congrArg (fun control => { s.client with control }) hk.symm⟩
      · right
        have hputs : clientPuts s.client (.send (.ok n)) = k.taken (.ok n) := by
          simp only [clientPuts, hk]
        rw [hputs]
        exact ⟨⟨n, rfl⟩, h.sending hk hpos hc⟩
  · cases hc'

/-- The answers up to the first byte. -/
def Answer.Early : Loadgen.Answer → Prop
  | .send _ | .recv _ => False
  | _ => True

theorem Session.Sound.client_setup (h : s.Sound job) {a : Loadgen.Answer} {c : Conn}
    (hpermits : s.clientPermits rooms a = true) (hearly : Answer.Early a)
    (hc : job.step s.client a = some c) : ClientAdvance job s c [] [] := by
  have hadvances := Loadgen.advances_of_step hc
  have hregular := h.regular
  generalize hk : s.client.control = k at hadvances hregular
  cases hadvances with
  | starts =>
      refine h.setup trivial (Or.inr (Or.inl rfl)) ⟨rfl, rfl⟩ ?_ ?_ ?_
      all_goals simp [hk, sentStream, gotStream, toGo]
  | connects =>
      refine h.setup hpermits (Or.inr (Or.inr hpermits)) ⟨rfl, rfl⟩ ?_ ?_ ?_
      all_goals simp [hk, sentStream, gotStream, toGo]
  | arrives =>
      have hconnected := h.connected_of (by simp [hk]) (by simp [hk])
      refine h.setup hregular (Or.inr (Or.inr hconnected)) ⟨rfl, rfl⟩ ?_ ?_ ?_
      all_goals simp [hk, sentStream, gotStream, toGo]
  | released =>
      have hconnected := h.connected_of (by simp [hk]) (by simp [hk])
      refine h.setup hregular (Or.inr (Or.inr hconnected)) ⟨rfl, rfl⟩ ?_ ?_ ?_
      all_goals simp [hk, sentStream, gotStream, toGo]
  | unconnected => cases hregular
  | proceeds =>
      have hconnected := h.connected_of (by simp [hk]) (by simp [hk])
      refine h.setup ⟨rfl, rfl⟩ (Or.inr (Or.inr hconnected)) ⟨rfl, rfl⟩ ?_ ?_ ?_
      all_goals simp [hk, sentStream, gotStream, toGo]
  | _ => exact absurd hearly id

/-- Every step of the client is an interruption or gets it on. -/
theorem Session.Sound.client (h : s.Sound job) {a : Loadgen.Answer} {c : Conn}
    (hpermits : s.clientPermits rooms a = true) (hc : job.step s.client a = some c) :
    (Label.client a).interrupted = true ∧ s.afterClient a c = s ∨
      (Label.client a).interrupted = false ∧
        ClientAdvance job s c (clientPuts s.client a) (clientGets a) := by
  have hstays : s.client.control ≠ .returned := by
    intro hreturned
    rw [Loadgen.step_returned hreturned] at hc
    cases hc
  cases a with
  | recv r =>
      rcases h.client_recv hc hstays hpermits with ⟨rfl, rfl⟩ | ⟨⟨data, rfl⟩, hadvance⟩
      · exact Or.inl ⟨rfl, afterClient_recv_eintr s⟩
      · exact Or.inr ⟨rfl, hadvance⟩
  | send r =>
      rcases h.client_send hc hstays hpermits with ⟨rfl, rfl⟩ | ⟨⟨n, rfl⟩, hadvance⟩
      · exact Or.inl ⟨rfl, afterClient_send_eintr s⟩
      · exact Or.inr ⟨rfl, hadvance⟩
  | start | connect | arrive | release | proceed =>
      refine Or.inr ⟨rfl, ?_⟩
      exact h.client_setup hpermits trivial hc

/-! ## Steps of the server -/

theorem Session.received_of (hv : s.server = some v) : s.received = v.received := by
  rw [Session.received, hv]
  rfl

theorem Session.accepted_of (hv : s.server = some v) : s.accepted = v.accepted := by
  rw [Session.accepted, hv]
  rfl

/-- While the server owes bytes, the client has not left. -/
theorem Session.Sound.stays (h : s.Sound job) (hv : s.server = some v) {k : SendAll}
    (howes : k.Owes v.accepted (Frame.reply v.received)) : s.client.control ≠ .returned := by
  intro hc
  have hreceived := h.received_due
  have hdownward := h.downward
  rw [hc, Session.received_of hv, ← howes.split] at hreceived
  rw [hc, Session.accepted_of hv] at hdownward
  have hle := hreceived.length_le
  change _ ≤ (Frame.reply (requests job job.messages)).length at hle
  have hlength := congrArg List.length hdownward
  change (Frame.reply (requests job job.messages) ++ s.down).length = v.accepted.length at hlength
  rw [List.length_append, List.length_drop] at hle
  rw [List.length_append] at hlength
  have hlt := howes.sent_lt
  omega

/-- How far a call is from its end, but for what it has to receive and send. -/
def serverToGo : Option Connection → ℕ
  | none => 2
  | some v =>
      match v.control with
      | .transform len i _ => len - i + 2
      | .returned _ => 0
      | _ => 1

/-- A server gets on. A byte that it takes off the wire is worth three of the steps that
it makes because of it. -/
structure ServerAdvance (s : Session) (v v' : Connection) (out inn : List UInt8) : Prop where
  received : v'.received = v.received ++ inn
  accepted : v'.accepted = v.accepted ++ out
  taken : inn <+: s.up
  ended : ∀ r, v'.result = some r →
    r = .serveOk ∧ s.client.control = .returned ∧ s.up.drop inn.length = []
  work : serverToGo (some v') < serverToGo (some v) + out.length + 3 * inn.length

theorem serverAdvance_of_running {v' : Connection} {out inn : List UInt8}
    (hresult : v'.result = none) (hreceived : v'.received = v.received ++ inn)
    (haccepted : v'.accepted = v.accepted ++ out) (htaken : inn <+: s.up)
    (hwork : serverToGo (some v') < serverToGo (some v) + out.length + 3 * inn.length) :
    ServerAdvance s v v' out inn where
  received := hreceived
  accepted := haccepted
  taken := htaken
  ended r hr := by
    rw [hresult] at hr
    cases hr
  work := hwork

theorem Session.Sound.afterServer (h : s.Sound job) (hv : s.server = some v)
    {a : Protocol.Answer} {v' : Connection} (hv' : v.step a = some v')
    (hadvance : ServerAdvance s v v' (serverPuts v a) (serverGets a)) :
    (s.afterServer v a v').Sound job := by
  refine ⟨h.books, h.regular, h.connected, h.clean, ?_, ?_, ?_, ?_⟩
  · rintro _ ⟨⟩
    exact (h.genuine v hv).step a hv'
  · obtain ⟨rest, hrest⟩ := hadvance.taken
    have hupward := h.upward
    change v'.received ++ s.up.drop (serverGets a).length = sentStream job s.client.control
    rw [Session.received_of hv] at hupward
    rw [hadvance.received, ← hupward, ← hrest, List.drop_left, List.append_assoc]
  · have hdownward := h.downward
    change gotStream job s.client.control ++ (s.down ++ serverPuts v a) = v'.accepted
    rw [Session.accepted_of hv] at hdownward
    rw [hadvance.accepted, ← hdownward, List.append_assoc]
  · rintro _ r ⟨⟩ hr
    exact hadvance.ended r hr

theorem Session.Sound.not_left (h : s.Sound job) (hv : s.server = some v) {k : SendAll}
    (howes : k.Owes v.accepted (Frame.reply v.received)) :
    s.client.control.returns = false := by
  have hc := h.stays hv howes
  cases hk : s.client.control with
  | returned => exact absurd hk hc
  | _ => rfl

/-- A `send` of the server that is not interrupted gets bytes out, and it does not fail. -/
theorem Session.Sound.server_send (h : s.Sound job) (hv : s.server = some v) {k : SendAll}
    (hk : v.control = .sendAck k ∨ v.control = .sendReply k)
    (howes : k.Owes v.accepted (Frame.reply v.received)) {r : SysResult ℕ} {v' : Connection}
    (hpermits : s.serverPermits rooms (.send r) = true) (hv' : v.step (.send r) = some v') :
    r = .error .eintr ∧ v' = v ∨ (∃ n, r = .ok n) ∧ ServerAdvance s v v' (k.taken r) [] := by
  have hmoves := Protocol.moves_of_step hv'
  simp only [Session.serverPermits, h.not_left hv howes] at hpermits
  rcases sendPermits_cases hpermits with rfl | ⟨n, hpos, -, rfl⟩
  · left
    refine ⟨rfl, ?_⟩
    rcases hk with hk | hk
    · simp only [Connection.step, hk, SendAll.allows, SendAll.round, SendAll.taken, if_true,
        List.append_nil, Option.some.injEq] at hv'
      rw [← hv', ← hk]
    · simp only [Connection.step, hk, SendAll.allows, SendAll.round, SendAll.taken, if_true,
        List.append_nil, Option.some.injEq] at hv'
      rw [← hv', ← hk]
  · right
    refine ⟨⟨n, rfl⟩, ?_⟩
    have hlt := howes.sent_lt
    have hone : serverToGo (some v) = 1 := by rcases hk with hk | hk <;> simp [serverToGo, hk]
    have hnot : ∀ e, k.round (.ok n) ≠ .failed e := by
      intro e
      unfold SendAll.round
      dsimp only
      split <;> simp
    have htaken : 0 < (k.taken (.ok n)).length := by
      rw [SendAll.taken, List.length_take, List.length_drop]
      omega
    have hwork : 1 < serverToGo (some v) + (k.taken (.ok n)).length +
        3 * ([] : List UInt8).length := by
      rw [hone, List.length_nil]
      omega
    have hnil : ([] : List UInt8) <+: s.up := List.nil_prefix
    rcases hk with hk | hk
    · rw [hk] at hmoves
      cases hmoves with
      | ackAgain hallow hround =>
          exact serverAdvance_of_running rfl (List.append_nil _).symm rfl hnil hwork
      | ackDone hallow hround =>
          exact serverAdvance_of_running rfl (List.append_nil _).symm rfl hnil hwork
      | ackFailed hallow hround => exact absurd hround (hnot _)
    · rw [hk] at hmoves
      cases hmoves with
      | replyAgain hallow hround =>
          exact serverAdvance_of_running rfl (List.append_nil _).symm rfl hnil hwork
      | replyDone hallow hround =>
          exact serverAdvance_of_running rfl (List.append_nil _).symm rfl hnil hwork
      | replyFailed hallow hround => exact absurd hround (hnot _)

theorem afterServer_recv_eintr (hv : s.server = some v) :
    s.afterServer v (.recv (.error .eintr)) v = s := by
  unfold Session.afterServer serverPuts serverGets Exchange.received
  rw [← hv, List.append_nil]
  rfl

theorem afterServer_send_eintr (hv : s.server = some v) :
    s.afterServer v (.send (.error .eintr)) v = s := by
  have hputs : serverPuts v (.send (.error .eintr)) = [] := by
    unfold serverPuts
    dsimp only
    split <;> rfl
  unfold Session.afterServer
  rw [hputs, ← hv, List.append_nil]
  rfl

theorem server_recv (hk : v.control = .recv)
    {r : SysResult (List UInt8)} {v' : Connection}
    (hpermits : s.serverPermits rooms (.recv r) = true) (hv' : v.step (.recv r) = some v') :
    r = .error .eintr ∧ v' = v ∨
      (∃ data, r = .ok data) ∧ ServerAdvance s v v' [] (serverGets (.recv r)) := by
  have hmoves := Protocol.moves_of_step hv'
  rw [hk] at hmoves
  have hone : serverToGo (some v) = 1 := by simp [serverToGo, hk]
  cases hmoves with
  | interrupted => exact Or.inl ⟨rfl, rfl⟩
  | recvFailed he => exact absurd (of_decide_eq_true hpermits) he
  | closed =>
      right
      obtain ⟨hup, hleft⟩ := Bool.and_eq_true_iff.mp hpermits
      refine ⟨⟨[], rfl⟩, (List.append_nil _).symm, (List.append_nil _).symm, List.nil_prefix,
        ?_, ?_⟩
      · rintro r ⟨⟩
        refine ⟨rfl, ?_, of_decide_eq_true hup⟩
        cases hc : s.client.control with
        | returned => rfl
        | _ =>
            rw [hc] at hleft
            cases hleft
      · rw [hone]
        exact Nat.one_pos
  | @block b data hlen =>
      right
      refine ⟨⟨b :: data, rfl⟩, serverAdvance_of_running rfl rfl (List.append_nil _).symm
        (List.isPrefixOf_iff_prefix.mp hpermits) ?_⟩
      rw [hone]
      simp only [serverToGo, serverGets, Exchange.received, List.length_cons, List.length_nil]
      omega

theorem Session.Sound.server_tick (h : s.Sound job) (hv : s.server = some v) {v' : Connection}
    {len i nsend : ℕ} (hk : v.control = .transform len i nsend)
    (hv' : v.step .tick = some v') : ServerAdvance s v v' [] [] := by
  have hfollows := Protocol.reachable_follows (h.genuine v hv)
  have hmoves := Protocol.moves_of_step hv'
  have htogo : serverToGo (some v) = len - i + 2 := by simp [serverToGo, hk]
  unfold Connection.Follows at hfollows
  rw [hk] at hmoves hfollows
  have hnil : ([] : List UInt8) <+: s.up := List.nil_prefix
  cases hmoves with
  | byte hi =>
      obtain ⟨nsend', hcontrol, -⟩ := Protocol.Transforming.step hfollows hi
      obtain ⟨hreceived, haccepted⟩ := v.transformByte_streams len i nsend
      refine serverAdvance_of_running ?_ (hreceived.trans (List.append_nil _).symm)
        (haccepted.trans (List.append_nil _).symm) hnil ?_
      · rw [Connection.result, hcontrol]
      · rw [htogo]
        simp only [serverToGo, hcontrol, List.length_nil]
        omega
  | reply hi hpos =>
      refine serverAdvance_of_running rfl (List.append_nil _).symm (List.append_nil _).symm hnil ?_
      rw [htogo]
      exact Nat.lt_of_lt_of_le Nat.one_lt_two (Nat.le_add_left _ _)
  | silent hi hzero =>
      refine serverAdvance_of_running rfl (List.append_nil _).symm (List.append_nil _).symm hnil ?_
      rw [htogo]
      exact Nat.lt_of_lt_of_le Nat.one_lt_two (Nat.le_add_left _ _)

/-- Every step of the server is an interruption or gets it on. -/
theorem Session.Sound.server (h : s.Sound job) {a : Protocol.Answer} {v' : Connection}
    (hv : s.server = some v) (hpermits : s.serverPermits rooms a = true)
    (hv' : v.step a = some v') :
    (Label.server a).interrupted = true ∧ s.afterServer v a v' = s ∨
      (Label.server a).interrupted = false ∧
        ServerAdvance s v v' (serverPuts v a) (serverGets a) := by
  have hfollows := Protocol.reachable_follows (h.genuine v hv)
  have hmoves := Protocol.moves_of_step hv'
  unfold Connection.Follows at hfollows
  cases a with
  | send r =>
      have hsends : ∃ k : SendAll, (v.control = .sendAck k ∨ v.control = .sendReply k) ∧
          k.Owes v.accepted (Frame.reply v.received) ∧ serverPuts v (.send r) = k.taken r := by
        cases hk : v.control with
        | sendAck k =>
            rw [hk] at hfollows
            exact ⟨k, Or.inl rfl, hfollows.2, by simp only [serverPuts, hk]⟩
        | sendReply k =>
            rw [hk] at hfollows
            exact ⟨k, Or.inr rfl, hfollows.2, by simp only [serverPuts, hk]⟩
        | _ =>
            rw [hk] at hmoves
            cases hmoves
      obtain ⟨k, hk, howes, hputs⟩ := hsends
      rcases h.server_send hv hk howes hpermits hv' with ⟨rfl, rfl⟩ | ⟨⟨n, rfl⟩, hadvance⟩
      · exact Or.inl ⟨rfl, afterServer_send_eintr hv⟩
      · rw [hputs]
        exact Or.inr ⟨rfl, hadvance⟩
  | recv r =>
      have hk : v.control = .recv := by
        cases hk : v.control with
        | recv => rfl
        | _ =>
            rw [hk] at hmoves
            cases hmoves
      rcases server_recv hk hpermits hv' with ⟨rfl, rfl⟩ | ⟨⟨data, rfl⟩, hadvance⟩
      · exact Or.inl ⟨rfl, afterServer_recv_eintr hv⟩
      · exact Or.inr ⟨rfl, hadvance⟩
  | tick =>
      cases hk : v.control with
      | transform len i nsend => exact Or.inr ⟨rfl, h.server_tick hv hk hv'⟩
      | _ =>
          rw [hk] at hmoves
          cases hmoves

/-! ## Every reachable state -/

theorem Session.Sound.moves (h : s.Sound job) {l : Label} (hm : Moves job rooms s l t) :
    t.Sound job := by
  cases hm with
  | client hpermits hc =>
      rcases h.client hpermits hc with ⟨-, hsame⟩ | ⟨-, hadvance⟩
      · rwa [hsame]
      · exact h.afterClient hc hadvance
  | @enter state recvbuf hnone hconnected =>
      have hreceived : s.received = [] := by rw [Session.received, hnone]; rfl
      have haccepted : s.accepted = [] := by rw [Session.accepted, hnone]; rfl
      refine ⟨h.books, h.regular, h.connected, h.clean, ?_, ?_, ?_, ?_⟩
      · rintro _ ⟨⟩
        exact .init ⟨state, recvbuf, rfl⟩
      · have hupward := h.upward
        rwa [hreceived] at hupward
      · have hdownward := h.downward
        rwa [haccepted] at hdownward
      · rintro _ r ⟨⟩ hr
        cases hr
  | server hv hpermits hv' =>
      rcases h.server hv hpermits hv' with ⟨-, hsame⟩ | ⟨-, hadvance⟩
      · rwa [hsame]
      · exact h.afterServer hv hv' hadvance

theorem sound_start (job : Job) : Session.start.Sound job where
  books := Loadgen.books_blank job
  regular := trivial
  connected := Or.inl rfl
  clean := ⟨rfl, rfl⟩
  genuine := nofun
  upward := rfl
  downward := rfl
  ended := nofun

theorem reachable_sound (h : (exchange job rooms).Reachable s) : s.Sound job := by
  refine Machine.Reachable.invariant (P := Session.Sound job) ?_ ?_ h
  · rintro _ rfl
    exact sound_start job
  · intro s l t _ hsound hs
    exact hsound.moves (moves_of_step hs)

end ConcurrentServers.Exchange

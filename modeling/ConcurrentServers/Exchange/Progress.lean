import ConcurrentServers.Exchange.Safety

/-!
# A session comes to its end

Every call that is not interrupted uses up some of a measure of the work that is
left, and as long as the functions have not both returned some such call is
possible. The client reads nothing while it sends a request, so this needs room on
the wires: what does not fit on the way back has to fit on the way there.
-/

namespace ConcurrentServers.Exchange

open Systems
open Loadgen (Conn Job Control RecvExact request expected)
open Protocol (Connection SendAll)

/-- The payload of a request fits on the two wires. -/
structure Rooms.Fit (rooms : Rooms) (job : Job) : Prop where
  up_pos : 0 < rooms.up
  down_pos : 0 < rooms.down
  fits : job.payloadBytes ≤ rooms.up + rooms.down

variable {job : Job} {rooms : Rooms} {s t : Session} {v : Connection}

/-! ## The work that is left -/

theorem requests_prefix (job : Job) {m n : ℕ} (h : m ≤ n) : requests job m <+: requests job n := by
  induction h with
  | refl => exact List.prefix_rfl
  | step _ ih =>
      rw [requests_succ]
      exact ih.trans (List.prefix_append _ _)

theorem sentStream_due {k : Control} (h : Regular job k) :
    sentStream job k <+: requests job job.messages := by
  cases k with
  | sending m k =>
      have hnext := requests_prefix job (Nat.succ_le_of_lt h.1)
      rw [requests_succ] at hnext
      refine List.IsPrefix.trans ?_ hnext
      exact (List.prefix_append_right_inj _).mpr (List.take_prefix _ _)
  | receiving m k => exact requests_prefix job (Nat.succ_le_of_lt h.1)
  | returned => exact List.prefix_rfl
  | _ => exact List.nil_prefix

/-- The bytes of the whole session, to the server and back. -/
def total (job : Job) : ℕ := (requests job job.messages).length

def totalReply (job : Job) : ℕ := (Frame.reply (requests job job.messages)).length

theorem Session.Sound.lengths (h : s.Sound job) :
    (sentStream job s.client.control).length ≤ total job ∧ s.received.length ≤ total job ∧
      (gotStream job s.client.control).length ≤ totalReply job ∧
      s.accepted.length ≤ totalReply job := by
  have hsent := sentStream_due h.regular
  have hreceived : s.received <+: sentStream job s.client.control := ⟨s.up, h.upward⟩
  have hreply := Frame.reply_prefix hsent
  have hgot := h.got_due.trans hreply
  have haccepted := (h.accepted_due.trans h.received_due).trans hreply
  have hle := hgot.length_le
  rw [List.length_append] at hle
  exact ⟨hsent.length_le, (hreceived.trans hsent).length_le,
    (Nat.le_add_right _ _).trans hle, haccepted.length_le⟩

/-- Every byte is sent and received on each side. -/
def Session.left (job : Job) (s : Session) : ℕ :=
  toGo s.client.control + serverToGo s.server +
    (total job - (sentStream job s.client.control).length) +
    (totalReply job - (gotStream job s.client.control).length) +
    3 * (total job - s.received.length) + (totalReply job - s.accepted.length)

theorem ClientAdvance.left_lt {c : Conn} {a : Loadgen.Answer}
    (hadvance : ClientAdvance job s c (clientPuts s.client a) (clientGets a))
    (ht : (s.afterClient a c).Sound job) : (s.afterClient a c).left job < s.left job := by
  obtain ⟨hsent, -, hgot, -⟩ := ht.lengths
  have hwork := hadvance.work
  change (sentStream job c.control).length ≤ _ at hsent
  change (gotStream job c.control).length ≤ _ at hgot
  change toGo c.control + serverToGo s.server + (total job - (sentStream job c.control).length) +
    (totalReply job - (gotStream job c.control).length) + 3 * (total job - s.received.length) +
    (totalReply job - s.accepted.length) < _
  unfold Session.left
  rw [hadvance.sent, List.length_append] at hsent ⊢
  rw [hadvance.got, List.length_append] at hgot ⊢
  omega

theorem ServerAdvance.left_lt (hv : s.server = some v) {v' : Connection} {a : Protocol.Answer}
    (hadvance : ServerAdvance s v v' (serverPuts v a) (serverGets a))
    (ht : (s.afterServer v a v').Sound job) : (s.afterServer v a v').left job < s.left job := by
  obtain ⟨-, hreceived, -, haccepted⟩ := ht.lengths
  have hwork := hadvance.work
  change v'.received.length ≤ _ at hreceived
  change v'.accepted.length ≤ _ at haccepted
  change toGo s.client.control + serverToGo (some v') +
    (total job - (sentStream job s.client.control).length) +
    (totalReply job - (gotStream job s.client.control).length) +
    3 * (total job - v'.received.length) + (totalReply job - v'.accepted.length) < _
  unfold Session.left
  rw [Session.received_of hv, Session.accepted_of hv, hv]
  rw [hadvance.received, List.length_append] at hreceived ⊢
  rw [hadvance.accepted, List.length_append] at haccepted ⊢
  omega

/-- A step is an interruption, which changes nothing, or there is less to do behind it. -/
theorem Session.Sound.left_lt (h : s.Sound job) {l : Label} (hm : Moves job rooms s l t) :
    l.interrupted = true ∧ t = s ∨ l.interrupted = false ∧ t.left job < s.left job := by
  have ht := h.moves hm
  cases hm with
  | client hpermits hc =>
      rcases h.client hpermits hc with hsame | ⟨hlabel, hadvance⟩
      · exact Or.inl hsame
      · exact Or.inr ⟨hlabel, hadvance.left_lt ht⟩
  | enter hnone hconnected =>
      refine Or.inr ⟨rfl, ?_⟩
      have hreceived : s.received = [] := by rw [Session.received, hnone]; rfl
      have haccepted : s.accepted = [] := by rw [Session.accepted, hnone]; rfl
      unfold Session.left
      rw [hreceived, haccepted, hnone]
      simp only [serverToGo, Session.received, Session.accepted, Connection.entry,
        Option.elim_some, List.length_nil]
      omega
  | server hv hpermits hv' =>
      rcases h.server hv hpermits hv' with hsame | ⟨hlabel, hadvance⟩
      · exact Or.inl hsame
      · exact Or.inr ⟨hlabel, hadvance.left_lt hv ht⟩

/-! ## Calls that return -/

theorem clientStep_of {a : Loadgen.Answer} {c : Conn} (hpermits : s.clientPermits rooms a = true)
    (hc : job.step s.client a = some c) :
    s.clientStep job rooms a = some (s.afterClient a c) := by
  rw [Session.clientStep, if_pos hpermits, hc]
  rfl

theorem serverStep_of {a : Protocol.Answer} {v' : Connection} (hv : s.server = some v)
    (hpermits : s.serverPermits rooms a = true) (hv' : v.step a = some v') :
    s.serverStep rooms a = some (s.afterServer v a v') := by
  rw [Session.serverStep, hv, Option.bind_some, if_pos hpermits, hv']
  rfl

theorem server_ticks (rooms : Rooms) (hv : s.server = some v) {len i nsend : ℕ}
    (hk : v.control = .transform len i nsend) : ∃ t, s.serverStep rooms .tick = some t := by
  have hpermits : s.serverPermits rooms .tick = true := rfl
  unfold Session.serverStep
  rw [hv, Option.bind_some, if_pos hpermits]
  simp only [Connection.step, hk]
  split
  · exact ⟨_, rfl⟩
  · split <;> exact ⟨_, rfl⟩

theorem server_sends (hv : s.server = some v) {k : SendAll}
    (hk : v.control = .sendAck k ∨ v.control = .sendReply k) (hlt : k.sent < k.buf.length)
    (hroom : s.down.length < rooms.down) :
    ∃ t, s.serverStep rooms (.send (.ok 1)) = some t := by
  have hpermits : s.serverPermits rooms (.send (.ok 1)) = true :=
    decide_eq_true hroom
  have hallows : k.allows (.ok 1) = true := decide_eq_true (by omega)
  unfold Session.serverStep
  rw [hv, Option.bind_some, if_pos hpermits]
  rcases hk with hk | hk
  · simp only [Connection.step, hk, hallows, if_true]
    cases k.round (.ok 1) <;> exact ⟨_, rfl⟩
  · simp only [Connection.step, hk, hallows, if_true]
    cases k.round (.ok 1) <;> exact ⟨_, rfl⟩

theorem server_receives (rooms : Rooms) (hv : s.server = some v) (hk : v.control = .recv)
    {b : UInt8} {rest : List UInt8} (hup : s.up = b :: rest) :
    ∃ t, s.serverStep rooms (.recv (.ok [b])) = some t := by
  have hpermits : s.serverPermits rooms (.recv (.ok [b])) = true := by
    change [b].isPrefixOf s.up = true
    rw [hup]
    exact List.isPrefixOf_iff_prefix.mpr ⟨rest, rfl⟩
  unfold Session.serverStep
  rw [hv, Option.bind_some, if_pos hpermits]
  simp only [Connection.step, hk]
  exact ⟨_, rfl⟩

theorem server_ends (rooms : Rooms) (hv : s.server = some v) (hk : v.control = .recv)
    (hup : s.up = []) (hc : s.client.control = .returned) :
    ∃ t, s.serverStep rooms (.recv (.ok [])) = some t := by
  have hpermits : s.serverPermits rooms (.recv (.ok [])) = true := by
    change (decide (s.up = []) && s.client.control.returns) = true
    rw [hup, hc]
    rfl
  unfold Session.serverStep
  rw [hv, Option.bind_some, if_pos hpermits]
  simp only [Connection.step, hk]
  exact ⟨_, rfl⟩

theorem client_receives (job : Job) (rooms : Rooms) {k : RecvExact}
    (hk : s.client.control = .recvAck k ∨ ∃ m, s.client.control = .receiving m k)
    (hgot : k.got.length < k.len) {b : UInt8} {rest : List UInt8} (hdown : s.down = b :: rest) :
    ∃ t, s.clientStep job rooms (.recv (.ok [b])) = some t := by
  have hpermits : s.clientPermits rooms (.recv (.ok [b])) = true := by
    change [b].isPrefixOf s.down = true
    rw [hdown]
    exact List.isPrefixOf_iff_prefix.mpr ⟨rest, rfl⟩
  have hallows : k.allows (.ok [b]) = true := decide_eq_true (by simp; omega)
  unfold Session.clientStep
  rw [if_pos hpermits]
  rcases hk with hk | ⟨m, hk⟩
  · simp only [Job.step, Job.stepRecv, hk, hallows, if_true]
    cases k.round (.ok [b]) with
    | again k' => exact ⟨_, rfl⟩
    | failed => exact ⟨_, rfl⟩
    | done ack =>
        dsimp only
        split <;> exact ⟨_, rfl⟩
  · simp only [Job.step, Job.stepRecv, hk, hallows, if_true]
    cases k.round (.ok [b]) <;> exact ⟨_, rfl⟩

theorem client_sends (job : Job) {m : ℕ} {k : SendAll}
    (hk : s.client.control = .sending m k) (hlt : k.sent < k.buf.length)
    (hroom : s.up.length < rooms.up) :
    ∃ t, s.clientStep job rooms (.send (.ok 1)) = some t := by
  have hpermits : s.clientPermits rooms (.send (.ok 1)) = true := decide_eq_true hroom
  have hreturns : Loadgen.sendReturns k (.ok 1) = true := decide_eq_true (by omega)
  unfold Session.clientStep
  rw [if_pos hpermits]
  simp only [Job.step, Job.stepSend, hk, hreturns, if_true]
  cases k.round (.ok 1) <;> exact ⟨_, rfl⟩

/-! ## Some call returns -/

/-- The client is in a `recv`. -/
def Reads : Control → Prop
  | .recvAck _ | .receiving _ _ => True
  | _ => False

/-- Between its first byte and its last one the client waits only for bytes, or for room. -/
theorem Session.Sound.client_talks (h : s.Sound job) (hbegun : toGo s.client.control = 0)
    (hstays : s.client.control ≠ .returned) (hdown : Reads s.client.control → s.down ≠ [])
    (hup : ∀ m k, s.client.control = .sending m k → s.up.length < rooms.up) :
    ∃ a t, (Label.client a).interrupted = false ∧ s.clientStep job rooms a = some t := by
  have hregular := h.regular
  cases hk : s.client.control with
  | unborn | connecting | arriving | waiting | passed =>
      rw [hk] at hbegun
      cases hbegun
  | recvAck k =>
      rw [hk] at hregular hdown
      obtain ⟨b, rest, hb⟩ := List.exists_cons_of_ne_nil (hdown trivial)
      obtain ⟨t, ht⟩ := client_receives job rooms (Or.inl hk)
        (by rw [hregular.1, hregular.2]; exact Nat.one_pos) hb
      exact ⟨_, t, rfl, ht⟩
  | sending m k =>
      rw [hk] at hregular
      obtain ⟨t, ht⟩ := client_sends job hk hregular.2.2 (hup m k hk)
      exact ⟨_, t, rfl, ht⟩
  | receiving m k =>
      rw [hk] at hregular hdown
      obtain ⟨b, rest, hb⟩ := List.exists_cons_of_ne_nil (hdown trivial)
      obtain ⟨t, ht⟩ := client_receives job rooms (Or.inr ⟨m, hk⟩)
        (by rw [hregular.2.1]; exact hregular.2.2) hb
      exact ⟨_, t, rfl, ht⟩
  | returned => exact absurd hk hstays

/-- A server that owes a byte while the client is sending has read so little of the request
that not all of it can have been sent. -/
theorem Session.Sound.wires_lt (h : s.Sound job) (hv : s.server = some v) {k : SendAll}
    (howes : k.Owes v.accepted (Frame.reply v.received)) {m : ℕ} {k' : SendAll}
    (hk : s.client.control = .sending m k') : s.up.length + s.down.length < job.payloadBytes := by
  have hregular := h.regular
  have hupward := h.upward
  have hdownward := h.downward
  rw [hk] at hregular hupward hdownward
  rw [Session.received_of hv] at hupward
  rw [Session.accepted_of hv] at hdownward
  change Frame.reply (requests job m) ++ s.down = v.accepted at hdownward
  change v.received ++ s.up = requests job m ++ (request job.payloadBytes).take k'.sent at hupward
  obtain ⟨-, hbuf, hsent⟩ := hregular
  rw [hbuf, length_request] at hsent
  have hreply := congrArg List.length howes.split
  have haccepted := congrArg List.length hdownward
  rw [List.length_append, List.length_drop] at hreply
  rw [List.length_append] at haccepted
  have howed := howes.sent_lt
  rcases List.append_eq_append_iff.mp hupward with ⟨as, hrequests, -⟩ | ⟨cs, hreceived, hcs⟩
  · -- A server that has not got to this request owes nothing beyond what the client has.
    have hle := (Frame.reply_prefix (List.prefix_append v.received as)).length_le
    rw [← hrequests] at hle
    omega
  · -- Of the request it has all but what is on the wire.
    have hcs' : cs = (request job.payloadBytes).take cs.length := by
      have hprefix : cs <+: request job.payloadBytes :=
        List.IsPrefix.trans ⟨s.up, hcs.symm⟩ (List.take_prefix _ _)
      exact List.prefix_iff_eq_take.mp hprefix
    have hlength := congrArg List.length hcs
    rw [List.length_append, List.length_take, length_request] at hlength
    rw [hreceived, hcs', reply_requests_take, List.length_append, List.length_take,
      length_expected] at hreply
    omega

/-- The server is idle, so what the client has not got is on the wire. -/
theorem Session.Sound.down_ne_nil (h : s.Sound job) (hv : s.server = some v)
    (haccepted : v.accepted = Frame.reply v.received) (hup : s.up = [])
    (hreads : Reads s.client.control) : s.down ≠ [] := by
  intro hdown
  have hregular := h.regular
  have hupward := h.upward
  have hdownward := h.downward
  rw [hup, List.append_nil, Session.received_of hv] at hupward
  rw [hdown, List.append_nil, Session.accepted_of hv, haccepted, hupward] at hdownward
  have hlength := congrArg List.length hdownward
  cases hk : s.client.control with
  | recvAck k =>
      rw [hk] at hregular hlength
      change k.got.length = 1 at hlength
      rw [hregular.2] at hlength
      cases hlength
  | receiving m k =>
      rw [hk] at hregular hlength
      change (Frame.reply (requests job m) ++ k.got).length =
        (Frame.reply (requests job (m + 1))).length at hlength
      rw [reply_requests_succ, List.length_append, List.length_append, length_expected] at hlength
      have hlt := hregular.2.2
      omega
  | _ =>
      rw [hk] at hreads
      exact hreads

/-- A session with a server is over, or the client has yet to begin, or one of the two can
make a call. -/
theorem Session.Sound.served_progress (h : s.Sound job) (hfit : rooms.Fit job)
    (hv : s.server = some v) :
    s.Final ∨ 0 < toGo s.client.control ∨
      (∃ a t, (Label.server a).interrupted = false ∧ s.serverStep rooms a = some t) ∨
      ∃ a t, (Label.client a).interrupted = false ∧ s.clientStep job rooms a = some t := by
  have hfollows := Protocol.reachable_follows (h.genuine v hv)
  unfold Connection.Follows at hfollows
  rcases Nat.eq_zero_or_pos (toGo s.client.control) with hbegun | hsetup
  case inr => exact Or.inr (Or.inl hsetup)
  have howing : ∀ k : SendAll, (v.control = .sendAck k ∨ v.control = .sendReply k) →
      k.Owes v.accepted (Frame.reply v.received) →
      (∃ a t, (Label.server a).interrupted = false ∧ s.serverStep rooms a = some t) ∨
        ∃ a t, (Label.client a).interrupted = false ∧ s.clientStep job rooms a = some t := by
    intro k hk howes
    by_cases hroom : s.down.length < rooms.down
    · obtain ⟨t, ht⟩ := server_sends hv hk howes.sent_lt hroom
      exact Or.inl ⟨_, t, rfl, ht⟩
    · right
      have hdown : s.down ≠ [] := by
        have hpos := hfit.down_pos
        exact List.ne_nil_of_length_pos (by omega)
      refine h.client_talks hbegun (h.stays hv howes) (fun _ => hdown) fun m k' hc => ?_
      have hlt := h.wires_lt hv howes hc
      have hfits := hfit.fits
      omega
  cases hk : v.control with
  | sendAck k =>
      rw [hk] at hfollows
      exact Or.inr (Or.inr (howing k (Or.inl hk) hfollows.2))
  | sendReply k =>
      rw [hk] at hfollows
      exact Or.inr (Or.inr (howing k (Or.inr hk) hfollows.2))
  | transform len i nsend =>
      obtain ⟨t, ht⟩ := server_ticks rooms hv hk
      exact Or.inr (Or.inr (Or.inl ⟨_, t, rfl, ht⟩))
  | recv =>
      rw [hk] at hfollows
      refine Or.inr (Or.inr ?_)
      cases hup : s.up with
      | cons b rest =>
          obtain ⟨t, ht⟩ := server_receives rooms hv hk hup
          exact Or.inl ⟨_, t, rfl, ht⟩
      | nil =>
          by_cases hc : s.client.control = .returned
          · obtain ⟨t, ht⟩ := server_ends rooms hv hk hup hc
            exact Or.inl ⟨_, t, rfl, ht⟩
          · right
            refine h.client_talks hbegun hc (h.down_ne_nil hv hfollows.2 hup) fun _ _ _ => ?_
            rw [hup]
            exact hfit.up_pos
  | returned r =>
      have hresult : v.result = some r := by rw [Connection.result, hk]
      exact Or.inl ⟨(h.ended v r hv hresult).2.1, v, r, hv, hresult⟩

/-- Addresses of which the first one accepts. -/
def accepting : Option (List Loadgen.Attempt) :=
  some [⟨.ok 3, .ok (), .ok (), .ok (), .ok 0, .ok 0, .ok ()⟩]

theorem client_sets_up (rooms : Rooms) (hregular : Regular job s.client.control)
    (hsetup : 0 < toGo s.client.control) :
    ∃ a t, (Label.client a).interrupted = false ∧ s.clientStep job rooms a = some t := by
  cases hk : s.client.control with
  | unborn => exact ⟨.start, _, rfl, clientStep_of rfl (by simp only [Job.step, hk]; rfl)⟩
  | connecting =>
      exact ⟨.connect accepting, _, rfl, clientStep_of rfl (by simp only [Job.step, hk]; rfl)⟩
  | arriving fd => exact ⟨.arrive, _, rfl, clientStep_of rfl (by simp only [Job.step, hk]; rfl)⟩
  | waiting fd => exact ⟨.release, _, rfl, clientStep_of rfl (by simp only [Job.step, hk]; rfl)⟩
  | passed fd =>
      rw [hk] at hregular
      obtain ⟨fd, rfl⟩ := Option.isSome_iff_exists.mp hregular
      exact ⟨.proceed, _, rfl, clientStep_of rfl (by simp only [Job.step, hk]; rfl)⟩
  | _ =>
      rw [hk] at hsetup
      cases hsetup

theorem Session.Sound.progress (h : s.Sound job) (hfit : rooms.Fit job) :
    s.Final ∨ ∃ l t, l.interrupted = false ∧ s.step job rooms l = some t := by
  by_cases hsetup : 0 < toGo s.client.control
  · obtain ⟨a, t, ha, ht⟩ := client_sets_up rooms h.regular hsetup
    exact Or.inr ⟨.client a, t, ha, ht⟩
  · cases hv : s.server with
    | none =>
        have hconnected : s.client.connected = true := by
          refine h.connected_of ?_ ?_ <;> intro hk <;> exact hsetup (by rw [hk]; decide)
        have hguard : (s.server.isNone && s.client.connected) = true := by
          rw [hv, hconnected]
          rfl
        exact Or.inr ⟨.enter .waitForMsg (.replicate _ 0), _, rfl, if_pos hguard⟩
    | some v =>
        rcases h.served_progress hfit hv with hfinal | hsetup' | ⟨a, t, ha, ht⟩ | ⟨a, t, ha, ht⟩
        · exact Or.inl hfinal
        · exact absurd hsetup' hsetup
        · exact Or.inr ⟨.server a, t, ha, ht⟩
        · exact Or.inr ⟨.client a, t, ha, ht⟩

/-! ## Whole sessions -/

theorem length_requests (job : Job) (m : ℕ) :
    (requests job m).length = m * (job.payloadBytes + 2) := by
  induction m with
  | zero => rw [Nat.zero_mul]; rfl
  | succ m ih => rw [requests_succ, List.length_append, ih, length_request, Nat.succ_mul]

theorem length_reply_requests (job : Job) (m : ℕ) :
    (Frame.reply (requests job m)).length = m * job.payloadBytes + 1 := by
  induction m with
  | zero => rw [Nat.zero_mul]; rfl
  | succ m ih =>
      rw [reply_requests_succ, List.length_append, ih, length_expected, Nat.succ_mul]
      omega

theorem left_start (job : Job) :
    Session.start.left job = job.messages * (6 * job.payloadBytes + 8) + 9 := by
  have htotal : total job = job.messages * (job.payloadBytes + 2) := length_requests job _
  have hreply : totalReply job = job.messages * job.payloadBytes + 1 := length_reply_requests job _
  change 5 + 2 + (total job - 0) + (totalReply job - 0) + 3 * (total job - 0) +
    (totalReply job - 0) = _
  rw [htotal, hreply]
  ring_nf
  omega

/-- Every request was echoed as the protocol says, `serve_connection` has returned
`SERVE_OK`, and nothing is left on the wires. -/
structure Session.Completed (job : Job) (s : Session) : Prop where
  returned : s.client.control = .returned
  clean : s.client.errors = 0 ∧ s.client.mismatches = 0
  echoes : s.client.echoes =
    List.replicate job.messages (Frame.transform (request job.payloadBytes))
  served : ∃ v, s.server = some v ∧ v.result = some .serveOk ∧
    v.received = requests job job.messages
  wires : s.up = [] ∧ s.down = []

theorem Session.Sound.completed (h : s.Sound job) (hfinal : s.Final) : s.Completed job := by
  obtain ⟨hreturned, v, r, hv, hr⟩ := hfinal
  obtain ⟨rfl, -, hup⟩ := h.ended v r hv hr
  have hupward := h.upward
  have hdue := h.got_due
  rw [hup, List.append_nil, Session.received_of hv, hreturned] at hupward
  rw [hreturned] at hdue
  have hdown : s.down = [] := by
    have hle := hdue.length_le
    change (Frame.reply (requests job job.messages) ++ s.down).length ≤
      (Frame.reply (requests job job.messages)).length at hle
    rw [List.length_append] at hle
    exact List.length_eq_zero_iff.mp (by omega)
  exact ⟨hreturned, h.clean, (h.books.right_iff hreturned).mpr h.clean, ⟨v, hv, hr, hupward⟩,
    hup, hdown⟩

/-- If the payload of a request fits on the wires, a session never gets stuck. However its
calls are interleaved and cut short, it has only so many of them, and it ends with every
echo as it should be. -/
theorem exchange_completes (hfit : rooms.Fit job) {ls : List Label}
    (hrun : (exchange job rooms).run .start ls = some s) :
    ls.countP (fun l => !l.interrupted) ≤ job.messages * (6 * job.payloadBytes + 8) + 9 ∧
      (s.Completed job ∨
        ¬s.Final ∧ ∃ l t, l.interrupted = false ∧ (exchange job rooms).step s l = some t) := by
  have hreachable := Machine.reachable_of_run ls (M := exchange job rooms) rfl hrun
  have hsound := reachable_sound hreachable
  refine ⟨?_, ?_⟩
  · have hcount := Machine.countP_le_of_run (Session.left job) (fun l => !l.interrupted)
      (P := Session.Sound job) (fun s l t hs ht => ?_) (sound_start job) hrun
    · rw [left_start] at hcount
      exact (Nat.le_add_left _ _).trans hcount
    · refine ⟨hs.moves (moves_of_step ht), ?_⟩
      rcases hs.left_lt (moves_of_step ht) with ⟨hl, rfl⟩ | ⟨hl, hlt⟩
      · simp [hl]
      · simpa [hl] using hlt
  · by_cases hfinal : s.Final
    · exact Or.inl (hsound.completed hfinal)
    · exact Or.inr ⟨hfinal, (hsound.progress hfit).resolve_left hfinal⟩

/-- One message of one byte, with room for one byte each way. -/
def oneByte : Job := Loadgen.twoConnections.toJob

def oneRoom : Rooms := ⟨1, 1⟩

/-- A whole session. Each side is interrupted once. -/
def oneByteRun : List Label :=
  [.client .start, .client (.connect accepting), .enter .waitForMsg (.replicate _ 0),
    .server (.send (.ok 1)), .client .arrive, .client .release, .client .proceed,
    .client (.recv (.error .eintr)), .client (.recv (.ok ['*'.toUInt8])),
    .client (.send (.ok 1)), .server (.recv (.ok ['^'.toUInt8])), .server .tick, .server .tick,
    .client (.send (.ok 1)), .server (.recv (.ok ['a'.toUInt8])), .server .tick, .server .tick,
    .client (.send (.ok 1)), .server (.send (.error .eintr)), .server (.send (.ok 1)),
    .client (.recv (.ok ['b'.toUInt8])), .server (.recv (.ok ['$'.toUInt8])), .server .tick,
    .server .tick, .server (.recv (.ok []))]

theorem exchange_completes_oneByte :
    ∃ s, (exchange oneByte oneRoom).run .start oneByteRun = some s ∧ s.Completed oneByte := by
  obtain ⟨s, hrun, hreturned, v, r, hv, hr⟩ : ∃ s, (exchange oneByte oneRoom).run .start
      oneByteRun = some s ∧ s.Final := ⟨_, rfl, rfl, _, _, rfl, rfl⟩
  have hfit : oneRoom.Fit oneByte := ⟨by decide, by decide, by decide⟩
  refine ⟨s, hrun, ?_⟩
  rcases (exchange_completes hfit hrun).2 with hcompleted | ⟨hnot, -⟩
  · exact hcompleted
  · exact absurd ⟨hreturned, v, r, hv, hr⟩ hnot

end ConcurrentServers.Exchange

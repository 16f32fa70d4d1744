import ConcurrentServers.Exchange.Progress
import ConcurrentServers.Protocol.Requests

/-!
# What the two sides count

`serve_connection` counts the blocks that `recv` returns, and the client the echoes that
it has got. The kernel cuts the stream as it likes, but the client sends the next request
only when it has the whole echo. So no block holds the ends of two payloads, and the
server never counts less than the client.
-/

namespace ConcurrentServers.Exchange

open Systems
open Loadgen (Conn Job Control request expected)
open Protocol (Connection)

variable {job : Job} {rooms : Rooms} {s t : Session} {v : Connection}

/-- The calls of `metrics_request_observed`. -/
def Session.observed (s : Session) : ℕ := s.server.elim 0 Connection.observed

/-- A block is being served that is not counted yet. -/
def Session.serving (s : Session) : ℕ := s.server.elim 0 fun v => v.control.serving

/-- The payloads that end within the first `n` bytes of the requests. -/
def payloads (job : Job) (n : ℕ) : ℕ := (n + 1) / (job.payloadBytes + 2)

theorem payloads_mono (job : Job) {m n : ℕ} (h : m ≤ n) : payloads job m ≤ payloads job n :=
  Nat.div_le_div_right (Nat.succ_le_succ h)

theorem payloads_zero (job : Job) : payloads job 0 = 0 := Nat.div_eq_of_lt (by omega)

/-- The last byte of a request is behind its payload. -/
theorem payloads_requests (job : Job) (m : ℕ) :
    payloads job (m * (job.payloadBytes + 2)) = m := by
  unfold payloads
  rw [Nat.add_comm, Nat.add_mul_div_right _ _ (Nat.succ_pos _), Nat.div_eq_of_lt (by omega),
    Nat.zero_add]

/-! ## The client is at most one request ahead -/

theorem Session.Sound.completed_le (h : s.Sound job) : s.client.completed ≤ job.messages := by
  have hstage := h.books.stage
  cases hk : s.client.control with
  | sending m k | receiving m k =>
      obtain ⟨hcompleted, -, hlt⟩ := hstage.message m (by rw [hk]; rfl)
      omega
  | returned =>
      have htotal := (hstage.returned hk).1
      omega
  | _ =>
      rw [(hstage.setup (by rw [hk]; trivial)).1]
      exact Nat.zero_le _

/-- What has been sent goes beyond the echoes by one request, and what has been received
covers them. -/
theorem Session.Sound.rounds (h : s.Sound job) :
    (sentStream job s.client.control).length ≤
        (s.client.completed + 1) * (job.payloadBytes + 2) ∧
      (s.client.completed = 0 ∨
        s.client.completed * job.payloadBytes + 1 ≤ (gotStream job s.client.control).length) := by
  have hstage := h.books.stage
  have hregular := h.regular
  cases hk : s.client.control with
  | sending m k =>
      rw [hk] at hregular
      obtain ⟨-, hbuf, hsent⟩ := hregular
      rw [hbuf, length_request] at hsent
      obtain ⟨rfl, -, -⟩ := hstage.message m (by rw [hk]; rfl)
      refine ⟨?_, Or.inr (length_reply_requests job _).ge⟩
      change (requests job _ ++ (request job.payloadBytes).take k.sent).length ≤ _
      rw [List.length_append, length_requests, List.length_take, length_request, Nat.succ_mul]
      omega
  | receiving m k =>
      obtain ⟨rfl, -, -⟩ := hstage.message m (by rw [hk]; rfl)
      refine ⟨(length_requests job _).le, Or.inr ?_⟩
      change _ ≤ (Frame.reply (requests job _) ++ k.got).length
      rw [List.length_append, length_reply_requests]
      exact Nat.le_add_right _ _
  | returned =>
      rw [(hstage.returned hk).2 h.clean.1]
      refine ⟨?_, Or.inr (length_reply_requests job _).ge⟩
      rw [Nat.succ_mul]
      exact (length_requests job _).le.trans (Nat.le_add_right _ _)
  | _ =>
      rw [(hstage.setup (by rw [hk]; trivial)).1]
      exact ⟨Nat.zero_le _, Or.inl rfl⟩

/-- A server that has replied to `m` payloads has received them. -/
theorem le_payloads {received : List UInt8} (hdue : received <+: requests job job.messages) {m : ℕ}
    (hm : m ≤ job.messages)
    (hreply : m * job.payloadBytes + 1 ≤ (Frame.reply received).length) :
    m ≤ payloads job received.length := by
  cases m with
  | zero => exact Nat.zero_le _
  | succ m =>
      apply (Nat.le_div_iff_mul_le (show 0 < job.payloadBytes + 2 by omega)).mpr
      by_contra hshort
      -- All of the last payload but one byte, at most.
      have hnext := requests_prefix job hm
      rw [requests_succ] at hnext
      have hcut : requests job m ++ (request job.payloadBytes).take job.payloadBytes <+:
          requests job job.messages :=
        List.IsPrefix.trans ((List.prefix_append_right_inj _).mpr (List.take_prefix _ _)) hnext
      have hlength : (requests job m ++
          (request job.payloadBytes).take job.payloadBytes).length =
            m * (job.payloadBytes + 2) + job.payloadBytes := by
        rw [List.length_append, length_requests, List.length_take, length_request]
        omega
      rw [Nat.succ_mul] at hshort hreply
      have hprefix := List.prefix_of_prefix_length_le hdue hcut (by rw [hlength]; omega)
      have hle := (Frame.reply_prefix hprefix).length_le
      rw [reply_requests_take, List.length_append, length_reply_requests, List.length_take,
        length_expected] at hle
      have hpos := job.payload_pos
      omega

theorem Session.Sound.completed_le_payloads (h : s.Sound job) :
    s.client.completed ≤ payloads job s.received.length := by
  rcases h.rounds.2 with hzero | hgot
  · rw [hzero]
    exact Nat.zero_le _
  · have hdue : s.received <+: requests job job.messages :=
      List.IsPrefix.trans ⟨s.up, h.upward⟩ (sentStream_due h.regular)
    refine le_payloads hdue h.completed_le (hgot.trans ?_)
    have hgot' : gotStream job s.client.control <+: s.accepted := ⟨s.down, h.downward⟩
    exact (hgot'.trans h.accepted_due).length_le

/-- The bytes on the wire hold the end of at most one payload. -/
theorem Session.Sound.payloads_sent_le (h : s.Sound job) :
    payloads job (s.received ++ s.up).length ≤ payloads job s.received.length + 1 := by
  rw [h.upward]
  calc payloads job (sentStream job s.client.control).length
      ≤ payloads job ((s.client.completed + 1) * (job.payloadBytes + 2)) :=
        payloads_mono job h.rounds.1
    _ = s.client.completed + 1 := payloads_requests job _
    _ ≤ payloads job s.received.length + 1 := Nat.succ_le_succ h.completed_le_payloads

/-! ## Blocks -/

/-- A step counts every block, unless the call fails. -/
theorem observed_of_step {v' : Connection} {a : Protocol.Answer} (hs : v.step a = some v')
    (hended : ∀ r, v'.result = some r → r = .serveOk) :
    v'.observed + v'.control.serving =
      v.observed + v.control.serving + a.block.length := by
  by_cases hreturns : v'.control.Returns
  · obtain ⟨r, hr⟩ := hreturns
    have hok : v'.control = .returned .serveOk := by
      rw [hr, hended r (by rw [Connection.result, hr])]
    have hmoves := Protocol.moves_of_step hs
    generalize hk : v.control = k at hmoves
    cases hmoves with
    | closed => rfl
    | ackFailed | replyFailed | recvFailed =>
        simp only [Protocol.Control.returned.injEq, Protocol.classifyErrno] at hok
        split at hok <;> cases hok
    | byte hi =>
        obtain ⟨_, _, _, heq⟩ := Protocol.exists_transformByte_eq v _ _ _
        rw [heq] at hok
        cases hok
    | interrupted =>
        rw [hk] at hok
        cases hok
    | _ => cases hok
  · exact (Protocol.counts_step hs).observed hreturns

structure Session.Counted (job : Job) (s : Session) : Prop where
  payloads_le : payloads job s.received.length ≤ s.observed + s.serving
  le_received : s.observed + s.serving ≤ s.received.length

theorem Session.Counted.of_server (h : s.Counted job) (ht : t.server = s.server) :
    t.Counted job := by
  have hreceived : t.received = s.received := by rw [Session.received, ht]; rfl
  have hobserved : t.observed = s.observed := by rw [Session.observed, ht]; rfl
  have hserving : t.serving = s.serving := by rw [Session.serving, ht]; rfl
  refine ⟨?_, ?_⟩ <;> rw [hreceived, hobserved, hserving]
  · exact h.payloads_le
  · exact h.le_received

theorem counted_of_nil (hreceived : s.received = []) (hobserved : s.observed + s.serving = 0) :
    s.Counted job := by
  refine ⟨?_, ?_⟩
  · rw [hreceived, List.length_nil, payloads_zero]
    exact Nat.zero_le _
  · rw [hobserved]
    exact Nat.zero_le _

theorem block_cases (a : Protocol.Answer) : a.block = [] ∨ ∃ b data, a.block = [b :: data] := by
  unfold Protocol.Answer.block
  split
  · exact Or.inr ⟨_, _, rfl⟩
  · exact Or.inl rfl

/-- A block is counted once, and holds the end of at most one payload. -/
theorem Session.Counted.server (h : s.Counted job) (hsound : s.Sound job)
    (hv : s.server = some v) {a : Protocol.Answer} {v' : Connection} (hv' : v.step a = some v')
    (hadvance : ServerAdvance s v v' (serverPuts v a) (serverGets a)) :
    (s.afterServer v a v').Counted job := by
  have hobserved := observed_of_step hv' fun r hr => (hadvance.ended r hr).1
  have hreceived := (Protocol.counts_step hv').received
  have hsent := hsound.payloads_sent_le
  obtain ⟨hle, hge⟩ := h
  simp only [Session.received_of hv, Session.observed, Session.serving, hv, Option.elim_some]
    at hle hge hsent
  suffices hboth : payloads job v'.received.length ≤ v'.observed + v'.control.serving ∧
      v'.observed + v'.control.serving ≤ v'.received.length from ⟨hboth.1, hboth.2⟩
  rcases block_cases a with hnone | ⟨b, data, hblock⟩
  · rw [hnone, List.flatten_nil, List.append_nil] at hreceived
    rw [hnone, List.length_nil, Nat.add_zero] at hobserved
    rw [hreceived, hobserved]
    exact ⟨hle, hge⟩
  · rw [hblock, List.length_singleton] at hobserved
    have hpast : v'.received.length ≤ (v.received ++ s.up).length := by
      rw [hadvance.received, List.length_append, List.length_append]
      exact Nat.add_le_add_left hadvance.taken.length_le _
    have hmono := payloads_mono job hpast
    have hlonger : v.received.length + 1 ≤ v'.received.length := by
      rw [hreceived, hblock, List.flatten_singleton, List.length_append, List.length_cons]
      omega
    omega

theorem Session.Counted.moves (h : s.Counted job) (hsound : s.Sound job) {l : Label}
    (hm : Moves job rooms s l t) : t.Counted job := by
  cases hm with
  | client hpermits hc => exact h.of_server rfl
  | enter hnone hconnected => exact counted_of_nil rfl rfl
  | server hv hpermits hv' =>
      rcases hsound.server hv hpermits hv' with ⟨-, hsame⟩ | ⟨-, hadvance⟩
      · rwa [hsame]
      · exact h.server hsound hv hv' hadvance

theorem reachable_counted (h : (exchange job rooms).Reachable s) : s.Counted job := by
  refine Machine.Reachable.invariant (P := Session.Counted job) ?_ ?_ h
  · rintro _ rfl
    exact counted_of_nil rfl rfl
  · intro s l t hreach hcounted hs
    exact hcounted.moves (reachable_sound hreach) (moves_of_step hs)

/-- At no time has the client got more echoes than the server has blocks. -/
theorem completed_le_observed (h : (exchange job rooms).Reachable s) :
    s.client.completed ≤ s.observed + s.serving :=
  (reachable_sound h).completed_le_payloads.trans (reachable_counted h).payloads_le

/-- The requests that the server has counted when a session is over. -/
theorem Session.Completed.observed_bounds (hcompleted : s.Completed job)
    (h : (exchange job rooms).Reachable s) :
    job.messages ≤ s.observed ∧ s.observed ≤ job.messages * (job.payloadBytes + 2) := by
  obtain ⟨v, hv, hresult, hreceived⟩ := hcompleted.served
  obtain ⟨hle, hge⟩ := reachable_counted h
  have hidle : s.serving = 0 := by
    rw [Session.serving, hv]
    change v.control.serving = 0
    unfold Connection.result at hresult
    split at hresult
    · next hk => rw [hk]; rfl
    · cases hresult
  rw [Session.received_of hv, hreceived, length_requests, hidle, Nat.add_zero] at hle hge
  rw [payloads_requests] at hle
  exact ⟨hle, hge⟩

end ConcurrentServers.Exchange

import ConcurrentServers.PeerState.Consume

/-!
# Bounds of the send buffer under any sequence of calls

The write in `peer_consume` has no bounds check. It is safe because the cursors
keep one invariant under all four operations, whether or not a caller respects
their contracts: either output is pending inside the buffer, or both cursors
are zero. In the second case the whole buffer is room, in the first there is
none, so no block that passes the length check can overrun.
-/

namespace ConcurrentServers

open Systems

namespace PeerState

/-- Output is pending inside the buffer, or both cursors are zero. -/
def Bounded (peer : PeerState) : Prop :=
  peer.sendptr < peer.sendbufEnd ∧ peer.sendbufEnd ≤ sendbufSize ∨
    peer.sendptr = 0 ∧ peer.sendbufEnd = 0

theorem Bounded.sendptr_le {peer : PeerState} (h : peer.Bounded) :
    peer.sendptr ≤ peer.sendbufEnd := by
  rcases h with h | h <;> omega

theorem Bounded.sendbufEnd_le {peer : PeerState} (h : peer.Bounded) :
    peer.sendbufEnd ≤ sendbufSize := by
  rcases h with h | h
  · exact h.2
  · rw [h.2]
    exact Nat.zero_le _

/-- There is room only when nothing is pending, and then it is the whole
buffer. -/
theorem Bounded.recvRoom_pos {peer : PeerState} (h : peer.Bounded) (hroom : 0 < peer.recvRoom) :
    peer.state ≠ .initialAck ∧ peer.sendptr = 0 ∧ peer.sendbufEnd = 0 ∧
      peer.recvRoom = sendbufSize := by
  have hcond : ¬(peer.state = .initialAck ∨ peer.sendptr < peer.sendbufEnd) := by
    intro hc
    simp [recvRoom, hc] at hroom
  obtain ⟨hstate, hlt⟩ := not_or.mp hcond
  rcases h with h | h
  · exact absurd h.1 hlt
  · refine ⟨hstate, h.1, h.2, ?_⟩
    simp [recvRoom, hstate, h.1, h.2]

theorem Bounded.recvRoom_eq {peer : PeerState} (h : peer.Bounded) :
    peer.recvRoom = 0 ∨ peer.recvRoom = sendbufSize := by
  rcases Nat.eq_zero_or_pos peer.recvRoom with hz | hpos
  · exact Or.inl hz
  · exact Or.inr (h.recvRoom_pos hpos).2.2.2

/-- A block that fits the room runs through the loop without the early return.
An empty block does not enter the loop, which is the only block that fits when
the acknowledgement is still pending. -/
theorem Bounded.consumeLoop_ok {peer : PeerState} (h : peer.Bounded) {data : List UInt8}
    (hroom : data.length ≤ peer.recvRoom) :
    ∃ l, peer.consumeLoop data = .ok l ∧
      (data = [] ∧ l = ⟨peer, false, []⟩ ∨
        0 < peer.recvRoom ∧ ConsumeLoop.Fed ⟨peer, false, []⟩ data l) := by
  cases data with
  | nil => exact ⟨_, rfl, Or.inl ⟨rfl, rfl⟩⟩
  | cons c data =>
      have hpos : 0 < peer.recvRoom := (Nat.succ_pos _).trans_le hroom
      obtain ⟨hstate, hptr, hend, hfull⟩ := h.recvRoom_pos hpos
      obtain ⟨l, hl, hfed⟩ := foldlM_fed ⟨peer, false, []⟩ (c :: data) hstate
        (by simp [hptr, hend]) (by simpa [hend, hfull] using hroom)
      exact ⟨l, hl, Or.inr ⟨hpos, hfed⟩⟩

/-! ## Each operation keeps the bounds -/

theorem bounded_onConnected (peer : PeerState) : peer.onConnected.1.Bounded := by
  left
  simp [onConnected, sendbufSize]

theorem Bounded.closeWith {peer : PeerState} (h : peer.Bounded) (reason : Reason) :
    (peer.closeWith reason).1.Bounded := h

theorem sent_of_lt {peer : PeerState} {n : ℕ}
    (h : (peer.sendptr + n) % 2 ^ 64 < peer.sendbufEnd) :
    peer.sent n = ({ peer with sendptr := (peer.sendptr + n) % 2 ^ 64 }, fdStatusW) :=
  if_pos h

theorem sent_of_not_lt {peer : PeerState} {n : ℕ}
    (h : ¬(peer.sendptr + n) % 2 ^ 64 < peer.sendbufEnd) :
    peer.sent n = ({ peer with
      sendptr := 0
      sendbufEnd := 0
      state := if peer.state = .initialAck then .waitForMsg else peer.state }, fdStatusR) :=
  if_neg h

theorem Bounded.sent {peer : PeerState} (h : peer.Bounded) (n : ℕ) :
    (peer.sent n).1.Bounded := by
  by_cases hlt : (peer.sendptr + n) % 2 ^ 64 < peer.sendbufEnd
  · rw [sent_of_lt hlt]
    exact Or.inl ⟨hlt, h.sendbufEnd_le⟩
  · rw [sent_of_not_lt hlt]
    exact Or.inr ⟨rfl, rfl⟩

theorem Bounded.of_fed {peer : PeerState} {data : List UInt8} {l : ConsumeLoop}
    (h : peer.Bounded) (hpos : 0 < peer.recvRoom) (hroom : data.length ≤ peer.recvRoom)
    (hfed : ConsumeLoop.Fed ⟨peer, false, []⟩ data l) : l.peer.Bounded := by
  obtain ⟨_, hptr, hend, hfull⟩ := h.recvRoom_pos hpos
  have hle := Frame.machine.length_output_le Frame.length_emit_le peer.state.mode data
  have hend' : l.peer.sendbufEnd = (Frame.machine.output peer.state.mode data).length := by
    simpa [hend] using hfed.sendbufEnd
  have hptr' : l.peer.sendptr = 0 := hfed.sendptr.trans hptr
  rcases Nat.eq_zero_or_pos l.peer.sendbufEnd with hz | hp
  · exact Or.inr ⟨hptr', hz⟩
  · exact Or.inl ⟨by omega, by omega⟩

theorem Bounded.consume {peer : PeerState} (h : peer.Bounded) (data : List UInt8) :
    (peer.consume data).1.Bounded := by
  rcases Nat.lt_or_ge peer.recvRoom data.length with hlt | hroom
  · rw [consume_of_lt hlt]
    exact h.closeWith _
  · obtain ⟨l, hl, hcase⟩ := h.consumeLoop_ok hroom
    rw [consume_of_ok hroom hl]
    rcases hcase with ⟨_, rfl⟩ | ⟨hpos, hfed⟩
    · exact h
    · exact h.of_fed hpos hroom hfed

/-! ## Any sequence of calls -/

/-- The calls of the pure core, with arguments that need not respect the
contracts in the header. -/
inductive Call where
  | onConnected
  | consume (data : List UInt8)
  | sent (n : ℕ)
  | fail (reason : Reason)

def call (peer : PeerState) : Call → PeerState × FdStatus
  | .onConnected => peer.onConnected
  | .consume data => peer.consume data
  | .sent n => peer.sent n
  | .fail reason => peer.closeWith reason

theorem Bounded.call {peer : PeerState} (h : peer.Bounded) (c : Call) :
    (peer.call c).1.Bounded := by
  cases c with
  | onConnected => exact bounded_onConnected peer
  | consume data => exact h.consume data
  | sent n => exact h.sent n
  | fail reason => exact h.closeWith reason

/-- The indices of `sendbuf` that a call writes. -/
def callWrites (peer : PeerState) : Call → List ℕ
  | .onConnected => [0]
  | .consume data =>
      if data.length > peer.recvRoom then []
      else
        match peer.consumeLoop data with
        | .ok l => l.writes
        | .error l => l.writes
  | .sent _ => []
  | .fail _ => []

/-- Whether a call runs into the `INITIAL_ACK` case of the loop. -/
def entersAckCase (peer : PeerState) : Call → Bool
  | .consume data =>
      decide (data.length ≤ peer.recvRoom) &&
        match peer.consumeLoop data with
        | .ok _ => false
        | .error _ => true
  | _ => false

theorem Bounded.callWrites_lt {peer : PeerState} (h : peer.Bounded) (c : Call) :
    ∀ i ∈ peer.callWrites c, i < sendbufSize := by
  intro i hi
  cases c with
  | onConnected =>
      rw [List.mem_singleton.mp hi]
      decide
  | sent n => cases hi
  | fail reason => cases hi
  | consume data =>
      rcases Nat.lt_or_ge peer.recvRoom data.length with hlt | hroom
      · simp [callWrites, hlt] at hi
      · obtain ⟨l, hl, hcase⟩ := h.consumeLoop_ok hroom
        have hi' : i ∈ l.writes := by simpa [callWrites, Nat.not_lt.mpr hroom, hl] using hi
        rcases hcase with ⟨_, rfl⟩ | ⟨hpos, hfed⟩
        · cases hi'
        · -- The written indices are consecutive from zero, one for each byte of output.
          obtain ⟨_, _, hend, hfull⟩ := h.recvRoom_pos hpos
          have hle := Frame.machine.length_output_le Frame.length_emit_le peer.state.mode data
          have hrange : i ∈ List.range' peer.sendbufEnd
              (Frame.machine.output peer.state.mode data).length := by
            simpa [hfed.writes] using hi'
          have hlast := (List.mem_range'_1.mp hrange).2
          omega

theorem Bounded.not_entersAckCase {peer : PeerState} (h : peer.Bounded) (c : Call) :
    peer.entersAckCase c = false := by
  cases c with
  | onConnected => rfl
  | sent n => rfl
  | fail reason => rfl
  | consume data =>
      rcases Nat.lt_or_ge peer.recvRoom data.length with hlt | hroom
      · simp [entersAckCase, Nat.not_le.mpr hlt]
      · obtain ⟨l, hl, _⟩ := h.consumeLoop_ok hroom
        simp [entersAckCase, hl]

end PeerState

namespace PeerTable

def call (t : PeerTable) (sockfd : ℕ) : PeerState.Call → PeerTable × FdStatus
  | .onConnected => peerOnConnected t sockfd
  | .consume data => peerConsume t sockfd data
  | .sent n => peerSent t sockfd n
  | .fail reason => peerFail t sockfd reason

def calls (t : PeerTable) (sockfd : ℕ) (cs : List PeerState.Call) : PeerTable :=
  cs.foldl (fun t c => (t.call sockfd c).1) t

theorem call_peers (t : PeerTable) (sockfd : ℕ) (c : PeerState.Call) :
    (t.call sockfd c).1.peers sockfd = ((t.peers sockfd).call c).1 := by
  cases c <;> exact modify_same _ _ _

theorem calls_bounded {t : PeerTable} {sockfd : ℕ} (h : (t.peers sockfd).Bounded)
    (cs : List PeerState.Call) : ((t.calls sockfd cs).peers sockfd).Bounded := by
  induction cs generalizing t with
  | nil => exact h
  | cons c cs ih =>
      apply ih
      rw [call_peers]
      exact h.call c

end PeerTable

/-- After `peer_on_connected` and any calls whatever on the same descriptor,
the cursors are in bounds and the room is nothing or everything. Whatever call
comes next, it writes inside `sendbuf` and does not reach the `INITIAL_ACK`
case, and a block beyond the room changes only the close reason. -/
theorem peer_core_safe (t : PeerTable) (sockfd : ℕ) (cs : List PeerState.Call) :
    let t' := (peerOnConnected t sockfd).1.calls sockfd cs
    let peer := t'.peers sockfd
    (peer.sendptr < peer.sendbufEnd ∧ peer.sendbufEnd ≤ 1024 ∨
      peer.sendptr = 0 ∧ peer.sendbufEnd = 0) ∧
    (peerRecvRoom t' sockfd = 0 ∨ peerRecvRoom t' sockfd = 1024) ∧
    (∀ c, ∀ i ∈ peer.callWrites c, i < 1024) ∧
    (∀ c, peer.entersAckCase c = false) ∧
    ∀ data : List UInt8, peerRecvRoom t' sockfd < data.length →
      ∃ reason, (peerConsume t' sockfd data).1 = { t' with
        peers := Function.update t'.peers sockfd { peer with closeReason := some reason } } := by
  intro t' peer
  have hconn : ((peerOnConnected t sockfd).1.peers sockfd).Bounded := by
    rw [peerOnConnected, PeerTable.modify_same]
    exact PeerState.bounded_onConnected _
  have hpeer : peer.Bounded := PeerTable.calls_bounded hconn cs
  refine ⟨hpeer, hpeer.recvRoom_eq, hpeer.callWrites_lt, hpeer.not_entersAckCase, ?_⟩
  intro data hlt
  refine ⟨.text "internal error: consume beyond available room", ?_⟩
  have hconsume : peer.consume data = _ := PeerState.consume_of_lt hlt
  simp only [peerConsume, PeerTable.modify, PeerState.closeWith] at hconsume ⊢
  rw [hconsume]

end ConcurrentServers

import ConcurrentServers.PeerState.Stream

/-!
# What a verdict says about the peer

The event loops act on the verdict of a call and never look into the buffer.
`Agrees` is what makes this right: a verdict to write comes with pending bytes,
and a verdict to read comes with room and nothing pending. Every call on a peer
that was itself read or written on such a verdict returns one, or a close.
-/

namespace ConcurrentServers

open Systems

namespace PeerState

/-- In bounds, and with the acknowledgement pending as long as its phase lasts. -/
structure Live (peer : PeerState) : Prop where
  bounded : peer.Bounded
  ack_pending : peer.state = .initialAck → peer.sendptr < peer.sendbufEnd

structure Agrees (peer : PeerState) (status : FdStatus) : Prop where
  write_or_read : status = fdStatusW ∧ peer.pending ≠ [] ∨
    status = fdStatusR ∧ peer.pending = [] ∧ 0 < peer.recvRoom

theorem Live.recvRoom_of_pending_nil {peer : PeerState} (h : peer.Live)
    (hnil : peer.pending = []) : peer.recvRoom = sendbufSize := by
  have hlt := h.bounded.pending_eq_nil_iff.mp hnil
  have hstate : peer.state ≠ .initialAck := fun hs => hlt (h.ack_pending hs)
  rcases h.bounded with hb | hb
  · exact absurd hb.1 hlt
  · simp [recvRoom, hstate, hb.1, hb.2]

theorem Bounded.pending_of_recvRoom_pos {peer : PeerState} (h : peer.Bounded)
    (hroom : 0 < peer.recvRoom) : peer.pending = [] := by
  obtain ⟨_, hptr, hend, _⟩ := h.recvRoom_pos hroom
  apply h.pending_eq_nil_iff.mpr
  omega

theorem Live.agrees_of_nil {peer : PeerState} (h : peer.Live) (hnil : peer.pending = []) :
    peer.Agrees fdStatusR := by
  refine ⟨Or.inr ⟨rfl, hnil, ?_⟩⟩
  rw [h.recvRoom_of_pending_nil hnil]
  decide

theorem agrees_of_ne_nil {peer : PeerState} (hne : peer.pending ≠ []) :
    peer.Agrees fdStatusW :=
  ⟨Or.inl ⟨rfl, hne⟩⟩

/-! ## The calls of the pure core -/

theorem live_onConnected (peer : PeerState) : peer.onConnected.1.Live :=
  ⟨bounded_onConnected peer, fun _ => Nat.zero_lt_one⟩

theorem agrees_onConnected (peer : PeerState) :
    peer.onConnected.1.Agrees peer.onConnected.2 := by
  apply agrees_of_ne_nil
  rw [pending_onConnected]
  simp

theorem Live.closeWith {peer : PeerState} (h : peer.Live) (reason : Reason) :
    (peer.closeWith reason).1.Live :=
  ⟨h.bounded, h.ack_pending⟩

theorem Live.sent {peer : PeerState} (h : peer.Live) (n : ℕ) : (peer.sent n).1.Live := by
  refine ⟨h.bounded.sent n, ?_⟩
  by_cases hlt : (peer.sendptr + n) % 2 ^ 64 < peer.sendbufEnd
  · rw [sent_of_lt hlt]
    exact fun _ => hlt
  · rw [sent_of_not_lt hlt]
    intro hstate
    by_cases hack : peer.state = .initialAck <;> simp [hack] at hstate

theorem Live.agrees_sent {peer : PeerState} (h : peer.Live) (n : ℕ) :
    (peer.sent n).1.Agrees (peer.sent n).2 := by
  have hlive := h.sent n
  have hiff := hlive.bounded.pending_eq_nil_iff
  by_cases hlt : (peer.sendptr + n) % 2 ^ 64 < peer.sendbufEnd
  · rw [sent_of_lt hlt] at hiff ⊢
    apply agrees_of_ne_nil
    intro hnil
    exact hiff.mp hnil hlt
  · rw [sent_of_not_lt hlt] at hlive hiff ⊢
    apply hlive.agrees_of_nil
    exact hiff.mpr (lt_irrefl 0)

theorem Live.consume {peer : PeerState} (h : peer.Live) {data : List UInt8}
    (hpos : 0 < peer.recvRoom) (hroom : data.length ≤ peer.recvRoom) :
    (peer.consume data).1.Live ∧ (peer.consume data).1.Agrees (peer.consume data).2 := by
  obtain ⟨l, hl, hcase⟩ := h.bounded.consumeLoop_ok hroom
  rcases hcase with ⟨rfl, rfl⟩ | ⟨_, hfed⟩
  · rw [consume_nil]
    exact ⟨h, h.agrees_of_nil (h.bounded.pending_of_recvRoom_pos hpos)⟩
  · obtain ⟨_, hptr, hend, _⟩ := h.bounded.recvRoom_pos hpos
    have hlive : l.peer.Live :=
      ⟨h.bounded.of_fed hpos hroom hfed, fun hs => absurd hs hfed.state_ne⟩
    have hout : l.peer.pending = Frame.machine.output peer.state.mode data := by
      rw [hlive.bounded.pending_eq, hfed.sendptr, hfed.slice]
      simp [hptr, hend]
    have hready : l.readyToSend = !l.peer.pending.isEmpty := by
      rw [hout]
      simpa using hfed.ready
    rw [consume_of_ok hroom hl]
    refine ⟨hlive, ?_⟩
    -- The flag is set exactly when the block produced output.
    cases hp : l.peer.pending with
    | nil =>
        have hstatus : (⟨!l.readyToSend, l.readyToSend⟩ : FdStatus) = fdStatusR := by
          simp [hready, hp, fdStatusR]
        rw [hstatus]
        exact hlive.agrees_of_nil hp
    | cons b bs =>
        have hstatus : (⟨!l.readyToSend, l.readyToSend⟩ : FdStatus) = fdStatusW := by
          simp [hready, hp, fdStatusW]
        rw [hstatus]
        exact agrees_of_ne_nil (by simp [hp])

/-! ## The readiness wrappers -/

/-- `recv` does not return more than it was asked for. -/
def AllowsRecv (peer : PeerState) (r : SysResult (List UInt8)) : Prop :=
  ∀ data, r = .ok data → data.length ≤ peer.want

instance (peer : PeerState) (r : SysResult (List UInt8)) : Decidable (peer.AllowsRecv r) :=
  match r with
  | .ok data => decidable_of_iff (data.length ≤ peer.want)
      ⟨fun h _ hd => Except.ok.inj hd ▸ h, fun h => h data rfl⟩
  | .error _ => isTrue nofun

/-- On a peer with room, the read handler closes or returns a verdict that
agrees with the peer it leaves. -/
theorem Live.onReadyRecv {peer : PeerState} (h : peer.Live) (hpos : 0 < peer.recvRoom)
    {r : SysResult (List UInt8)} (hr : peer.AllowsRecv r) :
    (peer.onReadyRecv r).1.Live ∧ ((peer.onReadyRecv r).2 = fdStatusNORW ∨
      (peer.onReadyRecv r).1.Agrees (peer.onReadyRecv r).2) := by
  have hne : peer.recvRoom ≠ 0 := Nat.pos_iff_ne_zero.mp hpos
  have hnil := h.bounded.pending_of_recvRoom_pos hpos
  cases r with
  | error e =>
      by_cases hagain : e = .eintr ∨ e = .eagain ∨ e = .ewouldblock
      · have heq : peer.onReadyRecv (.error e) = (peer, fdStatusR) := by
          simp only [PeerState.onReadyRecv, hne, if_false, hagain, if_true]
        rw [heq]
        exact ⟨h, Or.inr (h.agrees_of_nil hnil)⟩
      · have heq : ∃ reason, peer.onReadyRecv (.error e) = peer.closeWith reason := by
          by_cases hreset : e = .econnreset
          · refine ⟨.text "peer reset", ?_⟩
            simp only [PeerState.onReadyRecv, if_neg hne, if_neg hagain, if_pos hreset]
          · refine ⟨.strerror e, ?_⟩
            simp only [PeerState.onReadyRecv, if_neg hne, if_neg hagain, if_neg hreset]
        obtain ⟨reason, heq⟩ := heq
        rw [heq]
        exact ⟨h.closeWith reason, Or.inl rfl⟩
  | ok data =>
      cases data with
      | nil =>
          have heq : peer.onReadyRecv (.ok []) = peer.closeWith (.text "peer closed") := by
            simp only [PeerState.onReadyRecv, hne, if_false]
          rw [heq]
          exact ⟨h.closeWith _, Or.inl rfl⟩
      | cons b data =>
          have heq : peer.onReadyRecv (.ok (b :: data)) = peer.consume (b :: data) := by
            simp only [PeerState.onReadyRecv, hne, if_false]
          rw [heq]
          have hlen := hr _ rfl
          have hwant : peer.want ≤ peer.recvRoom := by
            unfold want
            split <;> omega
          obtain ⟨hlive, hagrees⟩ := h.consume hpos (hlen.trans hwant)
          exact ⟨hlive, Or.inr hagrees⟩

theorem Live.onReadySend {peer : PeerState} (h : peer.Live) (hne : peer.pending ≠ [])
    (r : SysResult ℕ) :
    (peer.onReadySend r).1.Live ∧ ((peer.onReadySend r).2 = fdStatusNORW ∨
      (peer.onReadySend r).1.Agrees (peer.onReadySend r).2) := by
  have hlen : peer.pending.length ≠ 0 := fun hz => hne (List.length_eq_zero_iff.mp hz)
  cases r with
  | error e =>
      by_cases hagain : e = .eintr ∨ e = .eagain ∨ e = .ewouldblock
      · have heq : peer.onReadySend (.error e) = (peer, fdStatusW) := by
          simp only [PeerState.onReadySend, hlen, if_false, hagain, if_true]
        rw [heq]
        exact ⟨h, Or.inr (agrees_of_ne_nil hne)⟩
      · have heq : ∃ reason, peer.onReadySend (.error e) = peer.closeWith reason := by
          by_cases hreset : e = .econnreset ∨ e = .epipe
          · refine ⟨.text "peer reset", ?_⟩
            simp only [PeerState.onReadySend, if_neg hlen, if_neg hagain, if_pos hreset]
          · refine ⟨.strerror e, ?_⟩
            simp only [PeerState.onReadySend, if_neg hlen, if_neg hagain, if_neg hreset]
        obtain ⟨reason, heq⟩ := heq
        rw [heq]
        exact ⟨h.closeWith reason, Or.inl rfl⟩
  | ok n =>
      have heq : peer.onReadySend (.ok n) = peer.sent n := by
        simp only [PeerState.onReadySend, hlen, if_false]
      rw [heq]
      exact ⟨h.sent n, Or.inr (h.agrees_sent n)⟩

end PeerState

end ConcurrentServers

import ConcurrentServers.PeerState.Bounds
import ConcurrentServers.Library.Machine

/-!
# The reply stream of one peer

A caller that respects the contracts hands over chunks that fit the room and
drains at most what is pending. `Tracks` ties the cursors, the buffer and the
parser state to everything that was consumed and drained so far. Every call
keeps it, so after any interleaving of chunks and partial drains the drained
bytes followed by the pending ones are the reply to the consumed stream.
-/

namespace ConcurrentServers

open Systems

namespace PeerState

theorem Bounded.pending_eq {peer : PeerState} (h : peer.Bounded) :
    peer.pending = Buffer.slice peer.sendbuf peer.sendptr peer.sendbufEnd := by
  rcases h with ⟨hlt, _⟩ | ⟨hptr, hend⟩
  · simp [pending, Nat.not_le.mpr hlt]
  · simp [pending, hptr, hend]

theorem Bounded.length_pending {peer : PeerState} (h : peer.Bounded) :
    peer.pending.length = peer.sendbufEnd - peer.sendptr := by
  rw [h.pending_eq, Buffer.length_slice _ h.sendbufEnd_le]

theorem Bounded.pending_eq_nil_iff {peer : PeerState} (h : peer.Bounded) :
    peer.pending = [] ↔ ¬peer.sendptr < peer.sendbufEnd := by
  rw [← List.length_eq_zero_iff, h.length_pending]
  omega

theorem pending_onConnected (peer : PeerState) : peer.onConnected.1.pending = [Frame.ack] := by
  rw [(bounded_onConnected peer).pending_eq]
  simpa [onConnected] using Buffer.slice_store_succ peer.sendbuf Frame.ack (le_refl 0) (by decide)

/-- A drain within the pending bytes does not wrap the cursor and removes
exactly the drained bytes. -/
theorem Bounded.pending_sent {peer : PeerState} (h : peer.Bounded) {n : ℕ}
    (hn : n ≤ peer.pending.length) : (peer.sent n).1.pending = peer.pending.drop n := by
  have hlen := h.length_pending
  have hle := h.sendptr_le
  have hend := h.sendbufEnd_le
  have hsize : sendbufSize < 2 ^ 64 := by decide
  have hmod : (peer.sendptr + n) % 2 ^ 64 = peer.sendptr + n := Nat.mod_eq_of_lt (by omega)
  rw [(h.sent n).pending_eq, h.pending_eq]
  by_cases hlt : peer.sendptr + n < peer.sendbufEnd
  · rw [sent_of_lt (hmod.symm ▸ hlt), hmod]
    simp [Buffer.slice, List.drop_drop]
  · rw [sent_of_not_lt (hmod.symm ▸ hlt)]
    have hdrop : (Buffer.slice peer.sendbuf peer.sendptr peer.sendbufEnd).drop n = [] := by
      apply List.drop_eq_nil_of_le
      rw [Buffer.length_slice _ hend]
      omega
    rw [hdrop]
    exact Buffer.slice_self _ _

/-- `peer` has consumed the stream `consumed`, and `drained` was taken from its
output. -/
structure Tracks (peer : PeerState) (consumed drained : List UInt8) : Prop where
  bounded : peer.Bounded
  stream : drained ++ peer.pending = Frame.reply consumed
  mode : peer.state.mode = Frame.machine.state .outside consumed

theorem Tracks.drained_eq {peer : PeerState} {consumed drained : List UInt8}
    (h : peer.Tracks consumed drained) (hnil : peer.pending = []) :
    drained = Frame.reply consumed := by
  have hstream := h.stream
  rwa [hnil, List.append_nil] at hstream

theorem tracks_onConnected (peer : PeerState) : peer.onConnected.1.Tracks [] [] where
  bounded := bounded_onConnected peer
  stream := by
    rw [pending_onConnected]
    rfl
  mode := rfl

theorem Tracks.sent {peer : PeerState} {consumed drained : List UInt8}
    (h : peer.Tracks consumed drained) {n : ℕ} (hn : n ≤ peer.pending.length) :
    (peer.sent n).1.Tracks consumed (drained ++ peer.pending.take n) where
  bounded := h.bounded.sent n
  stream := by
    rw [h.bounded.pending_sent hn, List.append_assoc, List.take_append_drop]
    exact h.stream
  mode := by
    rw [← h.mode]
    by_cases hlt : (peer.sendptr + n) % 2 ^ 64 < peer.sendbufEnd
    · rw [sent_of_lt hlt]
    · -- Leaving the acknowledgement phase does not move the framing machine.
      rw [sent_of_not_lt hlt]
      cases peer.state <;> rfl

theorem Tracks.closeWith {peer : PeerState} {consumed drained : List UInt8}
    (h : peer.Tracks consumed drained) (reason : Reason) :
    (peer.closeWith reason).1.Tracks consumed drained :=
  ⟨h.bounded, h.stream, h.mode⟩

theorem Tracks.consume {peer : PeerState} {consumed drained : List UInt8}
    (h : peer.Tracks consumed drained) {data : List UInt8}
    (hroom : data.length ≤ peer.recvRoom) :
    (peer.consume data).1.Tracks (consumed ++ data) drained := by
  obtain ⟨l, hl, hcase⟩ := h.bounded.consumeLoop_ok hroom
  rw [consume_of_ok hroom hl]
  rcases hcase with ⟨rfl, rfl⟩ | ⟨hpos, hfed⟩
  · simpa using h
  · have hbounded := h.bounded.of_fed hpos hroom hfed
    obtain ⟨_, hptr, hend, _⟩ := h.bounded.recvRoom_pos hpos
    have hnil : peer.pending = [] :=
      h.bounded.pending_eq_nil_iff.mpr (by omega)
    refine ⟨hbounded, ?_, ?_⟩
    · have hout : l.peer.pending = Frame.machine.output peer.state.mode data := by
        rw [hbounded.pending_eq, hfed.sendptr, hfed.slice]
        simp [hptr, hend]
      have hdrained : drained = Frame.reply consumed := by simpa [hnil] using h.stream
      rw [hout, hdrained, h.mode, ← Frame.reply_append]
    · rw [hfed.mode, Transducer.state_append, h.mode]

end PeerState

/-! ## A session that respects the contracts -/

/-- The table, with the bytes that the caller has handed over and taken out
since `peer_on_connected`. -/
structure Session where
  table : PeerTable
  consumed : List UInt8
  drained : List UInt8

inductive SessionCall where
  | consume (chunk : List UInt8)
  | sent (n : ℕ)

def Session.step (sockfd : ℕ) (s : Session) : SessionCall → Option Session
  | .consume chunk =>
      if chunk.length ≤ peerRecvRoom s.table sockfd then
        some { s with
          table := (peerConsume s.table sockfd chunk).1
          consumed := s.consumed ++ chunk }
      else none
  | .sent n =>
      if n ≤ (peerPending s.table sockfd).length then
        some { s with
          table := (peerSent s.table sockfd n).1
          drained := s.drained ++ (peerPending s.table sockfd).take n }
      else none

/-- Sessions on one descriptor, after any earlier history of the table. -/
def session (sockfd : ℕ) : Machine Session SessionCall where
  init s := ∃ t, s = ⟨(peerOnConnected t sockfd).1, [], []⟩
  step := Session.step sockfd

theorem Session.step_tracks {sockfd : ℕ} {s s' : Session} {c : SessionCall}
    (h : (s.table.peers sockfd).Tracks s.consumed s.drained)
    (hs : s.step sockfd c = some s') :
    (s'.table.peers sockfd).Tracks s'.consumed s'.drained := by
  cases c with
  | consume chunk =>
      obtain ⟨hroom, rfl⟩ : chunk.length ≤ peerRecvRoom s.table sockfd ∧ _ = s' := by
        simpa [Session.step] using hs
      simpa [peerConsume] using h.consume hroom
  | sent n =>
      obtain ⟨hn, rfl⟩ : n ≤ (peerPending s.table sockfd).length ∧ _ = s' := by
        simpa [Session.step] using hs
      simpa [peerSent, peerPending] using h.sent hn

/-- At every point of every session, what was drained followed by what is
pending is `*` and the reply to what was consumed. -/
theorem session_stream {sockfd : ℕ} {s : Session} (h : (session sockfd).Reachable s) :
    s.drained ++ peerPending s.table sockfd =
      '*'.toUInt8 :: Frame.transform s.consumed := by
  have htracks : (s.table.peers sockfd).Tracks s.consumed s.drained := by
    refine Machine.Reachable.invariant
      (P := fun s : Session => (s.table.peers sockfd).Tracks s.consumed s.drained) ?_ ?_ h
    · rintro _ ⟨t, rfl⟩
      simpa [peerOnConnected] using PeerState.tracks_onConnected (t.peers sockfd)
    · intro s c s' _ hs hstep
      exact Session.step_tracks hs hstep
  exact htracks.stream

/-- A stream cut inside a frame, with a drain of a single byte in between. -/
def splitFrame : List SessionCall :=
  [.sent 1, .consume (['x', '^', 'a', 'b'].map Char.toUInt8), .sent 1, .sent 1,
    .consume (['c', '$', 'd'].map Char.toUInt8)]

theorem session_stream_splitFrame :
    ∃ s, (session 7).run ⟨(peerOnConnected (peerStateInit 16) 7).1, [], []⟩ splitFrame = some s ∧
      s.drained = ['*', 'b', 'c'].map Char.toUInt8 ∧
      s.drained ++ peerPending s.table 7 = '*'.toUInt8 :: Frame.transform s.consumed := by
  refine ⟨_, rfl, rfl, session_stream ?_⟩
  exact Machine.reachable_of_run splitFrame ⟨peerStateInit 16, rfl⟩ rfl

end ConcurrentServers

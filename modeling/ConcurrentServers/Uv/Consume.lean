import ConcurrentServers.Uv.Model

/-!
# What the loop of `on_peer_read` does

The loop is the framing machine with its output written behind `sendbuf_end`.
There is no bound on a block but the assertion, which fails exactly when the
output does not fit behind what is staged already.
-/

namespace ConcurrentServers.Uv

open Systems

variable {peer peer' : PeerState} {data : List UInt8}

/-- The bytes that a block adds to `sendbuf`. -/
def PeerState.echo (peer : PeerState) (data : List UInt8) : List UInt8 :=
  Frame.machine.output peer.state.mode data

/-- The output of a block fits behind what is staged. -/
def PeerState.Fits (peer : PeerState) (data : List UInt8) : Prop :=
  peer.sendbufEnd + (peer.echo data).length ≤ sendbufSize

/-- `peer'` is `peer` after it has read `data`. -/
structure Fed (peer : PeerState) (data : List UInt8) (peer' : PeerState) : Prop where
  state_ne : peer'.state ≠ .initialAck
  mode : peer'.state.mode = Frame.machine.state peer.state.mode data
  sendbufEnd : peer'.sendbufEnd = peer.sendbufEnd + (peer.echo data).length
  staged : Buffer.slice peer'.sendbuf 0 peer'.sendbufEnd =
    Buffer.slice peer.sendbuf 0 peer.sendbufEnd ++ peer.echo data

theorem Fed.echo_cons {c : UInt8} {mid : PeerState} (h : Fed peer [c] mid) (data : List UInt8) :
    peer.echo (c :: data) = peer.echo [c] ++ mid.echo data := by
  unfold PeerState.echo
  rw [h.mode, ← Transducer.output_append]
  rfl

theorem Fed.cons {c : UInt8} {mid : PeerState} (h : Fed peer [c] mid) (h' : Fed mid data peer') :
    Fed peer (c :: data) peer' := by
  have hecho := h.echo_cons data
  refine ⟨h'.state_ne, ?_, ?_, ?_⟩
  · rw [h'.mode, h.mode, ← Transducer.state_append]
    rfl
  · rw [h'.sendbufEnd, h.sendbufEnd, hecho, List.length_append, Nat.add_assoc]
  · rw [h'.staged, h.staged, hecho, List.append_assoc]

/-- A byte without an echo always fits. -/
theorem fed_of_echo_nil {c : UInt8} (hstate : peer'.state ≠ .initialAck)
    (hecho : peer.echo [c] = []) (hbuf : peer'.sendbuf = peer.sendbuf)
    (hend : peer'.sendbufEnd = peer.sendbufEnd)
    (hmode : peer'.state.mode = Frame.machine.state peer.state.mode [c]) : Fed peer [c] peer' :=
  ⟨hstate, hmode, by simp [hecho, hend], by simp [hecho, hend, hbuf]⟩

/-- One byte: the assertion holds exactly if there is room for the echo. -/
theorem consumeByte_cases (hstate : peer.state ≠ .initialAck)
    (hle : peer.sendbufEnd ≤ sendbufSize) (c : UInt8) :
    (peer.Fits [c] ∧ ∃ peer', consumeByte peer c = some peer' ∧ Fed peer [c] peer') ∨
      (¬peer.Fits [c] ∧ consumeByte peer c = none) := by
  cases hs : peer.state with
  | initialAck => exact absurd hs hstate
  | waitForMsg =>
      left
      have hecho : peer.echo [c] = [] := by
        simp [PeerState.echo, hs, ProcessingState.mode, Frame.machine]
      refine ⟨by simpa [PeerState.Fits, hecho] using hle, ?_⟩
      by_cases hc : c = '^'.toUInt8
      · refine ⟨{ peer with state := .inMsg }, by simp [consumeByte, hs, hc], ?_⟩
        refine fed_of_echo_nil (by simp) hecho rfl rfl ?_
        simp [hs, ProcessingState.mode, Frame.machine, Frame.opener, hc]
      · refine ⟨peer, by simp [consumeByte, hs, hc], ?_⟩
        apply fed_of_echo_nil hstate hecho rfl rfl
        simp [hs, ProcessingState.mode, Frame.machine, Frame.opener, hc]
  | inMsg =>
      by_cases hc : c = '$'.toUInt8
      · left
        have hecho : peer.echo [c] = [] := by
          simp [PeerState.echo, hs, ProcessingState.mode, Frame.machine, Frame.closer, hc]
        refine ⟨by simpa [PeerState.Fits, hecho] using hle, ?_⟩
        refine ⟨{ peer with state := .waitForMsg }, by simp [consumeByte, hs, hc], ?_⟩
        refine fed_of_echo_nil (by simp) hecho rfl rfl ?_
        simp [hs, ProcessingState.mode, Frame.machine, Frame.closer, hc]
      · have hecho : peer.echo [c] = [c + 1] := by
          simp [PeerState.echo, hs, ProcessingState.mode, Frame.machine, Frame.closer, hc]
        by_cases hroom : peer.sendbufEnd < sendbufSize
        · left
          refine ⟨by simpa [PeerState.Fits, hecho] using hroom, { peer with
            sendbuf := Buffer.store peer.sendbuf peer.sendbufEnd (c + 1)
            sendbufEnd := peer.sendbufEnd + 1 },
            by simp only [consumeByte, hs, if_neg hc, if_pos hroom], ?_⟩
          refine ⟨hstate, ?_, by simp [hecho], ?_⟩
          · simp [hs, ProcessingState.mode, Frame.machine, Frame.closer, hc]
          · rw [hecho]
            exact Buffer.slice_store_succ _ _ (Nat.zero_le _) hroom
        · right
          refine ⟨?_, by simp only [consumeByte, hs, if_neg hc, if_neg hroom]⟩
          simpa [PeerState.Fits, hecho] using hroom

theorem consume_cases (hstate : peer.state ≠ .initialAck)
    (hle : peer.sendbufEnd ≤ sendbufSize) (data : List UInt8) :
    (peer.Fits data ∧ ∃ peer', consume peer data = some peer' ∧ Fed peer data peer') ∨
      (¬peer.Fits data ∧ consume peer data = none) := by
  -- The staged output grows with the bytes, so the room of the rest is smaller.
  induction data generalizing peer with
  | nil =>
      left
      have hecho : peer.echo [] = [] := rfl
      refine ⟨by simpa [PeerState.Fits, hecho] using hle, peer, rfl, hstate, rfl, ?_, ?_⟩
      · simp [hecho]
      · simp [hecho]
  | cons c data ih =>
      have hcons : consume peer (c :: data) = (consumeByte peer c).bind fun p => consume p data :=
        List.foldlM_cons
      rcases consumeByte_cases hstate hle c with ⟨hfits, mid, hmid, hfed⟩ | ⟨hfull, hnone⟩
      · have hmidle : mid.sendbufEnd ≤ sendbufSize := hfed.sendbufEnd.trans_le hfits
        have hlen : peer.sendbufEnd + (peer.echo (c :: data)).length =
            mid.sendbufEnd + (mid.echo data).length := by
          rw [hfed.echo_cons data, List.length_append, hfed.sendbufEnd, Nat.add_assoc]
        have hiff : peer.Fits (c :: data) ↔ mid.Fits data := by
          unfold PeerState.Fits
          rw [hlen]
        rw [hcons, hmid, hiff]
        rcases ih hfed.state_ne hmidle with ⟨hrest, peer', hpeer', hfed'⟩ | ⟨hrest, hnone⟩
        · exact Or.inl ⟨hrest, peer', hpeer', hfed.cons hfed'⟩
        · exact Or.inr ⟨hrest, hnone⟩
      · right
        refine ⟨fun hfits => hfull ?_, by rw [hcons, hnone]; rfl⟩
        have hmono : (peer.echo [c]).length ≤ (peer.echo (c :: data)).length := by
          unfold PeerState.echo
          rw [← List.singleton_append (x := c), Transducer.output_append]
          simp
        unfold PeerState.Fits at hfits ⊢
        omega

end ConcurrentServers.Uv

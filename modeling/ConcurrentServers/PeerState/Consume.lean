import ConcurrentServers.PeerState.Core

/-!
# What the loop of `peer_consume` does

The loop is the framing machine with its output written behind the end cursor.
`Fed` says everything that feeding a block of bytes changes. It is proved for
one byte and composed along the block, and the four verdicts of `peer_consume`
follow without looking at the loop again.
-/

namespace ConcurrentServers

open Systems

/-- The state of the framing machine that a processing state stands for. -/
def ProcessingState.mode : ProcessingState → Frame.Mode
  | .initialAck | .waitForMsg => .outside
  | .inMsg => .inside

namespace PeerState

namespace ConsumeLoop

/-- `l'` is the loop `l` after it has read `data`. -/
structure Fed (l : ConsumeLoop) (data : List UInt8) (l' : ConsumeLoop) : Prop where
  state_ne : l'.peer.state ≠ .initialAck
  mode : l'.peer.state.mode = Frame.machine.state l.peer.state.mode data
  sendptr : l'.peer.sendptr = l.peer.sendptr
  closeReason : l'.peer.closeReason = l.peer.closeReason
  sendbufEnd : l'.peer.sendbufEnd =
    l.peer.sendbufEnd + (Frame.machine.output l.peer.state.mode data).length
  slice : Buffer.slice l'.peer.sendbuf l.peer.sendptr l'.peer.sendbufEnd =
    Buffer.slice l.peer.sendbuf l.peer.sendptr l.peer.sendbufEnd ++
      Frame.machine.output l.peer.state.mode data
  ready : l'.readyToSend =
    (l.readyToSend || !(Frame.machine.output l.peer.state.mode data).isEmpty)
  writes : l'.writes = l.writes ++
    List.range' l.peer.sendbufEnd (Frame.machine.output l.peer.state.mode data).length

theorem Fed.nil {l : ConsumeLoop} (hs : l.peer.state ≠ .initialAck) : Fed l [] l where
  state_ne := hs
  mode := rfl
  sendptr := rfl
  closeReason := rfl
  sendbufEnd := by simp
  slice := by simp
  ready := by simp
  writes := by simp

theorem Fed.append {l m k : ConsumeLoop} {xs ys : List UInt8} (h : Fed l xs m)
    (hk : Fed m ys k) : Fed l (xs ++ ys) k where
  state_ne := hk.state_ne
  mode := by rw [hk.mode, h.mode, Transducer.state_append]
  sendptr := hk.sendptr.trans h.sendptr
  closeReason := hk.closeReason.trans h.closeReason
  sendbufEnd := by
    rw [hk.sendbufEnd, h.sendbufEnd, h.mode, Transducer.output_append, List.length_append,
      Nat.add_assoc]
  slice := by
    rw [← h.sendptr, hk.slice, h.sendptr, h.slice, h.mode, Transducer.output_append,
      List.append_assoc]
  ready := by
    rw [hk.ready, h.ready, h.mode, Transducer.output_append, Bool.or_assoc]
    congr 1
    cases Frame.machine.output l.peer.state.mode xs <;> simp
  writes := by
    rw [hk.writes, h.writes, h.mode, h.sendbufEnd, Transducer.output_append, List.length_append,
      List.append_assoc, List.range'_append_1]

/-- One round of the loop. Outside the acknowledgement phase there is no early
return, and the only write is at the end cursor. -/
theorem consumeByte_fed (l : ConsumeLoop) (c : UInt8) (hs : l.peer.state ≠ .initialAck)
    (hptr : l.peer.sendptr ≤ l.peer.sendbufEnd) (hroom : l.peer.sendbufEnd < sendbufSize) :
    ∃ l', consumeByte l c = .ok l' ∧ Fed l [c] l' := by
  cases hst : l.peer.state with
  | initialAck => exact absurd hst hs
  | waitForMsg =>
      by_cases hc : c = '^'.toUInt8
      · refine ⟨{ l with peer := { l.peer with state := .inMsg } },
          by simp [consumeByte, hst, hc], ?_⟩
        constructor <;>
          simp [hst, ProcessingState.mode, Frame.machine, Frame.opener, hc]
      · refine ⟨l, by simp [consumeByte, hst, hc], ?_⟩
        constructor <;>
          simp [hst, ProcessingState.mode, Frame.machine, Frame.opener, hc]
  | inMsg =>
      by_cases hc : c = '$'.toUInt8
      · refine ⟨{ l with peer := { l.peer with state := .waitForMsg } },
          by simp [consumeByte, hst, hc], ?_⟩
        constructor <;>
          simp [hst, ProcessingState.mode, Frame.machine, Frame.closer, hc]
      · refine ⟨{
            peer := { l.peer with
              sendbuf := Buffer.store l.peer.sendbuf l.peer.sendbufEnd (c + 1)
              sendbufEnd := l.peer.sendbufEnd + 1 }
            readyToSend := true
            writes := l.writes ++ [l.peer.sendbufEnd] },
          by simp [consumeByte, hst, hc], ?_⟩
        -- The byte lands behind the pending ones; this is the only use of the room.
        have hslice := Buffer.slice_store_succ l.peer.sendbuf (c + 1) hptr hroom
        constructor <;>
          simp [hst, hslice, ProcessingState.mode, Frame.machine, Frame.closer, hc]

end ConsumeLoop

open ConsumeLoop

theorem foldlM_fed (l : ConsumeLoop) (data : List UInt8) (hs : l.peer.state ≠ .initialAck)
    (hptr : l.peer.sendptr ≤ l.peer.sendbufEnd)
    (hroom : l.peer.sendbufEnd + data.length ≤ sendbufSize) :
    ∃ l', data.foldlM consumeByte l = .ok l' ∧ Fed l data l' := by
  -- Every byte moves the end cursor by at most one, so the room of the block is room for
  -- each byte.
  induction data generalizing l with
  | nil => exact ⟨l, rfl, Fed.nil hs⟩
  | cons c data ih =>
      simp only [List.length_cons] at hroom
      obtain ⟨m, hm, hfed⟩ := consumeByte_fed l c hs hptr (by omega)
      have hle := Frame.machine.length_output_le Frame.length_emit_le l.peer.state.mode [c]
      have hend := hfed.sendbufEnd
      simp only [List.length_singleton] at hle
      obtain ⟨k, hk, hfed'⟩ := ih m hfed.state_ne
        (by rw [hfed.sendptr]; omega) (by omega)
      refine ⟨k, ?_, hfed.append hfed'⟩
      rw [List.foldlM_cons, hm]
      exact hk

/-! ## The verdicts of `peer_consume` -/

theorem consume_of_lt {peer : PeerState} {data : List UInt8}
    (h : peer.recvRoom < data.length) :
    peer.consume data =
      peer.closeWith (.text "internal error: consume beyond available room") := by
  simp [consume, h]

@[simp] theorem consume_nil (peer : PeerState) : peer.consume [] = (peer, fdStatusR) := by
  have hloop : peer.consumeLoop [] = .ok ⟨peer, false, []⟩ := rfl
  simp [consume, hloop, fdStatusR]

theorem consume_of_ok {peer : PeerState} {data : List UInt8} {l : ConsumeLoop}
    (h : data.length ≤ peer.recvRoom) (hl : peer.consumeLoop data = .ok l) :
    peer.consume data = (l.peer, ⟨!l.readyToSend, l.readyToSend⟩) := by
  simp [consume, Nat.not_lt.mpr h, hl]

end PeerState

end ConcurrentServers

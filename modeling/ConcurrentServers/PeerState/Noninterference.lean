import ConcurrentServers.PeerState.Bounds

/-!
# Connections do not see each other

`peer_on_connected` leaves the bytes of the previous owner in `sendbuf`, behind
the acknowledgement. They stay behind the end cursor until they are overwritten:
the operations read nothing but the part of the buffer before that cursor, and
that part is written anew after every reset of it. So two peers that agree there,
and in the other fields, cannot be told apart.
-/

namespace ConcurrentServers

open Systems

namespace PeerState

/-- The operations that change a peer: the calls of the core, and the two wrappers
with what `recv` or `send` returns to them. -/
inductive Operation where
  | core (c : Call)
  | onReadyRecv (r : SysResult (List UInt8))
  | onReadySend (r : SysResult ℕ)

def operate (peer : PeerState) : Operation → PeerState × FdStatus
  | .core c => peer.call c
  | .onReadyRecv r => peer.onReadyRecv r
  | .onReadySend r => peer.onReadySend r

/-- A sequence of operations, with the verdicts that they return. -/
def operations (peer : PeerState) : List Operation → PeerState × List FdStatus
  | [] => (peer, [])
  | op :: ops =>
      let r := (peer.operate op).1.operations ops
      (r.1, (peer.operate op).2 :: r.2)

/-! ## Peers that cannot be told apart -/

/-- All fields agree, and the buffers do before the end cursor. -/
structure Alike (p q : PeerState) : Prop where
  state : p.state = q.state
  sendbufEnd : p.sendbufEnd = q.sendbufEnd
  sendptr : p.sendptr = q.sendptr
  closeReason : p.closeReason = q.closeReason
  slice : Buffer.slice p.sendbuf 0 p.sendbufEnd = Buffer.slice q.sendbuf 0 q.sendbufEnd

variable {p q : PeerState}

theorem Alike.pending (h : Alike p q) : p.pending = q.pending := by
  have hdrop : ∀ b : List.Vector UInt8 sendbufSize, ∀ i j,
      Buffer.slice b i j = (Buffer.slice b 0 j).drop i := fun _ _ _ => rfl
  unfold PeerState.pending
  rw [hdrop p.sendbuf, hdrop q.sendbuf, h.slice, h.sendptr, h.sendbufEnd]

theorem Alike.recvRoom (h : Alike p q) : p.recvRoom = q.recvRoom := by
  unfold PeerState.recvRoom
  rw [h.state, h.sendptr, h.sendbufEnd]

/-- What an operation leaves behind cannot be told apart, nor can its verdicts. -/
def AlikeResults (r r' : PeerState × FdStatus) : Prop :=
  Alike r.1 r'.1 ∧ r.2 = r'.2

theorem alike_onConnected (p q : PeerState) : AlikeResults p.onConnected q.onConnected :=
  ⟨⟨rfl, rfl, rfl, rfl, Buffer.slice_store_congr (by simp) Frame.ack⟩, rfl⟩

theorem Alike.closeWith (h : Alike p q) (reason : Reason) :
    AlikeResults (p.closeWith reason) (q.closeWith reason) :=
  ⟨{ h with closeReason := rfl }, rfl⟩

theorem Alike.sent (h : Alike p q) (n : ℕ) : AlikeResults (p.sent n) (q.sent n) := by
  have hsendptr : (p.sendptr + n) % 2 ^ 64 = (q.sendptr + n) % 2 ^ 64 := by rw [h.sendptr]
  by_cases hlt : (p.sendptr + n) % 2 ^ 64 < p.sendbufEnd
  · rw [sent_of_lt hlt, sent_of_lt (hsendptr ▸ h.sendbufEnd ▸ hlt)]
    exact ⟨{ h with sendptr := hsendptr }, rfl⟩
  · rw [sent_of_not_lt hlt, sent_of_not_lt (hsendptr ▸ h.sendbufEnd ▸ hlt), h.state]
    exact ⟨⟨rfl, rfl, rfl, h.closeReason, by simp⟩, rfl⟩

/-! ## The loop of `peer_consume` -/

/-- Two runs of the loop that have done the same so far. -/
structure AlikeLoops (l m : ConsumeLoop) : Prop where
  peer : Alike l.peer m.peer
  readyToSend : l.readyToSend = m.readyToSend

inductive AlikeOutcomes : Except ConsumeLoop ConsumeLoop → Except ConsumeLoop ConsumeLoop → Prop
  | error {l m : ConsumeLoop} (h : AlikeLoops l m) : AlikeOutcomes (.error l) (.error m)
  | ok {l m : ConsumeLoop} (h : AlikeLoops l m) : AlikeOutcomes (.ok l) (.ok m)

theorem AlikeLoops.consumeByte {l m : ConsumeLoop} (h : AlikeLoops l m) (c : UInt8) :
    AlikeOutcomes (PeerState.consumeByte l c) (PeerState.consumeByte m c) := by
  unfold PeerState.consumeByte
  rw [← h.peer.state]
  cases l.peer.state with
  | initialAck => exact .error h
  | waitForMsg =>
      dsimp only
      split
      · exact .ok { h with peer := { h.peer with state := rfl } }
      · exact .ok h
  | inMsg =>
      dsimp only
      split
      · exact .ok { h with peer := { h.peer with state := rfl } }
      · have hslice := h.peer.slice
        rw [← h.peer.sendbufEnd] at hslice ⊢
        have hstored := Buffer.slice_store_congr hslice (c + 1)
        exact .ok ⟨{ h.peer with sendbufEnd := rfl, slice := hstored }, rfl⟩

theorem AlikeLoops.foldlM {l m : ConsumeLoop} (h : AlikeLoops l m) (data : List UInt8) :
    AlikeOutcomes (data.foldlM PeerState.consumeByte l) (data.foldlM PeerState.consumeByte m) := by
  induction data generalizing l m with
  | nil => exact .ok h
  | cons c data ih =>
      have hbyte := h.consumeByte c
      rw [List.foldlM_cons, List.foldlM_cons]
      generalize PeerState.consumeByte l c = x, PeerState.consumeByte m c = y at hbyte ⊢
      cases hbyte with
      | error h' => exact .error h'
      | ok h' => exact ih h'

theorem Alike.consume (h : Alike p q) (data : List UInt8) :
    AlikeResults (p.consume data) (q.consume data) := by
  unfold PeerState.consume PeerState.consumeLoop
  rw [h.recvRoom]
  split
  · exact h.closeWith _
  · have hloops : AlikeLoops ⟨p, false, []⟩ ⟨q, false, []⟩ := ⟨h, rfl⟩
    have hloop := hloops.foldlM data
    generalize data.foldlM PeerState.consumeByte ⟨p, false, []⟩ = x,
      data.foldlM PeerState.consumeByte ⟨q, false, []⟩ = y at hloop ⊢
    cases hloop with
    | error h' => exact h'.peer.closeWith _
    | ok h' => exact ⟨h'.peer, congrArg (fun b => FdStatus.mk (!b) b) h'.readyToSend⟩

/-! ## All operations -/

theorem Alike.onReadyRecv (h : Alike p q) (r : SysResult (List UInt8)) :
    AlikeResults (p.onReadyRecv r) (q.onReadyRecv r) := by
  unfold PeerState.onReadyRecv
  rw [h.recvRoom]
  split
  · exact ⟨h, rfl⟩
  · cases r with
    | ok data =>
        cases data with
        | nil => exact h.closeWith _
        | cons b data => exact h.consume (b :: data)
    | error e =>
        dsimp only
        split
        · exact ⟨h, rfl⟩
        · split <;> exact h.closeWith _

theorem Alike.onReadySend (h : Alike p q) (r : SysResult ℕ) :
    AlikeResults (p.onReadySend r) (q.onReadySend r) := by
  unfold PeerState.onReadySend
  rw [h.pending]
  split
  · exact ⟨h, rfl⟩
  · cases r with
    | ok n => exact h.sent n
    | error e =>
        dsimp only
        split
        · exact ⟨h, rfl⟩
        · split <;> exact h.closeWith _

theorem Alike.operate (h : Alike p q) (op : Operation) :
    AlikeResults (p.operate op) (q.operate op) := by
  cases op with
  | core c =>
      cases c with
      | onConnected => exact alike_onConnected p q
      | consume data => exact h.consume data
      | sent n => exact h.sent n
      | fail reason => exact h.closeWith reason
  | onReadyRecv r => exact h.onReadyRecv r
  | onReadySend r => exact h.onReadySend r

theorem Alike.operations (h : Alike p q) (ops : List Operation) :
    Alike (p.operations ops).1 (q.operations ops).1 ∧
      (p.operations ops).2 = (q.operations ops).2 := by
  induction ops generalizing p q with
  | nil => exact ⟨h, rfl⟩
  | cons op ops ih =>
      obtain ⟨h', hverdict⟩ := h.operate op
      obtain ⟨hpeer, hverdicts⟩ := ih h'
      exact ⟨hpeer, congrArg₂ List.cons hverdict hverdicts⟩

end PeerState

/-! ## Runs over the table -/

namespace PeerTable

open PeerState (Operation)

def operate (t : PeerTable) (sockfd : ℕ) : Operation → PeerTable × FdStatus
  | .core c => t.call sockfd c
  | .onReadyRecv r => peerOnReadyRecv t sockfd r
  | .onReadySend r => peerOnReadySend t sockfd r

/-- A run over the table, with the verdicts that the operations on `sockfd`
return. -/
def run (sockfd : ℕ) : PeerTable → List (ℕ × Operation) → PeerTable × List FdStatus
  | t, [] => (t, [])
  | t, (fd, op) :: ops =>
      let r := run sockfd (t.operate fd op).1 ops
      (r.1, if fd = sockfd then (t.operate fd op).2 :: r.2 else r.2)

/-- The operations of a run on `sockfd`. -/
def operationsOn (sockfd : ℕ) (ops : List (ℕ × Operation)) : List Operation :=
  (ops.filter (·.1 = sockfd)).map Prod.snd

theorem operate_eq_modify (t : PeerTable) (sockfd : ℕ) (op : Operation) :
    t.operate sockfd op = t.modify sockfd (·.operate op) := by
  cases op with
  | core c => cases c <;> rfl
  | onReadyRecv r => rfl
  | onReadySend r => rfl

theorem peerCapacity_run (sockfd : ℕ) (t : PeerTable) (ops : List (ℕ × Operation)) :
    (t.run sockfd ops).1.peerCapacity = t.peerCapacity := by
  induction ops generalizing t with
  | nil => rfl
  | cons op ops ih =>
      rw [run, ih, operate_eq_modify]
      rfl

/-- A run changes an entry by the operations on it, and by nothing else. -/
theorem run_eq_operations (sockfd : ℕ) (t : PeerTable) (ops : List (ℕ × Operation)) :
    ((t.run sockfd ops).1.peers sockfd, (t.run sockfd ops).2) =
      (t.peers sockfd).operations (operationsOn sockfd ops) := by
  induction ops generalizing t with
  | nil => rfl
  | cons op ops ih =>
      obtain ⟨fd, op⟩ := op
      have ih := ih (t.operate fd op).1
      rw [operate_eq_modify] at ih
      by_cases hfd : fd = sockfd
      · subst hfd
        rw [modify_same] at ih
        simp only [run, operate_eq_modify, if_true, modify_status, operationsOn, decide_true,
          List.filter_cons_of_pos, List.map_cons, PeerState.operations]
        rw [← operationsOn, ← ih]
      · rw [modify_ne t (Ne.symm hfd)] at ih
        simp only [run, operate_eq_modify, if_neg hfd, operationsOn]
        rw [List.filter_cons_of_neg (by simpa using hfd), ← operationsOn, ih]

/-- What the owner of `sockfd` sees of a run. -/
structure Observed where
  verdicts : List FdStatus
  pending : List UInt8
  recvRoom : ℕ
  closeReason : Reason

def observe (sockfd : ℕ) (t : PeerTable) (ops : List (ℕ × Operation)) : Observed where
  verdicts := (t.run sockfd ops).2
  pending := peerPending (t.run sockfd ops).1 sockfd
  recvRoom := peerRecvRoom (t.run sockfd ops).1 sockfd
  closeReason := peerCloseReason (t.run sockfd ops).1 sockfd

theorem observe_eq (sockfd : ℕ) (t : PeerTable) (ops : List (ℕ × Operation)) :
    observe sockfd t ops =
      let r := (t.peers sockfd).operations (operationsOn sockfd ops)
      { verdicts := r.2
        pending := r.1.pending
        recvRoom := r.1.recvRoom
        closeReason := if peerFdInRange t sockfd then r.1.closeReason.getD (.text "peer closed")
          else .text "peer closed" } := by
  have hrun := run_eq_operations sockfd t ops
  have hcapacity := peerCapacity_run sockfd t ops
  simp only [observe, peerPending, peerRecvRoom, peerCloseReason, peerFdInRange, hcapacity, ← hrun]

/-- Two tables of one size with any content whatever, and two runs over them that
do the same to a descriptor from its connection on. -/
theorem connections_do_not_interfere (peers peers' : ℕ → PeerState) (peerCapacity sockfd : ℕ)
    {ops ops' : List (ℕ × Operation)} (h : operationsOn sockfd ops = operationsOn sockfd ops') :
    observe sockfd ⟨peers, peerCapacity⟩ ((sockfd, .core .onConnected) :: ops) =
      observe sockfd ⟨peers', peerCapacity⟩ ((sockfd, .core .onConnected) :: ops') := by
  have hcons : ∀ l : List (ℕ × Operation), operationsOn sockfd ((sockfd, .core .onConnected) :: l) =
      .core .onConnected :: operationsOn sockfd l := fun l => by
    rw [operationsOn, List.filter_cons_of_pos (by simp), List.map_cons, operationsOn]
  obtain ⟨halike, hverdict⟩ := PeerState.alike_onConnected (peers sockfd) (peers' sockfd)
  obtain ⟨hpeer, hverdicts⟩ := halike.operations (operationsOn sockfd ops')
  simp only [observe_eq, hcons, h, PeerState.operations, PeerState.operate, PeerState.call,
    hpeer.pending, hpeer.recvRoom, hpeer.closeReason, hverdict, hverdicts, peerFdInRange]

/-- The entry of a peer that was reset inside a frame with output pending. -/
def resetPeer : PeerState :=
  ⟨.inMsg, List.Vector.replicate sendbufSize 255, 9, 2, some (.text "peer reset")⟩

/-- The number was used before in one run, and another connection comes between in
the other. -/
theorem connections_do_not_interfere_reusedNumber :
    observe 5 ⟨fun _ => resetPeer, 8⟩
        [(5, .core .onConnected), (5, .core (.sent 1)), (5, .core (.consume [94, 97]))] =
      observe 5 (peerStateInit 8)
        [(5, .core .onConnected), (7, .core .onConnected), (5, .core (.sent 1)),
          (7, .core (.fail (.text "peer closed"))), (5, .core (.consume [94, 97]))] :=
  connections_do_not_interfere _ _ 8 5 rfl

end PeerTable

end ConcurrentServers

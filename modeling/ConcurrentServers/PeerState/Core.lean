import ConcurrentServers.Frame
import ConcurrentServers.Posix
import ConcurrentServers.Library.Buffer

/-!
# The per-peer state machine of `peer_state.c`

The functions of the pure core and the two readiness wrappers, as functions on
the table of peers. A pair of a pointer and a length is a list. The result of
the `recv` or `send` that a wrapper makes is an argument of the wrapper.
-/

namespace ConcurrentServers

open Systems

def sendbufSize : ℕ := 1024

inductive ProcessingState where
  | initialAck
  | waitForMsg
  | inMsg
  deriving DecidableEq, Repr

/-- The texts that a `close_reason` can point to: a literal of the source, or
what `strerror` returns for an error number. -/
inductive Reason where
  | text (s : String)
  | strerror (e : Errno)
  deriving DecidableEq, Repr

structure PeerState where
  state : ProcessingState
  sendbuf : List.Vector UInt8 sendbufSize
  sendbufEnd : ℕ
  sendptr : ℕ
  closeReason : Option Reason

structure FdStatus where
  wantRead : Bool
  wantWrite : Bool
  deriving DecidableEq, Repr

def fdStatusR : FdStatus := ⟨true, false⟩

def fdStatusW : FdStatus := ⟨false, true⟩

def fdStatusRW : FdStatus := ⟨true, true⟩

def fdStatusNORW : FdStatus := ⟨false, false⟩

/-! ## One peer -/

namespace PeerState

def closeWith (peer : PeerState) (reason : Reason) : PeerState × FdStatus :=
  ({ peer with closeReason := some reason }, fdStatusNORW)

def onConnected (peer : PeerState) : PeerState × FdStatus :=
  ({ peer with
      state := .initialAck
      sendbuf := Buffer.store peer.sendbuf 0 Frame.ack
      sendptr := 0
      sendbufEnd := 1
      closeReason := none }, fdStatusW)

def recvRoom (peer : PeerState) : ℕ :=
  if peer.state = .initialAck ∨ peer.sendptr < peer.sendbufEnd then 0
  else sendbufSize - peer.sendbufEnd

/-- The local variables of the loop in `peer_consume`. The list `writes` is not
in the source: it records the index of every write into `sendbuf`. -/
structure ConsumeLoop where
  peer : PeerState
  readyToSend : Bool
  writes : List ℕ

/-- The body of the loop. An `error` is the early return of the first case. -/
def consumeByte (l : ConsumeLoop) (c : UInt8) : Except ConsumeLoop ConsumeLoop :=
  match l.peer.state with
  | .initialAck => .error l
  | .waitForMsg =>
      if c = '^'.toUInt8 then .ok { l with peer := { l.peer with state := .inMsg } }
      else .ok l
  | .inMsg =>
      if c = '$'.toUInt8 then .ok { l with peer := { l.peer with state := .waitForMsg } }
      else .ok {
        peer := { l.peer with
          sendbuf := Buffer.store l.peer.sendbuf l.peer.sendbufEnd (c + 1)
          sendbufEnd := l.peer.sendbufEnd + 1 }
        readyToSend := true
        writes := l.writes ++ [l.peer.sendbufEnd] }

def consumeLoop (peer : PeerState) (data : List UInt8) : Except ConsumeLoop ConsumeLoop :=
  data.foldlM consumeByte ⟨peer, false, []⟩

def consume (peer : PeerState) (data : List UInt8) : PeerState × FdStatus :=
  if data.length > peer.recvRoom then
    peer.closeWith (.text "internal error: consume beyond available room")
  else
    match peer.consumeLoop data with
    | .error l => l.peer.closeWith (.text "internal error: consume while INITIAL_ACK")
    | .ok l => (l.peer, ⟨!l.readyToSend, l.readyToSend⟩)

def pending (peer : PeerState) : List UInt8 :=
  if peer.sendptr ≥ peer.sendbufEnd then []
  else Buffer.slice peer.sendbuf peer.sendptr peer.sendbufEnd

/-- The cursor is a `size_t`, so the addition wraps at `2 ^ 64`. -/
def sent (peer : PeerState) (n : ℕ) : PeerState × FdStatus :=
  let sendptr := (peer.sendptr + n) % 2 ^ 64
  if sendptr < peer.sendbufEnd then
    ({ peer with sendptr := sendptr }, fdStatusW)
  else
    ({ peer with
        sendptr := 0
        sendbufEnd := 0
        state := if peer.state = .initialAck then .waitForMsg else peer.state }, fdStatusR)

/-- The length that `peer_on_ready_recv` asks `recv` for. Its local buffer is
as large as `sendbuf`. -/
def want (peer : PeerState) : ℕ :=
  if peer.recvRoom < sendbufSize then peer.recvRoom else sendbufSize

/-- `r` is what `recv` returned for a request of `want` bytes. The empty list
is the end of the stream. -/
def onReadyRecv (peer : PeerState) (r : SysResult (List UInt8)) : PeerState × FdStatus :=
  if peer.recvRoom = 0 then (peer, fdStatusW)
  else
    match r with
    | .ok [] => peer.closeWith (.text "peer closed")
    | .ok data => peer.consume data
    | .error e =>
        if e = .eintr ∨ e = .eagain ∨ e = .ewouldblock then (peer, fdStatusR)
        else if e = .econnreset then peer.closeWith (.text "peer reset")
        else peer.closeWith (.strerror e)

/-- `r` is what `send` returned for the pending bytes. -/
def onReadySend (peer : PeerState) (r : SysResult ℕ) : PeerState × FdStatus :=
  if peer.pending.length = 0 then (peer, fdStatusRW)
  else
    match r with
    | .ok nsent => peer.sent nsent
    | .error e =>
        if e = .eintr ∨ e = .eagain ∨ e = .ewouldblock then (peer, fdStatusW)
        else if e = .econnreset ∨ e = .epipe then peer.closeWith (.text "peer reset")
        else peer.closeWith (.strerror e)

end PeerState

/-! ## The table -/

structure PeerTable where
  peers : ℕ → PeerState
  peerCapacity : ℕ

/-- `calloc` clears the table, and `INITIAL_ACK` is the zero of its type. -/
def peerStateInit (maxFds : ℕ) : PeerTable where
  peers _ := ⟨.initialAck, List.Vector.replicate sendbufSize 0, 0, 0, none⟩
  peerCapacity := maxFds

def peerFdInRange (t : PeerTable) (sockfd : ℤ) : Bool :=
  sockfd ≥ 0 ∧ sockfd.toNat < t.peerCapacity

theorem lt_capacity_of_inRange {t : PeerTable} {fd : ℕ} (h : peerFdInRange t fd = true) :
    fd < t.peerCapacity := by
  simp only [peerFdInRange, decide_eq_true_eq] at h
  omega

def peerCloseReason (t : PeerTable) (sockfd : ℕ) : Reason :=
  if peerFdInRange t sockfd then (t.peers sockfd).closeReason.getD (.text "peer closed")
  else .text "peer closed"

namespace PeerTable

/-- Replace one entry by what a function of the peer leaves there. -/
def modify (t : PeerTable) (sockfd : ℕ) (f : PeerState → PeerState × FdStatus) :
    PeerTable × FdStatus :=
  ({ t with peers := Function.update t.peers sockfd (f (t.peers sockfd)).1 },
    (f (t.peers sockfd)).2)

@[simp] theorem modify_status (t : PeerTable) (sockfd : ℕ)
    (f : PeerState → PeerState × FdStatus) :
    (t.modify sockfd f).2 = (f (t.peers sockfd)).2 := rfl

@[simp] theorem modify_same (t : PeerTable) (sockfd : ℕ)
    (f : PeerState → PeerState × FdStatus) :
    (t.modify sockfd f).1.peers sockfd = (f (t.peers sockfd)).1 := by
  simp [modify]

theorem modify_ne (t : PeerTable) {sockfd other : ℕ} (h : other ≠ sockfd)
    (f : PeerState → PeerState × FdStatus) :
    (t.modify sockfd f).1.peers other = t.peers other := by
  simp [modify, h]

end PeerTable

def peerOnConnected (t : PeerTable) (sockfd : ℕ) : PeerTable × FdStatus :=
  t.modify sockfd PeerState.onConnected

def peerFail (t : PeerTable) (sockfd : ℕ) (reason : Reason) : PeerTable × FdStatus :=
  t.modify sockfd (·.closeWith reason)

def peerRecvRoom (t : PeerTable) (sockfd : ℕ) : ℕ := (t.peers sockfd).recvRoom

def peerConsume (t : PeerTable) (sockfd : ℕ) (data : List UInt8) : PeerTable × FdStatus :=
  t.modify sockfd (·.consume data)

def peerPending (t : PeerTable) (sockfd : ℕ) : List UInt8 := (t.peers sockfd).pending

def peerSent (t : PeerTable) (sockfd : ℕ) (n : ℕ) : PeerTable × FdStatus :=
  t.modify sockfd (·.sent n)

def peerOnReadyRecv (t : PeerTable) (sockfd : ℕ) (r : SysResult (List UInt8)) :
    PeerTable × FdStatus :=
  t.modify sockfd (·.onReadyRecv r)

def peerOnReadySend (t : PeerTable) (sockfd : ℕ) (r : SysResult ℕ) : PeerTable × FdStatus :=
  t.modify sockfd (·.onReadySend r)

end ConcurrentServers

import ConcurrentServers.PeerState.Verdict
import ConcurrentServers.Library.Machine
import ConcurrentServers.Library.Descriptors

/-!
# The event loop of `epoll_server.c`

A state is taken between two events, or before `epoll_wait`. The kernel's
interest set is part of it. One step handles the next event of the batch with
all system calls that it makes, whose results are the label of the step. What
is only printed is left out.
-/

namespace ConcurrentServers.Epoll

open Systems

def maxFds : ℕ := 16 * 1024

/-- The `events` field that the server registers. -/
structure Interest where
  epollin : Bool
  epollout : Bool
  deriving DecidableEq, Repr

/-- The `events` field that `epoll_wait` fills in. -/
structure Reported where
  epollin : Bool
  epollout : Bool
  epollerr : Bool
  epollhup : Bool
  deriving DecidableEq, Repr

/-- Readiness is reported only if it was asked for, unlike the other two bits. -/
def Reported.within (events : Reported) (i : Interest) : Bool :=
  (!events.epollin || i.epollin) && (!events.epollout || i.epollout)

def Interest.ofStatus (status : FdStatus) : Interest := ⟨status.wantRead, status.wantWrite⟩

/-- An entry of the `events` array. The field `conn` is not in the source: it is
the connection behind `fd` when `epoll_wait` returned. -/
structure Event where
  fd : ℕ
  events : Reported
  conn : Option ℕ

/-- The descriptors that are open but are not connections are reserved. -/
structure Config where
  listener : ℕ
  reserved : List ℕ
  listener_mem : listener ∈ reserved

/-- The part of the batch that has not been handled is `batch`. The fields from
`descriptors` on are not in the source. They record the connections, the
connection behind the descriptor at every call of `close`, and every handled
event with the connection behind its descriptor at that time. -/
structure Server where
  table : PeerTable
  interest : ℕ → Option Interest
  batch : List Event
  descriptors : Descriptors
  closes : List (Option ℕ)
  handled : List (Event × Option ℕ)

/-- `epoll_ctl(EPOLL_CTL_DEL)`, whose result is ignored, and `close`, which takes
the descriptor out of the interest set in any case. -/
def Server.close (s : Server) (fd : ℕ) : Server :=
  { s with
    interest := Function.update s.interest fd none
    descriptors := s.descriptors.close fd
    closes := s.closes ++ [s.descriptors.owner fd] }

/-- `EPOLL_CTL_ADD` or `EPOLL_CTL_MOD` with the result `r`. -/
def Server.epollCtl (s : Server) (r : SysResult Unit) (fd : ℕ) (status : FdStatus) :
    Process Server :=
  match r with
  | .error _ => .exited
  | .ok _ =>
      .running { s with
        interest := Function.update s.interest fd (some (Interest.ofStatus status)) }

def applyStatus (r : SysResult Unit) (fd : ℕ) (v : PeerTable × FdStatus) (s : Server) :
    Process Server :=
  let s := { s with table := v.1 }
  if !v.2.wantRead && !v.2.wantWrite then .running (s.close fd)
  else s.epollCtl r fd v.2

/-- The results of the system calls that one event may lead to. -/
structure Outcome where
  accept : SysResult ℕ
  fcntl : SysResult Unit
  epollCtl : SysResult Unit
  recv : SysResult (List UInt8)
  send : SysResult ℕ

/-- An event on the listener. An accepted descriptor was not open. -/
def acceptPeer (cfg : Config) (o : Outcome) (s : Server) : Option (Process Server) :=
  match o.accept with
  | .error e =>
      if e = .eagain ∨ e = .ewouldblock ∨ e = .eintr ∨ e = .econnaborted then
        some (.running s)
      else some .exited
  | .ok fd =>
      if s.descriptors.owner fd = none ∧ fd ∉ cfg.reserved then
        let s := { s with descriptors := s.descriptors.accept fd }
        if !peerFdInRange s.table fd then some (.running (s.close fd))
        else
          match o.fcntl with
          | .error _ => some .exited
          | .ok _ =>
              let v := peerOnConnected s.table fd
              some ({ s with table := v.1 }.epollCtl o.epollCtl fd v.2)
      else none

/-- An event on a peer without `EPOLLERR`. -/
def readyPeer (o : Outcome) (e : Event) (s : Server) : Option (Process Server) :=
  if e.events.epollin then
    if (s.table.peers e.fd).AllowsRecv o.recv then
      some (applyStatus o.epollCtl e.fd (peerOnReadyRecv s.table e.fd o.recv) s)
    else none
  else if e.events.epollout then
    some (applyStatus o.epollCtl e.fd (peerOnReadySend s.table e.fd o.send) s)
  else some (.running s)

/-- The body of the loop over the batch. -/
def handle (cfg : Config) (o : Outcome) (e : Event) (s : Server) : Option (Process Server) :=
  if e.events.epollerr then
    if e.fd = cfg.listener then some .exited else some (.running (s.close e.fd))
  else if e.fd = cfg.listener then acceptPeer cfg o s
  else readyPeer o e s

/-- What `epoll_wait` may return: distinct registered descriptors. -/
def Server.allows (s : Server) (events : List (ℕ × Reported)) : Prop :=
  (events.map Prod.fst).Nodup ∧ ∀ p ∈ events, (s.interest p.1).any p.2.within = true

instance (s : Server) (events : List (ℕ × Reported)) : Decidable (s.allows events) :=
  inferInstanceAs (Decidable (_ ∧ ∀ p ∈ events, _))

inductive Label where
  | wait (r : SysResult (List (ℕ × Reported)))
  | handle (o : Outcome)

def Server.step (cfg : Config) (s : Server) : Label → Option (Process Server)
  | .wait r =>
      if s.batch = [] then
        match r with
        | .error e => if e = .eintr then some (.running s) else some .exited
        | .ok events =>
            if s.allows events then
              some (.running { s with
                batch := events.map fun p => ⟨p.1, p.2, s.descriptors.owner p.1⟩ })
            else none
      else none
  | .handle o =>
      match s.batch with
      | [] => none
      | e :: batch =>
          Epoll.handle cfg o e { s with
            batch := batch
            handled := s.handled ++ [(e, s.descriptors.owner e.fd)] }

/-- Before the first `epoll_wait`, with the listener registered. -/
def Server.start (cfg : Config) : Server where
  table := peerStateInit maxFds
  interest fd := if fd = cfg.listener then some ⟨true, false⟩ else none
  batch := []
  descriptors := .empty
  closes := []
  handled := []

def server (cfg : Config) : Machine (Process Server) Label :=
  Process.machine (· = Server.start cfg) (Server.step cfg)

end ConcurrentServers.Epoll

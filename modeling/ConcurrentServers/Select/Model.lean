import ConcurrentServers.PeerState.Verdict
import ConcurrentServers.Library.Machine
import ConcurrentServers.Library.Descriptors
import Mathlib.Data.Finset.Card

/-!
# The loop of `select_server.c`

A state is taken before `select`, or at the head of the loop over the
descriptors. An `fd_set` is a finite set of numbers. One step is one iteration
of the inner loop with the system calls that it makes, whose results are the
label of the step. What is only printed is left out.
-/

namespace ConcurrentServers.Select

open Systems

def maxFds : ℕ := 1000

def fdSetsize : ℕ := 1024

/-- The server dies on a listener beyond `FD_SETSIZE`. The descriptors that are
open but are not connections are reserved. -/
structure Config where
  listener : ℕ
  reserved : List ℕ
  listener_mem : listener ∈ reserved
  listener_lt : listener < fdSetsize

/-- A call of a handler, or of `accept`, for a bit of one of the two sets, with
the connection that was then behind the descriptor. -/
structure Service where
  fd : ℕ
  write : Bool
  conn : Option ℕ

/-- The variables of the loop over the descriptors. The fields from `owners` on
are not in the source. They record the connections and the number of the next
one when `select` returned, and what has been serviced since. -/
structure Sweep where
  fd : ℕ
  readfds : Finset ℕ
  writefds : Finset ℕ
  nready : ℤ
  owners : ℕ → Option ℕ
  fresh : ℕ
  serviced : List Service

/-- The fields from `descriptors` on are not in the source. They record the
connections, and the connection behind the descriptor at every `close`. -/
structure Server where
  table : PeerTable
  readfdsMaster : Finset ℕ
  writefdsMaster : Finset ℕ
  fdsetMax : ℕ
  sweep : Option Sweep
  descriptors : Descriptors
  closes : List (Option ℕ)

def Server.close (s : Server) (fd : ℕ) : Server :=
  { s with
    descriptors := s.descriptors.close fd
    closes := s.closes ++ [s.descriptors.owner fd] }

/-- `FD_SET` or `FD_CLR`. -/
def setBit (fds : Finset ℕ) (fd : ℕ) (b : Bool) : Finset ℕ :=
  if b then insert fd fds else fds.erase fd

def applyStatus (fd : ℕ) (v : PeerTable × FdStatus) (s : Server) : Server :=
  let s := { s with
    table := v.1
    readfdsMaster := setBit s.readfdsMaster fd v.2.wantRead
    writefdsMaster := setBit s.writefdsMaster fd v.2.wantWrite }
  if !v.2.wantRead && !v.2.wantWrite then s.close fd else s

/-- The results of the system calls that one iteration may make. -/
structure Outcome where
  accept : SysResult ℕ
  fcntl : SysResult Unit
  recv : SysResult (List UInt8)
  send : SysResult ℕ

/-- The listener is readable. An accepted descriptor was not open. -/
def acceptPeer (cfg : Config) (o : Outcome) (s : Server) : Option (Process Server) :=
  match o.accept with
  | .error e =>
      if e = .eagain ∨ e = .ewouldblock ∨ e = .eintr ∨ e = .econnaborted then
        some (.running s)
      else some .exited
  | .ok fd =>
      if s.descriptors.owner fd = none ∧ fd ∉ cfg.reserved then
        let s := { s with descriptors := s.descriptors.accept fd }
        if fd ≥ fdSetsize || !peerFdInRange s.table fd then some (.running (s.close fd))
        else
          match o.fcntl with
          | .error _ => some .exited
          | .ok _ =>
              let s := { s with fdsetMax := if fd > s.fdsetMax then fd else s.fdsetMax }
              some (.running (applyStatus fd (peerOnConnected s.table fd) s))
      else none

/-- Count a bit as serviced. -/
def Sweep.service (v : Sweep) (s : Server) (write : Bool) : Sweep :=
  { v with
    nready := v.nready - 1
    serviced := v.serviced ++ [⟨v.fd, write, s.descriptors.owner v.fd⟩] }

/-- The first `if` of an iteration. The last component is `closed`. -/
def readPart (cfg : Config) (o : Outcome) (v : Sweep) (s : Server) :
    Option (Process (Server × Sweep × Bool)) :=
  if v.fd ∈ v.readfds then
    if v.fd = cfg.listener then
      (acceptPeer cfg o s).map fun p => p.andThen fun s' => .running (s', v.service s false, false)
    else if (s.table.peers v.fd).AllowsRecv o.recv then
      let w := peerOnReadyRecv s.table v.fd o.recv
      some (.running
        (applyStatus v.fd w s, v.service s false, !w.2.wantRead && !w.2.wantWrite))
    else none
  else some (.running (s, v, false))

/-- The second `if` of an iteration. -/
def writePart (o : Outcome) (v : Sweep) (closed : Bool) (s : Server) : Server × Sweep :=
  if !closed && v.fd ∈ v.writefds then
    (applyStatus v.fd (peerOnReadySend s.table v.fd o.send) s, v.service s true)
  else (s, v)

def visit (cfg : Config) (o : Outcome) (v : Sweep) (s : Server) : Option (Process Server) :=
  (readPart cfg o v s).map fun p => p.andThen fun ⟨s', v', closed⟩ =>
    let (s'', v'') := writePart o v' closed s'
    .running { s'' with sweep := some { v'' with fd := v''.fd + 1 } }

/-- The condition of the inner loop. -/
def Server.sweeps (s : Server) (v : Sweep) : Prop := v.fd ≤ s.fdsetMax ∧ 0 < v.nready

instance (s : Server) (v : Sweep) : Decidable (s.sweeps v) :=
  inferInstanceAs (Decidable (_ ∧ _))

inductive Label where
  | select (r : SysResult (Finset ℕ × Finset ℕ))
  | visit (o : Outcome)
  | finish

/-- `select` returns subsets of the sets it was given, and how many bits are set
in them. -/
def Server.step (cfg : Config) (s : Server) : Label → Option (Process Server)
  | .select r =>
      match s.sweep, r with
      | some _, _ => none
      | none, .error e => if e = .eintr then some (.running s) else some .exited
      | none, .ok (readfds, writefds) =>
          if readfds ⊆ s.readfdsMaster ∧ writefds ⊆ s.writefdsMaster then
            some (.running { s with
              sweep := some {
                fd := 0
                readfds := readfds
                writefds := writefds
                nready := readfds.card + writefds.card
                owners := s.descriptors.owner
                fresh := s.descriptors.fresh
                serviced := [] } })
          else none
  | .visit o =>
      match s.sweep with
      | some v => if s.sweeps v then Select.visit cfg o v s else none
      | none => none
  | .finish =>
      match s.sweep with
      | some v => if s.sweeps v then none else some (.running { s with sweep := none })
      | none => none

/-- Before the first `select`. -/
def Server.start (cfg : Config) : Server where
  table := peerStateInit maxFds
  readfdsMaster := {cfg.listener}
  writefdsMaster := ∅
  fdsetMax := cfg.listener
  sweep := none
  descriptors := .empty
  closes := []

def server (cfg : Config) : Machine (Process Server) Label :=
  Process.machine (· = Server.start cfg) (Server.step cfg)

end ConcurrentServers.Select

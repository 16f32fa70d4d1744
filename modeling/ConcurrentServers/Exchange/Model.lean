import ConcurrentServers.Loadgen.Totals
import ConcurrentServers.Protocol.Service

/-!
# A connection of the load generator with the server behind it

`conn_main` on one side and `serve_connection` on the other are stepped over two
wires, on which bytes arrive in order and no byte is lost. The kernel holds a
bounded number of bytes in each direction, and a call that finds no room or no
byte blocks. Calls can be interrupted at any time. Connecting succeeds and no
timeout expires. A side closes its socket when its function has returned, and
the other side then gets the end of the stream, or a reset.
-/

namespace ConcurrentServers.Exchange

open Systems
open Loadgen (Conn Job connectTo)
open Protocol (Connection recvbufSize)

/-- The bytes that the kernel holds from the client to the server and back. -/
structure Rooms where
  up : ℕ
  down : ℕ

/-- The call of `serve_connection` may not have been made yet. -/
structure Session where
  client : Conn
  server : Option Connection
  up : List UInt8
  down : List UInt8

inductive Label where
  | client (a : Loadgen.Answer)
  | enter (state : Protocol.ProcessingState) (recvbuf : List.Vector UInt8 recvbufSize)
  | server (a : Protocol.Answer)

/-! ## The wires -/

/-- The answers of `send` on a wire with `room` bytes. -/
def sendPermits (room : ℕ) (wire : List UInt8) (closed : Bool) : SysResult ℕ → Bool
  | .ok n => 0 < n && wire.length + n ≤ room
  | .error e => e = .eintr || closed && (e = .epipe || e = .econnreset)

/-- The answers of `recv` on a wire. -/
def recvPermits (wire : List UInt8) (closed : Bool) : SysResult (List UInt8) → Bool
  | .ok [] => wire = [] && closed
  | .ok data => data.isPrefixOf wire
  | .error e => e = .eintr

/-- The bytes that an answer takes off the wire. -/
def received : SysResult (List UInt8) → List UInt8
  | .ok data => data
  | .error _ => []

/-! ## The client -/

/-- What the client puts on the wire. -/
def clientPuts (c : Conn) : Loadgen.Answer → List UInt8
  | .send r =>
      match c.control with
      | .sending _ k => k.taken r
      | _ => []
  | _ => []

def clientGets : Loadgen.Answer → List UInt8
  | .recv r => received r
  | _ => []

namespace Session

def serverReturned (s : Session) : Bool := (s.server.bind Connection.result).isSome

def clientPermits (rooms : Rooms) (s : Session) : Loadgen.Answer → Bool
  | .connect addresses => (connectTo addresses).isSome
  | .send r => sendPermits rooms.up s.up s.serverReturned r
  | .recv r => recvPermits s.down s.serverReturned r
  | _ => true

def afterClient (s : Session) (a : Loadgen.Answer) (c : Conn) : Session :=
  { s with
    client := c
    up := s.up ++ clientPuts s.client a
    down := s.down.drop (clientGets a).length }

def clientStep (job : Job) (rooms : Rooms) (s : Session) (a : Loadgen.Answer) : Option Session :=
  if s.clientPermits rooms a then
    (job.step s.client a).map (s.afterClient a)
  else none

/-! ## The server -/

def serverPermits (rooms : Rooms) (s : Session) : Protocol.Answer → Bool
  | .send r => sendPermits rooms.down s.down s.client.control.returns r
  | .recv r => recvPermits s.up s.client.control.returns r
  | .tick => true

end Session

/-- What the server puts on the wire. -/
def serverPuts (v : Connection) : Protocol.Answer → List UInt8
  | .send r =>
      match v.control with
      | .sendAck k | .sendReply k => k.taken r
      | _ => []
  | _ => []

def serverGets : Protocol.Answer → List UInt8
  | .recv r => received r
  | _ => []

namespace Session

def afterServer (s : Session) (v : Connection) (a : Protocol.Answer) (v' : Connection) : Session :=
  { s with
    server := some v'
    up := s.up.drop (serverGets a).length
    down := s.down ++ serverPuts v a }

def serverStep (rooms : Rooms) (s : Session) (a : Protocol.Answer) : Option Session :=
  s.server.bind fun v =>
    if s.serverPermits rooms a then
      (v.step a).map (s.afterServer v a)
    else none

/-- The server sees a connection when it has been established. -/
def step (job : Job) (rooms : Rooms) (s : Session) : Label → Option Session
  | .client a => s.clientStep job rooms a
  | .enter state recvbuf =>
      if s.server.isNone && s.client.connected then
        some { s with server := some (.entry state recvbuf) }
      else none
  | .server a => s.serverStep rooms a

def start : Session := ⟨.blank, none, [], []⟩

/-- Both functions have returned. -/
def Final (s : Session) : Prop :=
  s.client.control = .returned ∧ ∃ v r, s.server = some v ∧ v.result = some r

end Session

def exchange (job : Job) (rooms : Rooms) : Machine Session Label where
  init s := s = .start
  step := Session.step job rooms

/-- A call that was interrupted and will be made again. -/
def Label.interrupted : Label → Bool
  | .client (.send (.error e)) | .client (.recv (.error e)) => e = .eintr
  | .server (.send (.error e)) | .server (.recv (.error e)) => e = .eintr
  | _ => false

/-! ## What one step can do -/

variable {job : Job} {rooms : Rooms} {s t : Session}

inductive Moves (job : Job) (rooms : Rooms) (s : Session) : Label → Session → Prop where
  | client {a : Loadgen.Answer} {c : Conn} (hpermits : s.clientPermits rooms a = true)
      (hc : job.step s.client a = some c) :
      Moves job rooms s (.client a) (s.afterClient a c)
  | enter {state : Protocol.ProcessingState} {recvbuf : List.Vector UInt8 recvbufSize}
      (hnone : s.server = none) (hconnected : s.client.connected = true) :
      Moves job rooms s (.enter state recvbuf) { s with server := some (.entry state recvbuf) }
  | server {a : Protocol.Answer} {v v' : Connection} (hv : s.server = some v)
      (hpermits : s.serverPermits rooms a = true) (hv' : v.step a = some v') :
      Moves job rooms s (.server a) (s.afterServer v a v')

theorem moves_of_step {l : Label} (hs : s.step job rooms l = some t) : Moves job rooms s l t := by
  cases l with
  | client a =>
      obtain ⟨hpermits, hs⟩ := Option.ite_none_right_eq_some.mp hs
      obtain ⟨c, hc, rfl⟩ := Option.map_eq_some_iff.mp hs
      exact .client hpermits hc
  | enter state recvbuf =>
      obtain ⟨hguard, hs⟩ := Option.ite_none_right_eq_some.mp hs
      obtain ⟨hnone, hconnected⟩ := Bool.and_eq_true_iff.mp hguard
      cases hs
      exact .enter (Option.isNone_iff_eq_none.mp hnone) hconnected
  | server a =>
      obtain ⟨v, hv, hs⟩ := Option.bind_eq_some_iff.mp hs
      obtain ⟨hpermits, hs⟩ := Option.ite_none_right_eq_some.mp hs
      obtain ⟨v', hv', rfl⟩ := Option.map_eq_some_iff.mp hs
      exact .server hv hpermits hv'

end ConcurrentServers.Exchange

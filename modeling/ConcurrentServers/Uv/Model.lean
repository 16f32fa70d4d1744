import ConcurrentServers.PeerState.Consume
import ConcurrentServers.Library.Clients

/-!
# The callbacks of `uv_server.c`

A step is one callback, or the transmission of some bytes of a write by libuv.
The environment decides which comes next and with which result. A write whose
bytes are all transmitted completes with status 0, any other one that completes
at all does so with an error, which is `UV_ECANCELED` once the handle is closing.
What is only printed is left out.
-/

namespace ConcurrentServers.Uv

open Systems

def sendbufSize : ℕ := 1024

structure PeerState where
  state : ProcessingState
  sendbuf : List.Vector UInt8 sendbufSize
  sendbufEnd : ℕ

/-- The callback that a write was queued with. -/
inductive Callback where
  | onWroteInitAck
  | onWroteBuf
  deriving DecidableEq, Repr

/-- A client handle with its peer state. The field `received` is not in the source. It
records the bytes handed to `on_peer_read`. -/
structure Client extends Handle Callback UInt8 where
  peer : PeerState
  reading : Bool
  received : List UInt8

abbrev Server := Clients Client

def uvEcanceled : Errno := .other 125

/-! ## Writes -/

/-- `uv_write` of the first `sendbuf_end` bytes of `sendbuf`, with the result `r`. -/
def Client.uvWrite (client : Client) (cb : Callback) (r : SysResult Unit) : Process Client :=
  match r with
  | .error _ => .exited
  | .ok _ =>
      .running { client with writes := client.writes ++ [⟨cb, client.peer.sendbufEnd, 0⟩] }

/-- The kill switch: the staged output ends in `XYZ`. -/
def PeerState.endsInXYZ (peer : PeerState) : Bool :=
  3 ≤ peer.sendbufEnd && peer.sendbuf.1.getD (peer.sendbufEnd - 3) 0 == 'X'.toUInt8 &&
    peer.sendbuf.1.getD (peer.sendbufEnd - 2) 0 == 'Y'.toUInt8 &&
    peer.sendbuf.1.getD (peer.sendbufEnd - 1) 0 == 'Z'.toUInt8

/-- `uv_stop` lets `uv_run` return, and the process ends. -/
def onWroteBuf (status : SysResult Unit) (client : Client) : Process Client :=
  match status with
  | .error _ => .exited
  | .ok _ =>
      if client.peer.endsInXYZ then .exited
      else .running { client with peer := { client.peer with sendbufEnd := 0 } }

/-- `readStart` is the result of `uv_read_start`. -/
def onWroteInitAck (status readStart : SysResult Unit) (client : Client) : Process Client :=
  match status, readStart with
  | .error _, _ => .exited
  | .ok _, .error _ => .exited
  | .ok _, .ok _ =>
      .running { client with
        peer := { client.peer with state := .waitForMsg, sendbufEnd := 0 }
        reading := true }

def onWrote (cb : Callback) (status readStart : SysResult Unit) (client : Client) :
    Process Client :=
  match cb with
  | .onWroteInitAck => onWroteInitAck status readStart client
  | .onWroteBuf => onWroteBuf status client

/-! ## Reads -/

/-- What `nread` and the buffer say. -/
inductive ReadResult where
  | bytes (data : List UInt8)
  | eof
  | error (e : Errno)

/-- The body of the loop. A failed `assert` is `none`. -/
def consumeByte (peer : PeerState) (c : UInt8) : Option PeerState :=
  match peer.state with
  | .initialAck => none
  | .waitForMsg =>
      if c = '^'.toUInt8 then some { peer with state := .inMsg } else some peer
  | .inMsg =>
      if c = '$'.toUInt8 then some { peer with state := .waitForMsg }
      else if peer.sendbufEnd < sendbufSize then
        some { peer with
          sendbuf := Buffer.store peer.sendbuf peer.sendbufEnd (c + 1)
          sendbufEnd := peer.sendbufEnd + 1 }
      else none

def consume (peer : PeerState) (data : List UInt8) : Option PeerState :=
  data.foldlM consumeByte peer

/-- `write` is the result of `uv_write`, if it is called. -/
def onPeerRead (r : ReadResult) (write : SysResult Unit) (client : Client) : Process Client :=
  match r with
  | .eof | .error _ => .running { client with closing := true }
  | .bytes [] => .running client
  | .bytes data =>
      let client := { client with received := client.received ++ data }
      if client.peer.state = .initialAck then .running client
      else
        match consume client.peer data with
        | none => .exited
        | some peer =>
            if peer.sendbufEnd > 0 then { client with peer := peer }.uvWrite .onWroteBuf write
            else .running { client with peer := peer }

/-! ## Connections -/

/-- The results of the calls that `on_peer_connected` makes, in their order. -/
structure Connected where
  status : SysResult Unit
  tcpInit : SysResult Unit
  accept : SysResult Unit
  getpeername : SysResult Unit
  write : SysResult Unit

/-- The peer state comes from `malloc`, with any bytes behind the first. -/
def Client.connected (sendbuf : List.Vector UInt8 sendbufSize) : Client where
  peer := ⟨.initialAck, Buffer.store sendbuf 0 '*'.toUInt8, 1⟩
  reading := false
  closing := false
  writes := []
  received := []
  transmitted := []

/-- A handle whose `uv_accept` failed has no peer state and is closed at once. -/
def onPeerConnected (r : Connected) (sendbuf : List.Vector UInt8 sendbufSize) (c : ℕ)
    (s : Server) : Process Server :=
  match r.status, r.tcpInit, r.accept, r.getpeername with
  | .error _, _, _, _ => .running s
  | .ok _, .error _, _, _ => .exited
  | .ok _, .ok _, .error _, _ => .running s
  | .ok _, .ok _, .ok _, .error _ => .exited
  | .ok _, .ok _, .ok _, .ok _ =>
      ((Client.connected sendbuf).uvWrite .onWroteInitAck r.write).andThen fun client =>
        .running (s.set c (some client))

inductive Label where
  | connected (c : ℕ) (r : Connected) (sendbuf : List.Vector UInt8 sendbufSize)
  | transmit (c k : ℕ)
  | wrote (c : ℕ) (status readStart : SysResult Unit)
  | read (c : ℕ) (r : ReadResult) (write : SysResult Unit)
  | closed (c : ℕ)

/-- The client that a step is about. -/
def Label.client : Label → ℕ
  | .connected c _ _ | .transmit c _ | .wrote c _ _ | .read c _ _ | .closed c => c

/-- Reads are delivered between `uv_read_start` and `uv_close`. The close
callback comes behind all write callbacks. -/
def Client.step (client : Client) : Label → Option (Process (Option Client))
  | .connected _ _ _ => none
  | .transmit _ k =>
      (client.transmit client.peer.sendbuf k).map fun handle =>
        .running (some { client with toHandle := handle })
  | .wrote _ status readStart =>
      match client.writes with
      | [] => none
      | w :: ws =>
          if client.Completes uvEcanceled w status then
            some ((onWrote w.kind status readStart { client with writes := ws }).andThen
              fun client => .running (some client))
          else none
  | .read _ r write =>
      if client.reading && !client.closing then
        some ((onPeerRead r write client).andThen fun client => .running (some client))
      else none
  | .closed _ =>
      if client.closing && client.writes.isEmpty then some (.running none) else none

def Server.arrive (s : Server) : Label → Option (Process Server)
  | .connected c r sendbuf => some (onPeerConnected r sendbuf c s)
  | _ => none

def Server.step : Server → Label → Option (Process Server) :=
  Clients.step Label.client Server.arrive Client.step

def Server.start : Server := ⟨fun _ => none⟩

def server : Machine (Process Server) Label :=
  Process.machine (· = Server.start) Server.step

end ConcurrentServers.Uv

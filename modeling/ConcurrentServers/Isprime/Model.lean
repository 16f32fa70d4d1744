import ConcurrentServers.Uv.Model
import ConcurrentServers.Library.Text

/-!
# The callbacks of `uv_isprime_server.c`

A step is one callback, one run of a worker, or the transmission of some bytes of
a write. All requests of a connection share the peer state: what a queued work
item or a queued write will find there is decided when it runs. A work item
holds nothing but a pointer to the peer state, so only their numbers matter.
What is only printed is left out.
-/

namespace ConcurrentServers.Isprime

open Systems
open Systems.Text (ascii IsDigit)
open Uv (ReadResult uvEcanceled)

/-! ## The primality test -/

/-- The loop of `isprime`, with at most `fuel` iterations left. Products wrap. -/
def isprimeLoop (n : UInt64) : ℕ → UInt64 → Option Bool
  | 0, _ => none
  | fuel + 1, r =>
      if r * r ≤ n then
        if n % r = 0 then some false else isprimeLoop n fuel (r + 2)
      else some true

/-- The loop returns at the latest when `r` is `n` itself, whatever the products
are. -/
theorem isSome_isprimeLoop {n : UInt64} (hn : n.toNat % 2 = 1) {fuel : ℕ} {r : UInt64}
    (hr : r.toNat % 2 = 1) (hle : r ≤ n) (hfuel : n.toNat < r.toNat + 2 * fuel) :
    (isprimeLoop n fuel r).isSome = true := by
  induction fuel generalizing r with
  | zero =>
      have hle' := UInt64.le_iff_toNat_le.mp hle
      omega
  | succ fuel ih =>
      rw [isprimeLoop]
      split
      · split
        · rfl
        · next hmod =>
            have hne : r ≠ n := by
              rintro rfl
              exact hmod (by simp)
            have hlt := UInt64.lt_iff_toNat_lt.mp (UInt64.lt_of_le_of_ne hle hne)
            have hbound := n.toNat_lt
            have hnext : (r + 2).toNat = r.toNat + 2 := by
              rw [UInt64.toNat_add, Nat.mod_eq_of_lt]
              · rfl
              · change r.toNat + 2 < 2 ^ 64
                omega
            refine ih (by omega) (UInt64.le_iff_toNat_le.mpr (by omega)) (by omega)
      · rfl

theorem isSome_isprimeLoop_three {n : UInt64} (hn : ¬n % 2 = 0) :
    (isprimeLoop n (n.toNat + 1) 3).isSome = true := by
  have hodd : n.toNat % 2 = 1 := by
    have hmod : (n % 2).toNat = n.toNat % 2 := UInt64.toNat_mod n 2
    have hne : (n % 2).toNat ≠ 0 := fun hzero => hn (UInt64.toNat_inj.mp hzero)
    omega
  by_cases hle : 3 ≤ n
  · exact isSome_isprimeLoop hodd rfl hle (by omega)
  · have hlt := UInt64.lt_iff_toNat_lt.mp (UInt64.not_le.mp hle)
    have hone : n = 1 := by
      apply UInt64.toNat_inj.mp
      change n.toNat < 3 at hlt
      change n.toNat = 1
      omega
    rw [hone]
    rfl

def isprime (n : UInt64) : Bool :=
  if h : n % 2 = 0 then n == 2
  else (isprimeLoop n (n.toNat + 1) 3).get (isSome_isprimeLoop_three h)

/-! ## Requests and replies -/

/-- The loop that parses a request. Values wrap. -/
def parseNumber (number : UInt64) : List UInt8 → UInt64
  | [] => number
  | c :: cs =>
      if IsDigit c then parseNumber (number * 10 + (c - '0'.toUInt8).toUInt64) cs else number

def sendbufSize : ℕ := 1024

structure PeerState where
  number : UInt64
  sendbuf : List.Vector UInt8 sendbufSize
  sendbufEnd : ℕ

/-- The loop of `set_peer_sendbuf` from `i` on. A failed `assert` is `none`. -/
def copyFrom (sendbuf : List.Vector UInt8 sendbufSize) (i : ℕ) :
    List UInt8 → Option (List.Vector UInt8 sendbufSize × ℕ)
  | [] => some (sendbuf, i)
  | c :: cs =>
      if i < sendbufSize then copyFrom (Buffer.store sendbuf i c) (i + 1) cs else none

def setPeerSendbuf (peer : PeerState) (str : List UInt8) : Option PeerState :=
  (copyFrom peer.sendbuf 0 str).map fun r => { peer with sendbuf := r.1, sendbufEnd := r.2 }

def onWorkSubmitted (peer : PeerState) : Option PeerState :=
  if isprime peer.number then setPeerSendbuf peer (ascii "prime\n")
  else setPeerSendbuf peer (ascii "composite\n")

/-! ## Callbacks -/

/-- The value of the environment variable `MODE`. -/
inductive Mode where
  | workQueue
  | block
  deriving DecidableEq, Repr

/-- A client handle with its peer state. `queued` is the number of its work items
that no worker has run yet, and `executed` the number of those that have run and
whose completion is not reported. The field `requests` is not in the source. It
records the requests that were read. -/
structure Client extends Handle Unit UInt8 where
  peer : PeerState
  freed : Bool
  queued : ℕ
  executed : ℕ
  requests : List (List UInt8)

abbrev Server := Clients Client

/-- `uv_write` of the first `sendbuf_end` bytes of `sendbuf`, with the result `r`. -/
def Client.uvWrite (client : Client) (r : SysResult Unit) : Process Client :=
  match r with
  | .error _ => .exited
  | .ok _ => .running { client with writes := client.writes ++ [⟨(), client.peer.sendbufEnd, 0⟩] }

def Client.uvQueueWork (client : Client) (r : SysResult Unit) : Process Client :=
  match r with
  | .error _ => .exited
  | .ok _ => .running { client with queued := client.queued + 1 }

/-- `call` is the result of `uv_queue_work` or `uv_write`, if it is called. -/
def onPeerRead (mode : Mode) (r : ReadResult) (call : SysResult Unit) (client : Client) :
    Process Client :=
  match r with
  | .eof | .error _ => .running { client with closing := true }
  | .bytes [] => .running client
  | .bytes data =>
      let client := { client with
        peer := { client.peer with number := parseNumber 0 data }
        requests := client.requests ++ [data] }
      match mode with
      | .workQueue => client.uvQueueWork call
      | .block =>
          match onWorkSubmitted client.peer with
          | none => .exited
          | some peer => { client with peer := peer }.uvWrite call

def onWorkCompleted (status write : SysResult Unit) (client : Client) : Process Client :=
  match status with
  | .error _ => .exited
  | .ok _ => client.uvWrite write

def onSentResponse (status : SysResult Unit) (client : Client) : Process Client :=
  match status with
  | .error _ => .exited
  | .ok _ => .running client

/-! ## Connections -/

/-- The results of the calls that `on_peer_connected` makes, in their order. -/
structure Connected where
  status : SysResult Unit
  tcpInit : SysResult Unit
  accept : SysResult Unit
  getpeername : SysResult Unit
  readStart : SysResult Unit

/-- The peer state comes from `malloc`, and only `sendbuf_end` is set. -/
def Client.connected (peer : PeerState) : Client where
  peer := { peer with sendbufEnd := 0 }
  closing := false
  freed := false
  queued := 0
  executed := 0
  writes := []
  requests := []
  transmitted := []

/-- A handle whose `uv_accept` failed has no peer state and is closed at once. -/
def onPeerConnected (r : Connected) (peer : PeerState) (c : ℕ) (s : Server) : Process Server :=
  match r.status, r.tcpInit, r.accept, r.getpeername, r.readStart with
  | .error _, _, _, _, _ => .running s
  | .ok _, .error _, _, _, _ => .exited
  | .ok _, .ok _, .error _, _, _ => .running s
  | .ok _, .ok _, .ok _, .error _, _ => .exited
  | .ok _, .ok _, .ok _, .ok _, .error _ => .exited
  | .ok _, .ok _, .ok _, .ok _, .ok _ => .running (s.set c (some (.connected peer)))

inductive Label where
  | connected (c : ℕ) (r : Connected) (peer : PeerState)
  | read (c : ℕ) (r : ReadResult) (call : SysResult Unit)
  | work (c : ℕ)
  | completed (c : ℕ) (status write : SysResult Unit)
  | transmit (c k : ℕ)
  | sent (c : ℕ) (status : SysResult Unit)
  | closed (c : ℕ)

/-- The client that a step is about. -/
def Label.client : Label → ℕ
  | .connected c _ _ | .read c _ _ | .work c | .completed c _ _ | .transmit c _ | .sent c _
  | .closed c => c

/-- A run of a worker. Without a peer state it has no defined behaviour, which is
taken as an exit, like a failed `assert`. -/
def Client.work (client : Client) : Process Client :=
  if client.freed then .exited
  else
    match onWorkSubmitted client.peer with
    | none => .exited
    | some peer =>
        .running { client with
          peer := peer, queued := client.queued - 1, executed := client.executed + 1 }

/-- The completion of a work item, with the same remark. -/
def Client.completed (client : Client) (status write : SysResult Unit) : Process Client :=
  if client.freed then .exited
  else onWorkCompleted status write { client with executed := client.executed - 1 }

/-- `on_client_closed` frees the peer state, also under work items that are still
to run or to be reported. -/
def Client.close (client : Client) : Option Client :=
  if client.queued = 0 ∧ client.executed = 0 then none else some { client with freed := true }

/-- Reads are delivered until `uv_close`, and `uv_write` fails behind it. The
close callback comes behind all write callbacks. -/
def Client.step (mode : Mode) (client : Client) : Label → Option (Process (Option Client))
  | .connected _ _ _ => none
  | .read _ r call =>
      if client.closing then none
      else some ((onPeerRead mode r call client).andThen fun client => .running (some client))
  | .work _ =>
      if 0 < client.queued then some (client.work.andThen fun client => .running (some client))
      else none
  | .completed _ status write =>
      if 0 < client.executed ∧ (client.closing = true → write ≠ .ok ()) then
        some ((client.completed status write).andThen fun client => .running (some client))
      else none
  | .transmit _ k =>
      (client.transmit client.peer.sendbuf k).map fun handle =>
        .running (some { client with toHandle := handle })
  | .sent _ status =>
      match client.writes with
      | [] => none
      | w :: ws =>
          if client.Completes uvEcanceled w status then
            some ((onSentResponse status { client with writes := ws }).andThen
              fun client => .running (some client))
          else none
  | .closed _ =>
      if client.closing && client.writes.isEmpty && !client.freed then
        some (.running client.close)
      else none

def Server.arrive (s : Server) : Label → Option (Process Server)
  | .connected c r peer => some (onPeerConnected r peer c s)
  | _ => none

def Server.step (mode : Mode) : Server → Label → Option (Process Server) :=
  Clients.step Label.client Server.arrive (Client.step mode)

def Server.start : Server := ⟨fun _ => none⟩

def server (mode : Mode) : Machine (Process Server) Label :=
  Process.machine (· = Server.start) (Server.step mode)

end ConcurrentServers.Isprime

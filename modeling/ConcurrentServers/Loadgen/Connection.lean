import ConcurrentServers.Protocol.ServeConnection

/-!
# A connection of `loadgen.c`

`conn_main` runs on a thread of its own and is stepped from one answer of its
environment to the next: the calls that make up `connect_to`, the start barrier,
and every `recv` and `send`. Times are left out, and so are the calls whose
results are not used.
-/

namespace ConcurrentServers.Loadgen

open Systems
open Protocol (SendAll)

def maxPayload : ℕ := 512

/-! ## Connecting -/

def einprogress : Errno := .other 115

/-- The results of the calls that `connect_to` makes for one address. -/
structure Attempt where
  socket : SysResult ℕ
  getFlags : SysResult Unit
  setNonblock : SysResult Unit
  connect : SysResult Unit
  poll : SysResult ℕ
  soError : SysResult ℕ
  setFlags : SysResult Unit

/-- Whether `connect_with_timeout` returns zero. -/
def connectWithTimeout (a : Attempt) : Bool :=
  match a.getFlags, a.setNonblock with
  | .ok _, .ok _ =>
      match a.connect with
      | .ok _ => a.setFlags.toBool
      | .error e =>
          if e = einprogress then
            match a.poll, a.soError with
            | .ok n, .ok soerr => if n = 0 ∨ soerr ≠ 0 then false else a.setFlags.toBool
            | _, _ => false
          else false
  | _, _ => false

/-- The descriptor, or nothing when `connect_to` returns `-1`. The argument is the list
of addresses, unless `getaddrinfo` fails. -/
def connectTo (addresses : Option (List Attempt)) : Option ℕ :=
  addresses.bind fun as => as.findSome? fun a =>
    match a.socket with
    | .ok fd => if connectWithTimeout a then some fd else none
    | .error _ => none

/-! ## Receiving -/

/-- A call of `recv_exact` that has not returned. -/
structure RecvExact where
  len : ℕ
  got : List UInt8

inductive RecvExact.Next where
  | again (r : RecvExact)
  | done (buf : List UInt8)
  | failed

/-- One round of the loop, for the answer of `recv`. -/
def RecvExact.round (r : RecvExact) : SysResult (List UInt8) → RecvExact.Next
  | .error e => if e = .eintr then .again r else .failed
  | .ok [] => .failed
  | .ok data =>
      if (r.got ++ data).length < r.len then .again { r with got := r.got ++ data }
      else .done (r.got ++ data)

/-- The kernel does not return more than it was asked for. -/
def RecvExact.allows (r : RecvExact) : SysResult (List UInt8) → Bool
  | .error _ => true
  | .ok data => data.length ≤ r.len - r.got.length

/-! ## The request -/

def payloadByte (i : ℕ) : UInt8 := 'a'.toUInt8 + UInt8.ofNat (i % 26)

def request (n : ℕ) : List UInt8 :=
  '^'.toUInt8 :: (List.range n).map payloadByte ++ ['$'.toUInt8]

def expected (n : ℕ) : List UInt8 := (List.range n).map fun i => payloadByte i + 1

/-! ## `conn_main` -/

/-- The number in `sending` and `receiving` is that of the message. -/
inductive Control where
  | unborn
  | connecting
  | arriving (fd : Option ℕ)
  | waiting (fd : Option ℕ)
  | passed (fd : Option ℕ)
  | recvAck (r : RecvExact)
  | sending (m : ℕ) (k : SendAll)
  | receiving (m : ℕ) (r : RecvExact)
  | returned

/-- The fields of `conn_ctx_t` that the thread fills in. The field `echoes` is not in the
source. It records what was received for each completed request. -/
structure Conn where
  control : Control
  connected : Bool
  completed : ℕ
  errors : ℕ
  mismatches : ℕ
  echoes : List (List UInt8)

/-- What the environment does: it starts the thread, answers `connect_to`, lets it call
`pthread_barrier_wait` and return from it, lets it run on, and answers `recv` and
`send`. -/
inductive Answer where
  | start
  | connect (addresses : Option (List Attempt))
  | arrive
  | release
  | proceed
  | recv (r : SysResult (List UInt8))
  | send (r : SysResult ℕ)

/-- The number of messages and of payload bytes of each connection. -/
structure Job where
  messages : ℕ
  payloadBytes : ℕ
  payload_pos : 1 ≤ payloadBytes
  payload_le : payloadBytes ≤ maxPayload

/-- The head of the loop over the messages. -/
def Job.head (job : Job) (m : ℕ) : Control :=
  if m < job.messages then .sending m ⟨request job.payloadBytes, 0⟩ else .returned

/-- The end of an iteration, with an echo in `got`. -/
def Job.complete (job : Job) (c : Conn) (m : ℕ) (got : List UInt8) : Conn :=
  { c with
    mismatches := if got ≠ expected job.payloadBytes then c.mismatches + 1 else c.mismatches
    completed := c.completed + 1
    echoes := c.echoes ++ [got]
    control := job.head (m + 1) }

def Conn.failAll (c : Conn) (job : Job) : Conn :=
  { c with errors := job.messages, control := .returned }

def Conn.failOne (c : Conn) : Conn :=
  { c with errors := c.errors + 1, control := .returned }

def Job.stepRecv (job : Job) (c : Conn) (r : SysResult (List UInt8)) : Option Conn :=
  match c.control with
  | .recvAck k =>
      if k.allows r then
        match k.round r with
        | .again k' => some { c with control := .recvAck k' }
        | .failed => some (c.failAll job)
        | .done ack =>
            if ack ≠ ['*'.toUInt8] then some (c.failAll job)
            else some { c with control := job.head 0 }
      else none
  | .receiving m k =>
      if k.allows r then
        match k.round r with
        | .again k' => some { c with control := .receiving m k' }
        | .failed => some c.failOne
        | .done got => some (job.complete c m got)
      else none
  | _ => none

/-- What `send` can return. The process does not ignore `SIGPIPE`, which ends it where
`send` would return `EPIPE`. -/
def sendReturns (k : SendAll) : SysResult ℕ → Bool
  | .error .epipe => false
  | r => k.allows r

def Job.stepSend (job : Job) (c : Conn) (r : SysResult ℕ) : Option Conn :=
  match c.control with
  | .sending m k =>
      if sendReturns k r then
        match k.round r with
        | .again k' => some { c with control := .sending m k' }
        | .failed _ => some c.failOne
        | .done => some { c with control := .receiving m ⟨job.payloadBytes, []⟩ }
      else none
  | _ => none

def Job.step (job : Job) (c : Conn) : Answer → Option Conn
  | .start =>
      match c.control with
      | .unborn => some { c with control := .connecting }
      | _ => none
  | .connect addresses =>
      match c.control with
      | .connecting =>
          let fd := connectTo addresses
          some { c with connected := fd.isSome, control := .arriving fd }
      | _ => none
  | .arrive =>
      match c.control with
      | .arriving fd => some { c with control := .waiting fd }
      | _ => none
  | .release =>
      match c.control with
      | .waiting fd => some { c with control := .passed fd }
      | _ => none
  | .proceed =>
      match c.control with
      | .passed none => some (c.failAll job)
      | .passed (some _) => some { c with control := .recvAck ⟨1, []⟩ }
      | _ => none
  | .recv r => job.stepRecv c r
  | .send r => job.stepSend c r

/-- The context as `calloc` leaves it. -/
def Conn.blank : Conn := ⟨.unborn, false, 0, 0, 0, []⟩

def connMain (job : Job) : Machine Conn Answer where
  init c := c = .blank
  step := job.step

end ConcurrentServers.Loadgen

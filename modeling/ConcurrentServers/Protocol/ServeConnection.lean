import ConcurrentServers.Frame
import ConcurrentServers.Posix
import ConcurrentServers.Library.Buffer
import ConcurrentServers.Library.Machine

/-!
# `serve_connection` of `protocol.c`

The function runs on its own thread and is stepped here from one kernel answer
to the next. Its control is inside one of the two `send_all` calls, at `recv`,
at the head of the loop that rewrites `recvbuf` in place, or behind a return.
The label of a step is the answer of the kernel, or `tick` for a round of the
loop, which makes no system call.
-/

namespace ConcurrentServers.Protocol

open Systems

def recvbufSize : ℕ := 1024

inductive ProcessingState where
  | waitForMsg
  | inMsg
  deriving DecidableEq, Repr

inductive ServeResult where
  | serveOk
  | servePeerReset
  | serveIoError
  deriving DecidableEq, Repr

def classifyErrno (e : Errno) : ServeResult :=
  if e = .econnreset ∨ e = .epipe ∨ e = .etimedout then .servePeerReset
  else .serveIoError

/-! ## `send_all` -/

/-- A call of `send_all` that has not returned. -/
structure SendAll where
  buf : List UInt8
  sent : ℕ

inductive SendAll.Next where
  | again (c : SendAll)
  | done
  | failed (e : Errno)

/-- One round of the loop, for the answer of `send`. -/
def SendAll.round (c : SendAll) : SysResult ℕ → SendAll.Next
  | .error e => if e = .eintr then .again c else .failed e
  | .ok n =>
      if c.sent + n < c.buf.length then .again { c with sent := c.sent + n } else .done

/-- The bytes that the kernel accepts with this answer. -/
def SendAll.taken (c : SendAll) : SysResult ℕ → List UInt8
  | .error _ => []
  | .ok n => (c.buf.drop c.sent).take n

/-- The kernel does not accept more than it was given. -/
def SendAll.allows (c : SendAll) : SysResult ℕ → Bool
  | .error _ => true
  | .ok n => n ≤ c.buf.length - c.sent

/-! ## `serve_connection` -/

inductive Control where
  | sendAck (c : SendAll)
  | recv
  | transform (len i nsend : ℕ)
  | sendReply (c : SendAll)
  | returned (r : ServeResult)

/-- The variables of the function, with what the kernel has seen: all bytes
received, the ones of the last `recv`, all bytes it accepted for sending, and
the number of calls of `metrics_request_observed`. -/
structure Connection where
  control : Control
  state : ProcessingState
  recvbuf : List.Vector UInt8 recvbufSize
  received : List UInt8
  chunk : List UInt8
  accepted : List UInt8
  observed : ℕ

inductive Answer where
  | send (r : SysResult ℕ)
  | recv (r : SysResult (List UInt8))
  | tick

/-- A round of the loop over `recvbuf`. -/
def Connection.transformByte (c : Connection) (len i nsend : ℕ) : Connection :=
  let b := c.recvbuf.1.getD i 0
  match c.state with
  | .waitForMsg =>
      { c with
        state := if b = '^'.toUInt8 then .inMsg else .waitForMsg
        control := .transform len (i + 1) nsend }
  | .inMsg =>
      if b = '$'.toUInt8 then
        { c with state := .waitForMsg, control := .transform len (i + 1) nsend }
      else
        { c with
          recvbuf := Buffer.store c.recvbuf nsend (b + 1)
          control := .transform len (i + 1) (nsend + 1) }

/-- Behind the last statement of an iteration, on the way to the next `recv`. -/
def Connection.requestObserved (c : Connection) : Connection :=
  { c with control := .recv, observed := c.observed + 1 }

def Connection.step (c : Connection) : Answer → Option Connection
  | .send r =>
      match c.control with
      | .sendAck k =>
          if k.allows r then
            let c := { c with accepted := c.accepted ++ k.taken r }
            match k.round r with
            | .again k' => some { c with control := .sendAck k' }
            | .done => some { c with control := .recv, state := .waitForMsg }
            | .failed e => some { c with control := .returned (classifyErrno e) }
          else none
      | .sendReply k =>
          if k.allows r then
            let c := { c with accepted := c.accepted ++ k.taken r }
            match k.round r with
            | .again k' => some { c with control := .sendReply k' }
            | .done => some c.requestObserved
            | .failed e => some { c with control := .returned (classifyErrno e) }
          else none
      | _ => none
  | .recv r =>
      match c.control with
      | .recv =>
          match r with
          | .error e =>
              if e = .eintr then some c
              else some { c with control := .returned (classifyErrno e) }
          | .ok [] => some { c with control := .returned .serveOk }
          | .ok data =>
              if data.length ≤ recvbufSize then
                some { c with
                  recvbuf := Buffer.overwrite c.recvbuf data
                  received := c.received ++ data
                  chunk := data
                  control := .transform data.length 0 0 }
              else none
      | _ => none
  | .tick =>
      match c.control with
      | .transform len i nsend =>
          if i < len then some (c.transformByte len i nsend)
          else if nsend > 0 then
            some { c with control := .sendReply ⟨Buffer.slice c.recvbuf 0 nsend, 0⟩ }
          else some c.requestObserved
      | _ => none

/-- At the entry, with any bytes in the uninitialised buffer. -/
def Connection.entry (state : ProcessingState) (recvbuf : List.Vector UInt8 recvbufSize) :
    Connection :=
  ⟨.sendAck ⟨['*'.toUInt8], 0⟩, state, recvbuf, [], [], [], 0⟩

def serveConnection : Machine Connection Answer where
  init c := ∃ state recvbuf, c = .entry state recvbuf
  step := Connection.step

/-! ## What one step can do -/

/-- The steps from each control point. -/
inductive Moves (c : Connection) : Control → Answer → Connection → Prop where
  | ackAgain {k k' : SendAll} {r : SysResult ℕ} (hallow : k.allows r = true)
      (hk : k.round r = .again k') :
      Moves c (.sendAck k) (.send r)
        { c with accepted := c.accepted ++ k.taken r, control := .sendAck k' }
  | ackDone {k : SendAll} {r : SysResult ℕ} (hallow : k.allows r = true)
      (hk : k.round r = .done) :
      Moves c (.sendAck k) (.send r)
        { c with accepted := c.accepted ++ k.taken r, control := .recv, state := .waitForMsg }
  | ackFailed {k : SendAll} {r : SysResult ℕ} {e : Errno} (hallow : k.allows r = true)
      (hk : k.round r = .failed e) :
      Moves c (.sendAck k) (.send r)
        { c with accepted := c.accepted ++ k.taken r, control := .returned (classifyErrno e) }
  | replyAgain {k k' : SendAll} {r : SysResult ℕ} (hallow : k.allows r = true)
      (hk : k.round r = .again k') :
      Moves c (.sendReply k) (.send r)
        { c with accepted := c.accepted ++ k.taken r, control := .sendReply k' }
  | replyDone {k : SendAll} {r : SysResult ℕ} (hallow : k.allows r = true)
      (hk : k.round r = .done) :
      Moves c (.sendReply k) (.send r)
        (Connection.requestObserved { c with accepted := c.accepted ++ k.taken r })
  | replyFailed {k : SendAll} {r : SysResult ℕ} {e : Errno} (hallow : k.allows r = true)
      (hk : k.round r = .failed e) :
      Moves c (.sendReply k) (.send r)
        { c with accepted := c.accepted ++ k.taken r, control := .returned (classifyErrno e) }
  | interrupted : Moves c .recv (.recv (.error .eintr)) c
  | recvFailed {e : Errno} (he : e ≠ .eintr) :
      Moves c .recv (.recv (.error e)) { c with control := .returned (classifyErrno e) }
  | closed : Moves c .recv (.recv (.ok [])) { c with control := .returned .serveOk }
  | block {b : UInt8} {data : List UInt8} (hlen : (b :: data).length ≤ recvbufSize) :
      Moves c .recv (.recv (.ok (b :: data)))
        { c with
          recvbuf := Buffer.overwrite c.recvbuf (b :: data)
          received := c.received ++ b :: data
          chunk := b :: data
          control := .transform (b :: data).length 0 0 }
  | byte {len i nsend : ℕ} (hi : i < len) :
      Moves c (.transform len i nsend) .tick (c.transformByte len i nsend)
  | reply {len i nsend : ℕ} (hi : ¬i < len) (hpos : nsend > 0) :
      Moves c (.transform len i nsend) .tick
        { c with control := .sendReply ⟨Buffer.slice c.recvbuf 0 nsend, 0⟩ }
  | silent {len i nsend : ℕ} (hi : ¬i < len) (hzero : ¬nsend > 0) :
      Moves c (.transform len i nsend) .tick c.requestObserved

variable {c c' : Connection}

theorem moves_of_send {r : SysResult ℕ} (hs : c.step (.send r) = some c') :
    Moves c c.control (.send r) c' := by
  unfold Connection.step at hs
  cases hc : c.control with
  | sendAck k =>
      simp only [hc] at hs
      obtain ⟨hallow, hs⟩ := Option.ite_none_right_eq_some.mp hs
      cases hk : k.round r with
      | again k' =>
          simp only [hk, Option.some.injEq] at hs
          subst hs
          exact .ackAgain hallow hk
      | done =>
          simp only [hk, Option.some.injEq] at hs
          subst hs
          exact .ackDone hallow hk
      | failed e =>
          simp only [hk, Option.some.injEq] at hs
          subst hs
          exact .ackFailed hallow hk
  | sendReply k =>
      simp only [hc] at hs
      obtain ⟨hallow, hs⟩ := Option.ite_none_right_eq_some.mp hs
      cases hk : k.round r with
      | again k' =>
          simp only [hk, Option.some.injEq] at hs
          subst hs
          exact .replyAgain hallow hk
      | done =>
          simp only [hk, Option.some.injEq] at hs
          subst hs
          exact .replyDone hallow hk
      | failed e =>
          simp only [hk, Option.some.injEq] at hs
          subst hs
          exact .replyFailed hallow hk
  | _ => simp [hc] at hs

theorem moves_of_recv {r : SysResult (List UInt8)} (hs : c.step (.recv r) = some c') :
    Moves c c.control (.recv r) c' := by
  unfold Connection.step at hs
  cases hc : c.control with
  | recv =>
      simp only [hc] at hs
      cases r with
      | error e =>
          by_cases he : e = .eintr
          · subst he
            cases hs
            exact .interrupted
          · simp only [he, if_false, Option.some.injEq] at hs
            subst hs
            exact .recvFailed he
      | ok data =>
          cases data with
          | nil =>
              cases hs
              exact .closed
          | cons b data =>
              obtain ⟨hlen, hs⟩ := Option.ite_none_right_eq_some.mp hs
              cases hs
              exact .block hlen
  | _ => simp [hc] at hs

theorem moves_of_tick (hs : c.step .tick = some c') : Moves c c.control .tick c' := by
  unfold Connection.step at hs
  cases hc : c.control with
  | transform len i nsend =>
      simp only [hc] at hs
      split at hs
      · next hi =>
          cases hs
          exact .byte hi
      · next hi =>
          split at hs
          · next hpos =>
              cases hs
              exact .reply hi hpos
          · next hzero =>
              cases hs
              exact .silent hi hzero
  | _ => simp [hc] at hs

theorem moves_of_step {a : Answer} (hs : c.step a = some c') : Moves c c.control a c' := by
  cases a with
  | send r => exact moves_of_send hs
  | recv r => exact moves_of_recv hs
  | tick => exact moves_of_tick hs

end ConcurrentServers.Protocol

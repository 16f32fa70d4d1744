import ConcurrentServers.MetricsServer.Serve

/-!
# Starting and stopping the metrics endpoint

One thread calls `metrics_server_start` and `metrics_server_stop`, and a thread
that the first of them creates runs `accept_loop`. The steps of the two threads
interleave. A call is stepped from one kernel answer to the next, and when it
returns it is recorded with the state that it found and the state that it left.
-/

namespace ConcurrentServers.MetricsServer

open Systems

/-! ## `accept_loop` -/

inductive AcceptLoop where
  | head
  | poll
  | accept
  | serving (s : Serve)
  | returned

/-- The answers of the kernel. A connection comes with what its client will send and
with the bytes that the stack holds where `serve` has its buffer. -/
inductive ThreadEvent where
  | test
  | poll (r : SysResult Bool)
  | accept (r : SysResult (List.Vector UInt8 requestMax × List UInt8))
  | serve (a : Event)
  | close

def AcceptLoop.step (gRunning : Bool) : AcceptLoop → ThreadEvent → Option AcceptLoop
  | .head, .test => some (if gRunning then .poll else .returned)
  | .poll, .poll (.error e) => some (if e = .eintr then .head else .returned)
  | .poll, .poll (.ok ready) => some (if ready then .accept else .head)
  | .accept, .accept (.error e) =>
      some (if e = .eintr ∨ e = .econnaborted ∨ e = .emfile then .head else .returned)
  | .accept, .accept (.ok (buf, stream)) => some (.serving (.entry buf stream))
  | .serving s, .serve a => (s.step a).map .serving
  | .serving s, .close =>
      match s.control with
      | .returned => some .head
      | _ => none
  | _, _ => none

/-! ## The calls -/

/-- `EALREADY`. -/
def ealready : Errno := .other 114

/-- What can be observed of the endpoint: three of its variables, where `none` is the
descriptor `-1`, the listening sockets that are open, and the threads that were not
joined. -/
structure Observed where
  gStarted : Bool
  gListenFd : Option ℕ
  gRunning : Bool
  listeners : Finset ℕ
  threads : Finset ℕ
  deriving DecidableEq

namespace Observed

def stopped : Observed := ⟨false, none, false, ∅, ∅⟩

def setStarted (o : Observed) (b : Bool) : Observed := { o with gStarted := b }

def setListenFd (o : Observed) (fd : Option ℕ) : Observed := { o with gListenFd := fd }

def setRunning (o : Observed) (b : Bool) : Observed := { o with gRunning := b }

def openFd (o : Observed) (fd : ℕ) : Observed := { o with listeners := insert fd o.listeners }

def closeFd (o : Observed) (fd : ℕ) : Observed := { o with listeners := o.listeners.erase fd }

def create (o : Observed) (id : ℕ) : Observed := { o with threads := insert id o.threads }

def join (o : Observed) (id : ℕ) : Observed := { o with threads := o.threads.erase id }

/-- `(void)close(g_listen_fd)` and `g_listen_fd = -1`. -/
def closeListener (o : Observed) : Observed :=
  (o.gListenFd.elim o o.closeFd).setListenFd none

end Observed

inductive Name where
  | start
  | stop
  deriving DecidableEq, Repr

/-- A call that has returned. `metrics_server_stop` has no result. -/
structure Call where
  name : Name
  result : SysResult Unit
  before : Observed
  after : Observed

/-- The controlling thread, at a system call or between two calls. -/
inductive Caller where
  | idle
  | socket
  | setsockopt (fd : ℕ)
  | bind (fd : ℕ)
  | listen (fd : ℕ)
  | create
  | join

structure Endpoint where
  control : Caller
  state : Observed
  gThread : ℕ
  loops : ℕ → AcceptLoop
  before : Observed
  log : List Call

inductive Action where
  | start
  | socket (r : SysResult ℕ)
  | setsockopt (r : SysResult Unit)
  | bind (r : SysResult Unit)
  | listen (r : SysResult Unit)
  | create (r : SysResult ℕ)
  | stop
  | joined
  | thread (id : ℕ) (a : ThreadEvent)

namespace Endpoint

def put (s : Endpoint) (o : Observed) : Endpoint := { s with state := o }

def enter (s : Endpoint) : Endpoint := { s with before := s.state }

def returns (s : Endpoint) (name : Name) (result : SysResult Unit) : Endpoint :=
  { s with control := .idle, log := s.log ++ [⟨name, result, s.before, s.state⟩] }

def metricsServerStart (s : Endpoint) : Endpoint :=
  if s.state.gStarted then s.enter.returns .start (.error ealready)
  else { s.enter with control := .socket }

/-- `open_listener` returns `-1`, and so does `metrics_server_start`. -/
def noListener (s : Endpoint) (e : Errno) : Endpoint :=
  (s.put (s.state.setListenFd none)).returns .start (.error e)

/-- A check of `open_listener`, which goes to `fail` or on. -/
def check (s : Endpoint) (fd : ℕ) (r : SysResult Unit) (next : Endpoint) : Endpoint :=
  match r with
  | .ok _ => next
  | .error e => (s.put (s.state.closeFd fd)).noListener e

def listenerOpen (s : Endpoint) (fd : ℕ) : Endpoint :=
  { s.put ((s.state.setListenFd (some fd)).setRunning true) with control := .create }

def createFailed (s : Endpoint) (e : Errno) : Endpoint :=
  (s.put (s.state.setRunning false).closeListener).returns .start (.error e)

def created (s : Endpoint) (id : ℕ) : Endpoint :=
  { s.put ((s.state.create id).setStarted true) with
    gThread := id
    loops := Function.update s.loops id .head }.returns .start (.ok ())

def metricsServerStop (s : Endpoint) : Endpoint :=
  if s.state.gStarted then { s.enter.put (s.state.setRunning false) with control := .join }
  else s.enter.returns .stop (.ok ())

def joined (s : Endpoint) : Endpoint :=
  (s.put ((s.state.join s.gThread).closeListener.setStarted false)).returns .stop (.ok ())

def step (s : Endpoint) : Action → Option Endpoint
  | .start =>
      match s.control with
      | .idle => some s.metricsServerStart
      | _ => none
  | .socket r =>
      match s.control, r with
      | .socket, .error e => some (s.noListener e)
      -- The kernel gives out a descriptor that is not open, and below a new thread.
      | .socket, .ok fd =>
          if fd ∉ s.state.listeners then
            some { s.put (s.state.openFd fd) with control := .setsockopt fd }
          else none
      | _, _ => none
  | .setsockopt r =>
      match s.control with
      | .setsockopt fd => some (s.check fd r { s with control := .bind fd })
      | _ => none
  | .bind r =>
      match s.control with
      | .bind fd => some (s.check fd r { s with control := .listen fd })
      | _ => none
  | .listen r =>
      match s.control with
      | .listen fd => some (s.check fd r (s.listenerOpen fd))
      | _ => none
  | .create r =>
      match s.control, r with
      | .create, .error e => some (s.createFailed e)
      | .create, .ok id => if id ∉ s.state.threads then some (s.created id) else none
      | _, _ => none
  | .stop =>
      match s.control with
      | .idle => some s.metricsServerStop
      | _ => none
  | .joined =>
      match s.control, s.loops s.gThread with
      | .join, .returned => some s.joined
      | _, _ => none
  | .thread id a =>
      if id ∈ s.state.threads then
        ((s.loops id).step s.state.gRunning a).map fun l =>
          { s with loops := Function.update s.loops id l }
      else none

end Endpoint

def Endpoint.initial : Endpoint := ⟨.idle, .stopped, 0, fun _ => .returned, .stopped, []⟩

def endpoint : Machine Endpoint Action where
  init s := s = .initial
  step := Endpoint.step

/-! ## What one step can do -/

/-- The steps from each control point of the controlling thread. -/
inductive Steps (s : Endpoint) : Caller → Action → Endpoint → Prop where
  | start : Steps s .idle .start s.metricsServerStart
  | noSocket {e : Errno} : Steps s .socket (.socket (.error e)) (s.noListener e)
  | socket {fd : ℕ} (hnew : fd ∉ s.state.listeners) :
      Steps s .socket (.socket (.ok fd))
        { s.put (s.state.openFd fd) with control := .setsockopt fd }
  | setsockopt {fd : ℕ} {r : SysResult Unit} :
      Steps s (.setsockopt fd) (.setsockopt r) (s.check fd r { s with control := .bind fd })
  | bind {fd : ℕ} {r : SysResult Unit} :
      Steps s (.bind fd) (.bind r) (s.check fd r { s with control := .listen fd })
  | listen {fd : ℕ} {r : SysResult Unit} :
      Steps s (.listen fd) (.listen r) (s.check fd r (s.listenerOpen fd))
  | createFailed {e : Errno} : Steps s .create (.create (.error e)) (s.createFailed e)
  | created {id : ℕ} (hnew : id ∉ s.state.threads) :
      Steps s .create (.create (.ok id)) (s.created id)
  | stop : Steps s .idle .stop s.metricsServerStop
  | joined (hreturned : s.loops s.gThread = .returned) : Steps s .join .joined s.joined
  | thread {c : Caller} {id : ℕ} {a : ThreadEvent} {l : AcceptLoop} (hid : id ∈ s.state.threads)
      (hl : (s.loops id).step s.state.gRunning a = some l) :
      Steps s c (.thread id a) { s with loops := Function.update s.loops id l }

theorem steps_of_step {s t : Endpoint} {a : Action} (h : s.step a = some t) :
    Steps s s.control a t := by
  unfold Endpoint.step at h
  cases a with
  | start =>
      cases hc : s.control with
      | idle =>
          simp only [hc, Option.some.injEq] at h
          subst h
          exact .start
      | _ => simp [hc] at h
  | socket r =>
      cases hc : s.control with
      | socket =>
          cases r with
          | error e =>
              simp only [hc, Option.some.injEq] at h
              subst h
              exact .noSocket
          | ok fd =>
              simp only [hc] at h
              obtain ⟨hnew, h⟩ := Option.ite_none_right_eq_some.mp h
              cases h
              exact .socket hnew
      | _ => simp [hc] at h
  | setsockopt r =>
      cases hc : s.control with
      | setsockopt fd =>
          simp only [hc, Option.some.injEq] at h
          subst h
          exact .setsockopt
      | _ => simp [hc] at h
  | bind r =>
      cases hc : s.control with
      | bind fd =>
          simp only [hc, Option.some.injEq] at h
          subst h
          exact .bind
      | _ => simp [hc] at h
  | listen r =>
      cases hc : s.control with
      | listen fd =>
          simp only [hc, Option.some.injEq] at h
          subst h
          exact .listen
      | _ => simp [hc] at h
  | create r =>
      cases hc : s.control with
      | create =>
          cases r with
          | error e =>
              simp only [hc, Option.some.injEq] at h
              subst h
              exact .createFailed
          | ok id =>
              simp only [hc] at h
              obtain ⟨hnew, h⟩ := Option.ite_none_right_eq_some.mp h
              cases h
              exact .created hnew
      | _ => simp [hc] at h
  | stop =>
      cases hc : s.control with
      | idle =>
          simp only [hc, Option.some.injEq] at h
          subst h
          exact .stop
      | _ => simp [hc] at h
  | joined =>
      cases hc : s.control with
      | join =>
          cases hl : s.loops s.gThread with
          | returned =>
              simp only [hc, hl, Option.some.injEq] at h
              subst h
              exact .joined hl
          | _ => simp [hc, hl] at h
      | _ => simp [hc] at h
  | thread id a =>
      obtain ⟨hid, h⟩ := Option.ite_none_right_eq_some.mp h
      obtain ⟨l, hl, rfl⟩ := Option.map_eq_some_iff.mp h
      exact .thread hid hl

end ConcurrentServers.MetricsServer

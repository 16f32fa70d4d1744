import ConcurrentServers.MetricsServer.Control
import ConcurrentServers.MetricsServer.Routing

/-!
# What the calls leave behind

Seen from outside the endpoint has two states, and a call either changes between
them or does nothing. `Sound` lists all that a call can do. In the middle of a call
the variables and the resources are tied to the state that the call found, so that
every way out of it restores that state or arrives in the other one.
-/

namespace ConcurrentServers.MetricsServer

open Systems

/-! ## The states of the endpoint -/

namespace Observed

def started (fd id : ℕ) : Observed := ⟨true, some fd, true, {fd}, {id}⟩

-- The states in the middle of a call: behind `socket`, at `pthread_create`, and at
-- `pthread_join`.
def opened (fd : ℕ) : Observed := ⟨false, none, false, {fd}, ∅⟩

def listening (fd : ℕ) : Observed := ⟨false, some fd, true, {fd}, ∅⟩

def stopping (fd id : ℕ) : Observed := ⟨true, some fd, false, {fd}, {id}⟩

variable (fd id : ℕ)

theorem setListenFd_stopped : stopped.setListenFd none = stopped := rfl

theorem openFd_stopped : stopped.openFd fd = opened fd := rfl

theorem closeFd_opened : (opened fd).closeFd fd = stopped := by
  simp [opened, closeFd, stopped]

theorem setRunning_opened : ((opened fd).setListenFd (some fd)).setRunning true = listening fd :=
  rfl

theorem closeListener_listening : ((listening fd).setRunning false).closeListener = stopped := by
  simp [listening, setRunning, closeListener, closeFd, setListenFd, stopped]

theorem create_listening : ((listening fd).create id).setStarted true = started fd id := rfl

theorem setRunning_started : (started fd id).setRunning false = stopping fd id := rfl

theorem join_stopping : ((stopping fd id).join id).closeListener.setStarted false = stopped := by
  simp [stopping, join, closeListener, closeFd, setListenFd, setStarted, stopped]

end Observed

/-! ## The calls from outside -/

inductive Call.Sound : Call → Prop where
  | refused (fd id : ℕ) : Sound ⟨.start, .error ealready, .started fd id, .started fd id⟩
  | failed (e : Errno) : Sound ⟨.start, .error e, .stopped, .stopped⟩
  | started (fd id : ℕ) : Sound ⟨.start, .ok (), .stopped, .started fd id⟩
  | nothing : Sound ⟨.stop, .ok (), .stopped, .stopped⟩
  | ended (fd id : ℕ) : Sound ⟨.stop, .ok (), .started fd id, .stopped⟩

/-- Every call finds the state that the one before it has left. -/
inductive Calls : List Call → Observed → Prop where
  | nil : Calls [] .stopped
  | snoc {log : List Call} {c : Call} (h : Calls log c.before) (hc : c.Sound) :
      Calls (log ++ [c]) c.after

theorem Calls.sound {log : List Call} {o : Observed} (h : Calls log o) : ∀ c ∈ log, c.Sound := by
  induction h with
  | nil => simp
  | snoc _ hc ih => exact List.forall_mem_append.mpr ⟨ih, List.forall_mem_singleton.mpr hc⟩

/-! ## The middle of a call -/

def Between (before state : Observed) (gThread : ℕ) : Caller → Prop
  | .idle => state = .stopped ∨ ∃ fd, state = .started fd gThread
  | .socket => before = .stopped ∧ state = .stopped
  | .setsockopt fd => before = .stopped ∧ state = .opened fd
  | .bind fd => before = .stopped ∧ state = .opened fd
  | .listen fd => before = .stopped ∧ state = .opened fd
  | .create => before = .stopped ∧ ∃ fd, state = .listening fd
  | .join => ∃ fd, before = .started fd gThread ∧ state = .stopping fd gThread

/-- The state at the last point between two calls. -/
def Endpoint.settled (s : Endpoint) : Observed :=
  match s.control with
  | .idle => s.state
  | _ => s.before

structure Consistent (s : Endpoint) : Prop where
  between : Between s.before s.state s.gThread s.control
  calls : Calls s.log s.settled

variable {s t : Endpoint}

theorem consistent_returns {name : Name} {result : SysResult Unit} (hcalls : Calls s.log s.before)
    (hstate : s.state = .stopped ∨ ∃ fd, s.state = .started fd s.gThread)
    (hsound : Call.Sound ⟨name, result, s.before, s.state⟩) : Consistent (s.returns name result) :=
  ⟨hstate, .snoc hcalls hsound⟩

/-- `metrics_server_start` fails and has undone what it did. -/
theorem consistent_failed {o : Observed} (hcalls : Calls s.log s.before)
    (hbefore : s.before = .stopped) (ho : o = .stopped) (e : Errno) :
    Consistent ((s.put o).returns .start (.error e)) := by
  subst ho
  refine consistent_returns hcalls (Or.inl rfl) ?_
  change Call.Sound ⟨_, _, s.before, .stopped⟩
  rw [hbefore]
  exact .failed e

theorem consistent_noListener (hcalls : Calls s.log s.before) (hbefore : s.before = .stopped)
    (hstate : s.state = .stopped) (e : Errno) : Consistent (s.noListener e) :=
  consistent_failed hcalls hbefore (by rw [hstate, Observed.setListenFd_stopped]) e

theorem consistent_check {fd : ℕ} (hcalls : Calls s.log s.before) (hbefore : s.before = .stopped)
    (hstate : s.state = .opened fd) {next : Endpoint} (hnext : Consistent next)
    (r : SysResult Unit) : Consistent (s.check fd r next) := by
  cases r with
  | ok _ => exact hnext
  | error e =>
      have hclosed : s.state.closeFd fd = .stopped := by rw [hstate, Observed.closeFd_opened]
      exact consistent_noListener (s := s.put (s.state.closeFd fd)) hcalls hbefore hclosed e

/-- Between two calls. -/
theorem Consistent.idle (h : Consistent s) (hc : s.control = .idle) :
    Calls s.log s.state ∧ (s.state = .stopped ∨ ∃ fd, s.state = .started fd s.gThread) := by
  obtain ⟨hbetween, hcalls⟩ := h
  rw [Endpoint.settled, hc] at hcalls
  rw [hc] at hbetween
  exact ⟨hcalls, hbetween⟩

theorem Consistent.metricsServerStart (h : Consistent s) (hc : s.control = .idle) :
    Consistent s.metricsServerStart := by
  obtain ⟨hcalls, hstate | ⟨fd, hstate⟩⟩ := h.idle hc
  · rw [Endpoint.metricsServerStart, if_neg (by rw [hstate]; decide)]
    exact ⟨⟨hstate, hstate⟩, hcalls⟩
  · rw [Endpoint.metricsServerStart, if_pos (by rw [hstate]; rfl)]
    refine consistent_returns hcalls (Or.inr ⟨fd, hstate⟩) ?_
    change Call.Sound ⟨_, _, s.state, s.state⟩
    rw [hstate]
    exact .refused fd s.gThread

theorem Consistent.metricsServerStop (h : Consistent s) (hc : s.control = .idle) :
    Consistent s.metricsServerStop := by
  obtain ⟨hcalls, hstate | ⟨fd, hstate⟩⟩ := h.idle hc
  · rw [Endpoint.metricsServerStop, if_neg (by rw [hstate]; decide)]
    refine consistent_returns hcalls (Or.inl hstate) ?_
    change Call.Sound ⟨_, _, s.state, s.state⟩
    rw [hstate]
    exact .nothing
  · rw [Endpoint.metricsServerStop, if_pos (by rw [hstate]; rfl)]
    refine ⟨⟨fd, hstate, ?_⟩, hcalls⟩
    exact (congrArg (Observed.setRunning · false) hstate).trans (Observed.setRunning_started _ _)

theorem consistent_created (hcalls : Calls s.log s.before) (hbefore : s.before = .stopped)
    {fd : ℕ} (hstate : s.state = .listening fd) (id : ℕ) : Consistent (s.created id) := by
  have hafter : (s.state.create id).setStarted true = .started fd id := by
    rw [hstate, Observed.create_listening]
  refine consistent_returns hcalls (Or.inr ⟨fd, hafter⟩) ?_
  change Call.Sound ⟨_, _, s.before, (s.state.create id).setStarted true⟩
  rw [hafter, hbefore]
  exact .started fd id

theorem consistent_joined (hcalls : Calls s.log s.before) {fd : ℕ}
    (hbefore : s.before = .started fd s.gThread) (hstate : s.state = .stopping fd s.gThread) :
    Consistent s.joined := by
  have hafter : (s.state.join s.gThread).closeListener.setStarted false = .stopped := by
    rw [hstate, Observed.join_stopping]
  refine consistent_returns hcalls (Or.inl hafter) ?_
  change Call.Sound ⟨_, _, s.before, (s.state.join s.gThread).closeListener.setStarted false⟩
  rw [hafter, hbefore]
  exact .ended fd s.gThread

theorem Consistent.step (h : Consistent s) {a : Action} (hstep : s.step a = some t) :
    Consistent t := by
  have hsteps := steps_of_step hstep
  have hbetween := h.between
  have hcalls := h.calls
  unfold Endpoint.settled at hcalls
  generalize hc : s.control = c at hsteps hbetween hcalls
  cases hsteps with
  | start => exact h.metricsServerStart hc
  | stop => exact h.metricsServerStop hc
  | noSocket => exact consistent_noListener hcalls hbetween.1 hbetween.2 _
  | @socket fd hnew =>
      refine ⟨⟨hbetween.1, ?_⟩, hcalls⟩
      exact (congrArg (Observed.openFd · fd) hbetween.2).trans (Observed.openFd_stopped fd)
  | @setsockopt fd r =>
      have hnext : Consistent { s with control := .bind fd } := ⟨hbetween, hcalls⟩
      exact consistent_check hcalls hbetween.1 hbetween.2 hnext r
  | @bind fd r =>
      have hnext : Consistent { s with control := .listen fd } := ⟨hbetween, hcalls⟩
      exact consistent_check hcalls hbetween.1 hbetween.2 hnext r
  | @listen fd r =>
      have hopen : (s.state.setListenFd (some fd)).setRunning true = .listening fd := by
        rw [hbetween.2, Observed.setRunning_opened]
      have hnext : Consistent (s.listenerOpen fd) := ⟨⟨hbetween.1, fd, hopen⟩, hcalls⟩
      exact consistent_check hcalls hbetween.1 hbetween.2 hnext r
  | createFailed =>
      obtain ⟨hbefore, fd, hstate⟩ := hbetween
      exact consistent_failed hcalls hbefore
        (by rw [hstate, Observed.closeListener_listening]) _
  | created hnew =>
      obtain ⟨hbefore, fd, hstate⟩ := hbetween
      exact consistent_created hcalls hbefore hstate _
  | joined hreturned =>
      obtain ⟨fd, hbefore, hstate⟩ := hbetween
      exact consistent_joined hcalls hbefore hstate
  | thread hid hl => exact ⟨h.between, h.calls⟩

theorem reachable_consistent (h : endpoint.Reachable s) : Consistent s := by
  refine h.invariant ?_ ?_
  · rintro s rfl
    exact ⟨Or.inl rfl, .nil⟩
  · exact fun s a t _ hs hstep => hs.step hstep

/-! ## The accept thread -/

/-- Connections are served by runs of `serve`. -/
def AcceptLoop.Serves (l : AcceptLoop) : Prop := ∀ c, l = .serving c → serve.Reachable c

theorem AcceptLoop.Serves.step {l l' : AcceptLoop} {gRunning : Bool} {a : ThreadEvent}
    (h : l.Serves) (hstep : l.step gRunning a = some l') : l'.Serves := by
  intro c hc
  subst hc
  unfold AcceptLoop.step at hstep
  split at hstep
  · split at hstep <;> cases hstep
  · split at hstep <;> cases hstep
  · split at hstep <;> cases hstep
  · split at hstep <;> cases hstep
  · cases hstep
    exact .init ⟨_, _, rfl⟩
  · next s a =>
      obtain ⟨t, ht, hserving⟩ := Option.map_eq_some_iff.mp hstep
      cases hserving
      exact (h s rfl).step a ht
  · split at hstep <;> cases hstep
  · cases hstep

theorem serves_update {loops : ℕ → AcceptLoop} (h : ∀ i, (loops i).Serves) {l : AcceptLoop}
    (hl : l.Serves) (id i : ℕ) : (Function.update loops id l i).Serves := by
  by_cases hi : i = id
  · subst hi
    rwa [Function.update_self]
  · rw [Function.update_of_ne hi]
    exact h i

theorem serves_check (h : ∀ i, (s.loops i).Serves) {next : Endpoint}
    (hnext : ∀ i, (next.loops i).Serves) (fd : ℕ) (r : SysResult Unit) :
    ∀ i, ((s.check fd r next).loops i).Serves := by
  cases r with
  | ok _ => exact hnext
  | error e => exact h

/-- Every connection of the accept thread is a run of `serve`. -/
theorem reachable_serves (h : endpoint.Reachable s) : ∀ id, (s.loops id).Serves := by
  refine Machine.Reachable.invariant (P := fun s => ∀ id, (s.loops id).Serves) ?_ ?_ h
  · rintro s rfl id c hc
    cases hc
  · intro s a t _ hs hstep
    have hsteps := steps_of_step hstep
    generalize s.control = c at hsteps
    cases hsteps with
    | start =>
        unfold Endpoint.metricsServerStart
        split <;> exact hs
    | stop =>
        unfold Endpoint.metricsServerStop
        split <;> exact hs
    | setsockopt =>
        refine serves_check hs ?_ _ _
        exact hs
    | bind =>
        refine serves_check hs ?_ _ _
        exact hs
    | listen =>
        refine serves_check hs ?_ _ _
        exact hs
    | created hnew => exact serves_update hs (fun c hc => by cases hc) _
    | thread hid hl => exact serves_update hs ((hs _).step hl) _
    | noSocket => exact hs
    | socket hnew => exact hs
    | createFailed => exact hs
    | joined hreturned => exact hs

/-! ## Every call can return -/

/-- The steps to the end of the loop once `g_running` is false. -/
def AcceptLoop.remaining : AcceptLoop → ℕ
  | .head => 1
  | .poll => 2
  | .accept => 2
  | .serving c => c.remaining + 2
  | .returned => 0

theorem AcceptLoop.Serves.exists_progress {l : AcceptLoop} (h : l.Serves) (hl : l ≠ .returned) :
    ∃ a l', l.step false a = some l' ∧ l'.remaining < l.remaining := by
  cases l with
  | head => exact ⟨.test, .returned, rfl, Nat.zero_lt_one⟩
  | poll => exact ⟨.poll (.ok false), .head, rfl, Nat.lt_succ_self 1⟩
  | accept => exact ⟨.accept (.error .eintr), .head, rfl, Nat.lt_succ_self 1⟩
  | returned => exact absurd rfl hl
  | serving c =>
      by_cases hc : c.control = .returned
      · refine ⟨.close, .head, by simp only [AcceptLoop.step, hc], ?_⟩
        simp only [AcceptLoop.remaining]
        omega
      · obtain ⟨a, t, -, hstep, -, hlt⟩ :=
          MetricsServer.exists_progress (reachable_ready (h c rfl)) hc
        refine ⟨.serve a, .serving t, by simp only [AcceptLoop.step, hstep, Option.map_some], ?_⟩
        simp only [AcceptLoop.remaining]
        omega

/-- The steps to the end of the call, if the kernel refuses what it is asked for. -/
def Endpoint.remaining (s : Endpoint) : ℕ :=
  match s.control with
  | .idle => 0
  | .join => (s.loops s.gThread).remaining + 2
  | _ => 1

theorem exists_return_progress (hs : endpoint.Reachable s) (hc : s.control ≠ .idle) :
    ∃ a t, s.step a = some t ∧ t.remaining < s.remaining := by
  have hbetween := (reachable_consistent hs).between
  unfold Endpoint.remaining
  cases h : s.control with
  | idle => exact absurd h hc
  | socket =>
      exact ⟨.socket (.error .enfile), s.noListener .enfile, by simp only [Endpoint.step, h],
        Nat.zero_lt_one⟩
  | setsockopt fd =>
      refine ⟨.setsockopt (.error .enobufs), (s.put (s.state.closeFd fd)).noListener .enobufs, ?_,
        Nat.zero_lt_one⟩
      simp only [Endpoint.step, h]
      rfl
  | bind fd =>
      refine ⟨.bind (.error .enobufs), (s.put (s.state.closeFd fd)).noListener .enobufs, ?_,
        Nat.zero_lt_one⟩
      simp only [Endpoint.step, h]
      rfl
  | listen fd =>
      refine ⟨.listen (.error .enobufs), (s.put (s.state.closeFd fd)).noListener .enobufs, ?_,
        Nat.zero_lt_one⟩
      simp only [Endpoint.step, h]
      rfl
  | create =>
      exact ⟨.create (.error .eagain), s.createFailed .eagain, by simp only [Endpoint.step, h],
        Nat.zero_lt_one⟩
  | join =>
      -- The thread has returned, or it makes a step towards its return.
      rw [h] at hbetween
      obtain ⟨fd, -, hstate⟩ := hbetween
      by_cases hreturned : s.loops s.gThread = .returned
      · refine ⟨.joined, s.joined, by simp only [Endpoint.step, h, hreturned], ?_⟩
        exact Nat.succ_pos _
      · obtain ⟨a, l, hl, hlt⟩ := (reachable_serves hs s.gThread).exists_progress hreturned
        have hid : s.gThread ∈ s.state.threads := by
          rw [hstate]
          exact Finset.mem_singleton_self _
        have hrunning : s.state.gRunning = false := by
          rw [hstate]
          rfl
        refine ⟨.thread s.gThread a, { s with loops := Function.update s.loops s.gThread l },
          ?_, ?_⟩
        · simp only [Endpoint.step, if_pos hid, hrunning, hl, Option.map_some]
        · simp only [h, Function.update_self]
          exact Nat.add_lt_add_right hlt 2

/-- A call that has begun can return. -/
theorem exists_run_idle (hs : endpoint.Reachable s) :
    ∃ as t, endpoint.run s as = some t ∧ t.control = .idle := by
  have hprogress : ∀ s : Endpoint, endpoint.Reachable s → ¬s.control = .idle →
      ∃ a t, True ∧ True ∧ endpoint.step s a = some t ∧ endpoint.Reachable t ∧
        t.remaining < s.remaining := by
    intro s hs hc
    obtain ⟨a, t, hstep, hlt⟩ := exists_return_progress hs hc
    exact ⟨a, t, trivial, trivial, hstep, hs.step a hstep, hlt⟩
  obtain ⟨as, t, hrun, -, -, -, hc⟩ :=
    Machine.exists_run_of_progress Endpoint.remaining hprogress hs
  exact ⟨as, t, hrun, hc⟩

/-- A call of `metrics_server_start` for which nothing fails. -/
theorem exists_run_started (hc : s.control = .idle) (hstate : s.state = .stopped) :
    ∃ t, endpoint.run s [.start, .socket (.ok 0), .setsockopt (.ok ()), .bind (.ok ()),
        .listen (.ok ()), .create (.ok 0)] = some t ∧
      t.log = s.log ++ [⟨.start, .ok (), .stopped, .started 0 0⟩] ∧ t.state = .started 0 0 := by
  obtain ⟨control, state, gThread, loops, before, log⟩ := s
  cases hc
  cases hstate
  exact ⟨_, rfl, rfl, rfl⟩

/-! ## The calls -/

theorem Call.Sound.card {c : Call} (h : c.Sound) :
    c.after.listeners.card = (if c.after.gStarted then 1 else 0) ∧
      c.after.threads.card = if c.after.gStarted then 1 else 0 := by
  cases h <;> exact ⟨rfl, rfl⟩

/-- All calls of one thread, with any failures of the kernel and any interleaving with
the accept thread. A start that fails has no effect, and neither has one while the
endpoint is started, which is refused. Behind every call there is one listener and one
thread if the endpoint is started, and none otherwise. A stop leaves the state before the
first call, and a second one changes nothing. A call can always return, and a start
can succeed whenever the endpoint is stopped. -/
theorem calls_keep_state_and_resources (hs : endpoint.Reachable s) :
    (∀ c ∈ s.log,
      (∀ e, c.name = .start → c.result = .error e → c.after = c.before) ∧
      c.after.listeners.card = (if c.after.gStarted then 1 else 0) ∧
      c.after.threads.card = (if c.after.gStarted then 1 else 0) ∧
      (c.name = .start → c.before.gStarted = true →
        c.result = .error ealready ∧ c.after = c.before) ∧
      (c.name = .stop → c.after = .stopped ∧ (c.before.gStarted = false → c.after = c.before))) ∧
    (∃ as t, endpoint.run s as = some t ∧ t.control = .idle) ∧
    (s.control = .idle → s.state.gStarted = false →
      ∃ as t, endpoint.run s as = some t ∧
        t.log = s.log ++ [⟨.start, .ok (), s.state, t.state⟩] ∧ t.state.gStarted = true) := by
  have hconsistent := reachable_consistent hs
  refine ⟨?_, exists_run_idle hs, ?_⟩
  · intro c hc
    have hsound := hconsistent.calls.sound c hc
    refine ⟨?_, hsound.card.1, hsound.card.2, ?_, ?_⟩
    · intro e hname hresult
      cases hsound with
      | refused => rfl
      | failed => rfl
      | started => cases hresult
      | nothing => cases hname
      | ended => cases hname
    · intro hname hstarted
      cases hsound with
      | refused => exact ⟨rfl, rfl⟩
      | failed => cases hstarted
      | started => cases hstarted
      | nothing => cases hname
      | ended => cases hname
    · intro hname
      cases hsound with
      | refused => cases hname
      | failed => cases hname
      | started => cases hname
      | nothing => exact ⟨rfl, fun _ => rfl⟩
      | ended => exact ⟨rfl, fun hstarted => by cases hstarted⟩
  · intro hc hstarted
    obtain ⟨-, hstate | ⟨fd, hstate⟩⟩ := hconsistent.idle hc
    · obtain ⟨t, hrun, hlog, ht⟩ := exists_run_started hc hstate
      refine ⟨_, t, hrun, ?_, ?_⟩
      · rw [hlog, hstate, ht]
      · rw [ht]
        rfl
    · -- A started endpoint has `g_started` set.
      rw [hstate] at hstarted
      cases hstarted

/-- A start that fails at the thread, one that succeeds, one that is refused, and a stop
while the thread is at the head of its loop. -/
theorem calls_keep_state_and_resources_four :
    ∃ s, endpoint.run .initial
        [.start, .socket (.ok 3), .setsockopt (.ok ()), .bind (.ok ()), .listen (.ok ()),
          .create (.error .eagain), .start, .socket (.ok 3), .setsockopt (.ok ()), .bind (.ok ()),
          .listen (.ok ()), .create (.ok 1), .start, .stop, .thread 1 .test, .joined] = some s ∧
      s.log.map Call.result = [.error .eagain, .ok (), .error ealready, .ok ()] ∧
      ∃ as t, endpoint.run s as = some t ∧ t.state.gStarted = true := by
  obtain ⟨s, hrun, hlog, hc, hstarted⟩ : ∃ s, endpoint.run .initial
        [.start, .socket (.ok 3), .setsockopt (.ok ()), .bind (.ok ()), .listen (.ok ()),
          .create (.error .eagain), .start, .socket (.ok 3), .setsockopt (.ok ()), .bind (.ok ()),
          .listen (.ok ()), .create (.ok 1), .start, .stop, .thread 1 .test, .joined] = some s ∧
      s.log.map Call.result = [.error .eagain, .ok (), .error ealready, .ok ()] ∧
      s.control = .idle ∧ s.state.gStarted = false :=
    ⟨_, rfl, rfl, rfl, rfl⟩
  have hs : endpoint.Reachable s := Machine.reachable_of_run _ rfl hrun
  obtain ⟨-, -, hagain⟩ := calls_keep_state_and_resources hs
  obtain ⟨as, t, hrun', -, ht⟩ := hagain hc hstarted
  exact ⟨s, hrun, hlog, as, t, hrun', ht⟩

end ConcurrentServers.MetricsServer

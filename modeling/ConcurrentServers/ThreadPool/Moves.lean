import ConcurrentServers.ThreadPool.Model
import ConcurrentServers.Library.Tally

/-!
# What one step of the pool can do

The invariants below do not care which counter a thread updates between two
critical sections. `Moves` lists the kinds of steps that they have to tell
apart, and `moves_of_step` is the only place that looks into the step function.
-/

namespace ConcurrentServers.ThreadPool

open Systems

variable {cfg : Config}

/-- The thread holds the mutex. -/
def AcceptorPc.critical : AcceptorPc → Bool
  | .test _ | .insert _ | .unlock => true
  | _ => false

/-- The descriptor that was accepted and not inserted yet. -/
def AcceptorPc.hand : AcceptorPc → Option ℕ
  | .countAccepted fd | .countActive fd | .lock fd | .test fd | .asleep fd | .woken fd
  | .insert fd => some fd
  | _ => none

/-- The signals of `not_empty` that are still to be issued. -/
def AcceptorPc.signals : AcceptorPc → ℕ
  | .unlock | .signal => 1
  | _ => 0

def AcceptorPc.sleeps : AcceptorPc → Bool
  | .asleep _ => true
  | _ => false

theorem AcceptorPc.sleeps_iff {pc : AcceptorPc} : pc.sleeps = true ↔ ∃ fd, pc = .asleep fd := by
  cases pc <;> simp [sleeps]

theorem AcceptorPc.wake_of_awake {pc : AcceptorPc} (h : pc.sleeps = false) : pc.wake = pc := by
  cases pc with
  | asleep fd => cases h
  | _ => rfl

@[simp] theorem AcceptorPc.critical_wake (pc : AcceptorPc) : pc.wake.critical = pc.critical := by
  cases pc <;> rfl

@[simp] theorem AcceptorPc.hand_wake (pc : AcceptorPc) : pc.wake.hand = pc.hand := by
  cases pc <;> rfl

@[simp] theorem AcceptorPc.signals_wake (pc : AcceptorPc) : pc.wake.signals = pc.signals := by
  cases pc <;> rfl

@[simp] theorem AcceptorPc.sleeps_wake (pc : AcceptorPc) : pc.wake.sleeps = false := by
  cases pc <;> rfl

def WorkerPc.critical : WorkerPc → Bool
  | .test | .remove | .unlock _ => true
  | _ => false

/-- The descriptor that was removed and not closed yet. -/
def WorkerPc.held : WorkerPc → Option ℕ
  | .unlock fd | .signal fd | .busyUp fd | .serving fd | .busyDown fd | .close fd => some fd
  | _ => none

/-- A signal of `not_full` is still to be issued. -/
def WorkerPc.signals : WorkerPc → Bool
  | .unlock _ | .signal _ => true
  | _ => false

/-- The worker holds the mutex and has not removed anything yet. -/
def WorkerPc.inspects : WorkerPc → Bool
  | .test | .remove => true
  | _ => false

theorem WorkerPc.critical_of_inspects {pc : WorkerPc} (h : pc.inspects = true) :
    pc.critical = true := by
  cases pc with
  | test | remove => rfl
  | _ => cases h

inductive Moves (s : Pool cfg) : Pool cfg → Prop where
  | flag (b : Bool) : Moves s { s with stopRequested := b }
  | acceptorLocal {pc pc' : AcceptorPc} (m : Metrics) (hpc : s.acceptor = pc)
      (hfrom : pc.critical = false) (hto : pc'.critical = false) (hhand : pc'.hand = pc.hand)
      (hsignals : pc.signals = 0) (hsignals' : pc'.signals = 0) (hawake : pc'.sleeps = false) :
      Moves s { s with acceptor := pc', metrics := m }
  | accepts {fd : ℕ} (hpc : s.acceptor = .accept) (hnone : s.descriptors.owner fd = none) :
      Moves s { s with
        acceptor := .countAccepted fd
        descriptors := s.descriptors.accept fd
        accepted := s.accepted ++ [fd] }
  | acceptorLock {fd : ℕ} (hpc : s.acceptor = .lock fd ∨ s.acceptor = .woken fd)
      (hfree : s.holder = none) :
      Moves s { s with acceptor := .test fd, holder := some .acceptor }
  | acceptorSleep {fd : ℕ} (n : UInt64) (hpc : s.acceptor = .test fd)
      (hfull : s.queue.count = s.queue.capacity) :
      Moves s { s with
        acceptor := .asleep fd
        holder := none
        queue := { s.queue with acceptorBlocked := n } }
  | acceptorRoom {fd : ℕ} (hpc : s.acceptor = .test fd)
      (hroom : s.queue.count ≠ s.queue.capacity) : Moves s { s with acceptor := .insert fd }
  | insert {fd : ℕ} (m : Metrics) (hpc : s.acceptor = .insert fd) :
      Moves s { s with
        acceptor := .unlock
        queue := s.queue.push fd
        metrics := m
        pushed := s.pushed ++ [fd] }
  | acceptorUnlock (hpc : s.acceptor = .unlock) :
      Moves s { s with acceptor := .signal, holder := none }
  | signalSome {i : Fin cfg.numWorkers} (hpc : s.acceptor = .signal)
      (hasleep : s.workers i = .asleep) :
      Moves s ({ s with acceptor := .loopTest }.setWorker i .woken)
  | signalNone (hpc : s.acceptor = .signal) (hawake : ∀ i, s.workers i ≠ .asleep) :
      Moves s { s with acceptor := .loopTest }
  | workerLocal {i : Fin cfg.numWorkers} {pc pc' : WorkerPc} (m : Metrics)
      (hpc : s.workers i = pc) (hfrom : pc.critical = false) (hto : pc'.critical = false)
      (hheld : pc'.held = pc.held) (hsignals : pc.signals = false) (hwoken : pc ≠ .woken)
      (hawake : pc' ≠ .asleep) : Moves s ({ s with metrics := m }.setWorker i pc')
  | workerLock {i : Fin cfg.numWorkers} (hpc : s.workers i = .lock ∨ s.workers i = .woken)
      (hfree : s.holder = none) :
      Moves s ({ s with holder := some (.worker i) }.setWorker i .test)
  | workerSleep {i : Fin cfg.numWorkers} (hpc : s.workers i = .test)
      (hempty : s.queue.count = 0) : Moves s ({ s with holder := none }.setWorker i .asleep)
  | workerItem {i : Fin cfg.numWorkers} (hpc : s.workers i = .test)
      (hitem : s.queue.count ≠ 0) : Moves s (s.setWorker i .remove)
  | remove {i : Fin cfg.numWorkers} (m : Metrics) (hpc : s.workers i = .remove) :
      Moves s ({ s with
        queue := s.queue.pop
        metrics := m
        popped := s.popped ++ [(i, s.queue.front)] }.setWorker i (.unlock s.queue.front))
  | workerUnlock {i : Fin cfg.numWorkers} {fd : ℕ} (hpc : s.workers i = .unlock fd) :
      Moves s ({ s with holder := none }.setWorker i (.signal fd))
  | workerSignal {i : Fin cfg.numWorkers} {fd : ℕ} (hpc : s.workers i = .signal fd) :
      Moves s ({ s with acceptor := s.acceptor.wake }.setWorker i (.busyUp fd))
  | close {i : Fin cfg.numWorkers} {fd : ℕ} (hpc : s.workers i = .close fd) :
      Moves s ({ s with descriptors := s.descriptors.close fd }.setWorker i .countClosed)

theorem moves_of_acceptReturns {s s' : Pool cfg} {r : SysResult ℕ} (hpc : s.acceptor = .accept)
    (h : acceptReturns r s = some (.running s')) : Moves s s' := by
  cases r with
  | ok fd =>
      simp only [acceptReturns, Option.ite_none_right_eq_some, Option.some.injEq] at h
      obtain ⟨hnone, h⟩ := h
      cases h
      exact .accepts hpc hnone
  | error e =>
      simp only [acceptReturns, acceptFailed, Option.some.injEq] at h
      split at h
      · cases h
        exact .acceptorLocal _ hpc rfl rfl rfl rfl rfl rfl
      · split at h
        · cases h
          exact .acceptorLocal _ hpc rfl rfl rfl rfl rfl rfl
        · cases h

theorem moves_of_acceptorStep {s s' : Pool cfg}
    (h : acceptorStep s = some (.running s')) : Moves s s' := by
  unfold acceptorStep at h
  cases hpc : s.acceptor with
  | loopTest =>
      by_cases hstop : s.stopRequested = true
      · simp only [hpc, if_pos hstop] at h
        cases h
        exact .acceptorLocal _ hpc rfl rfl rfl rfl rfl rfl
      · simp only [hpc, if_neg hstop] at h
        cases h
        exact .acceptorLocal _ hpc rfl rfl rfl rfl rfl rfl
  | accept => simp [hpc] at h
  | countRefused | countAccepted fd | countActive fd =>
      simp only [hpc] at h
      cases h
      exact .acceptorLocal _ hpc rfl rfl rfl rfl rfl rfl
  | lock fd | woken fd =>
      simp only [hpc, Option.ite_none_right_eq_some, Option.some.injEq] at h
      obtain ⟨hfree, h⟩ := h
      cases h
      exact .acceptorLock (by simp [hpc]) hfree
  | test fd =>
      simp only [hpc] at h
      split at h
      next hfull =>
        cases h
        exact .acceptorSleep _ hpc hfull
      next hroom =>
        cases h
        exact .acceptorRoom hpc hroom
  | asleep fd => simp [hpc] at h
  | insert fd =>
      simp only [hpc] at h
      cases h
      exact .insert _ hpc
  | unlock =>
      simp only [hpc] at h
      cases h
      exact .acceptorUnlock hpc
  | signal => simp [hpc] at h
  | stopping => simp [hpc] at h

theorem moves_of_workerStep {s s' : Pool cfg} {i : Fin cfg.numWorkers}
    (h : workerStep s i = some (.running s')) : Moves s s' := by
  unfold workerStep at h
  cases hpc : s.workers i with
  | lock | woken =>
      simp only [hpc, Option.ite_none_right_eq_some, Option.some.injEq] at h
      obtain ⟨hfree, h⟩ := h
      cases h
      exact .workerLock (by simp [hpc]) hfree
  | test =>
      simp only [hpc] at h
      split at h
      next hempty =>
        cases h
        exact .workerSleep hpc hempty
      next hitem =>
        cases h
        exact .workerItem hpc hitem
  | asleep => simp [hpc] at h
  | remove =>
      simp only [hpc] at h
      cases h
      exact .remove _ hpc
  | unlock fd =>
      simp only [hpc] at h
      cases h
      exact .workerUnlock hpc
  | signal fd =>
      simp only [hpc] at h
      cases h
      exact .workerSignal hpc
  | busyUp fd | serving fd | busyDown fd | countClosed =>
      simp only [hpc] at h
      cases h
      exact .workerLocal _ hpc rfl rfl rfl rfl nofun nofun
  | close fd =>
      simp only [hpc] at h
      cases h
      exact .close hpc

theorem moves_of_wake (s : Pool cfg) : Moves s { s with acceptor := s.acceptor.wake } := by
  cases hsleeps : s.acceptor.sleeps with
  | false =>
      rw [AcceptorPc.wake_of_awake hsleeps]
      exact .flag s.stopRequested
  | true =>
      obtain ⟨fd, hpc⟩ := AcceptorPc.sleeps_iff.mp hsleeps
      rw [hpc]
      exact .acceptorLocal _ hpc rfl rfl rfl rfl rfl rfl

theorem moves_of_step {s s' : Pool cfg} {l : Label cfg.numWorkers}
    (h : s.step l = some (.running s')) : Moves s s' := by
  cases l with
  | stopSignal =>
      cases h
      exact .flag true
  | acceptReturns r =>
      simp only [Pool.step, Option.ite_none_right_eq_some] at h
      exact moves_of_acceptReturns h.1 h.2
  | acceptor => exact moves_of_acceptorStep h
  | signalNotEmpty sleeper =>
      cases sleeper with
      | none =>
          simp only [Pool.step, signalNotEmpty, Option.ite_none_right_eq_some,
            Option.some.injEq] at h
          obtain ⟨⟨hpc, hawake⟩, h⟩ := h
          cases h
          exact .signalNone hpc hawake
      | some i =>
          simp only [Pool.step, signalNotEmpty, Option.ite_none_right_eq_some,
            Option.some.injEq] at h
          obtain ⟨⟨hpc, hasleep⟩, h⟩ := h
          cases h
          exact .signalSome hpc hasleep
  | wakeAcceptor =>
      cases h
      exact moves_of_wake s
  | worker i => exact moves_of_workerStep h
  | wakeWorker i =>
      simp only [Pool.step, Option.ite_none_right_eq_some, Option.some.injEq] at h
      obtain ⟨hasleep, h⟩ := h
      cases h
      exact .workerLocal s.metrics hasleep rfl rfl rfl rfl nofun nofun

end ConcurrentServers.ThreadPool

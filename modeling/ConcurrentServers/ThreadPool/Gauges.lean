import ConcurrentServers.ThreadPool.Fifo

/-!
# What the metrics say about the threads

Every counter and gauge of the pool is a function of the program counters and
the ring, up to the one connection that is between the two updates of
`metrics_connection_accepted`. The ceiling on the active connections follows:
one in the hand of the acceptor, the slots of the ring, one for each worker.
-/

namespace ConcurrentServers.ThreadPool

open Systems

variable {cfg : Config}

/-- The connection that was counted and not inserted yet. -/
def AcceptorPc.counted : AcceptorPc → ℕ
  | .lock _ | .test _ | .asleep _ | .woken _ | .insert _ => 1
  | _ => 0

/-- The connection that is between the two updates of
`metrics_connection_accepted`. -/
def AcceptorPc.halfCounted : AcceptorPc → ℕ
  | .countActive _ => 1
  | _ => 0

theorem AcceptorPc.counted_le (pc : AcceptorPc) : pc.counted ≤ 1 := by
  cases pc <;> simp [counted]

@[simp] theorem AcceptorPc.counted_wake (pc : AcceptorPc) : pc.wake.counted = pc.counted := by
  cases pc <;> rfl

@[simp] theorem AcceptorPc.halfCounted_wake (pc : AcceptorPc) :
    pc.wake.halfCounted = pc.halfCounted := by
  cases pc <;> rfl

/-- The worker is between `queue_pop` and `metrics_connection_closed`. -/
def WorkerPc.engaged : WorkerPc → Bool
  | .unlock _ | .signal _ | .busyUp _ | .serving _ | .busyDown _ | .close _ | .countClosed => true
  | _ => false

/-- The worker is between the two updates of the busy gauge. -/
def WorkerPc.busy : WorkerPc → Bool
  | .serving _ | .busyDown _ => true
  | _ => false

theorem WorkerPc.engaged_of_busy {pc : WorkerPc} (h : pc.busy = true) : pc.engaged = true := by
  cases pc with
  | serving fd | busyDown fd => rfl
  | _ => cases h

def engagedWorkers (ws : Fin cfg.numWorkers → WorkerPc) : ℕ := headcount (WorkerPc.engaged ·) ws

def busyWorkers (ws : Fin cfg.numWorkers → WorkerPc) : ℕ := headcount (WorkerPc.busy ·) ws

/-- The metrics in terms of the program counters, the number of queued
connections and the number of calls of `metrics_connection_closed` so far. -/
structure Gauges (a : AcceptorPc) (ws : Fin cfg.numWorkers → WorkerPc) (count : ℕ) (m : Metrics)
    (closed : ℕ) : Prop where
  active : m.active = a.counted + count + engagedWorkers ws
  workersBusy : m.workersBusy = busyWorkers ws
  queueDepth : m.queueDepth = count
  accepted : (m.accepted : ℤ) = (m.active + closed + a.halfCounted) % 2 ^ 64

section Gauges

variable {a a' : AcceptorPc} {ws : Fin cfg.numWorkers → WorkerPc} {n closed : ℕ} {m : Metrics}
  {i : Fin cfg.numWorkers} {pc pc' : WorkerPc} {fd : ℕ}

theorem Gauges.acceptor_moves (h : Gauges a ws n m closed) (hcounted : a'.counted = a.counted)
    (hhalf : a'.halfCounted = a.halfCounted) : Gauges a' ws n m closed where
  active := by rw [hcounted, h.active]
  workersBusy := h.workersBusy
  queueDepth := h.queueDepth
  accepted := by rw [hhalf, h.accepted]

theorem Gauges.worker_moves (h : Gauges a ws n m closed) (hpc : ws i = pc)
    (hengaged : pc'.engaged = pc.engaged) (hbusy : pc'.busy = pc.busy) :
    Gauges a (Function.update ws i pc') n m closed where
  active := by
    rw [engagedWorkers, headcount_update_same ws (by rw [hpc, hengaged])]
    exact h.active
  workersBusy := by
    rw [busyWorkers, headcount_update_same ws (by rw [hpc, hbusy])]
    exact h.workersBusy
  queueDepth := h.queueDepth
  accepted := h.accepted

theorem Gauges.refused (h : Gauges a ws n m closed) : Gauges a ws n m.refusedAdd closed :=
  ⟨h.active, h.workersBusy, h.queueDepth, h.accepted⟩

/-- The first update of `metrics_connection_accepted`. -/
theorem Gauges.countAccepted (h : Gauges (.countAccepted fd) ws n m closed) :
    Gauges (.countActive fd) ws n m.acceptedAdd closed where
  active := h.active
  workersBusy := h.workersBusy
  queueDepth := h.queueDepth
  accepted := by
    have hold := h.accepted
    simp only [AcceptorPc.halfCounted, Metrics.acceptedAdd] at hold ⊢
    push_cast
    omega

/-- The second one. -/
theorem Gauges.countActive (h : Gauges (.countActive fd) ws n m closed) :
    Gauges (.lock fd) ws n (m.activeAdd 1) closed where
  active := by
    have hold := h.active
    simp only [AcceptorPc.counted, Metrics.activeAdd] at hold ⊢
    omega
  workersBusy := h.workersBusy
  queueDepth := h.queueDepth
  accepted := by
    have hold := h.accepted
    simp only [AcceptorPc.halfCounted, Metrics.activeAdd] at hold ⊢
    omega

theorem Gauges.insert (h : Gauges (.insert fd) ws n m closed) :
    Gauges .unlock ws (n + 1) (m.queueDepthSet (n + 1)) closed where
  active := by
    have hold := h.active
    simp only [AcceptorPc.counted, Metrics.queueDepthSet] at hold ⊢
    omega
  workersBusy := h.workersBusy
  queueDepth := rfl
  accepted := h.accepted

theorem Gauges.remove (h : Gauges a ws n m closed) (hpc : ws i = .remove) (hitem : 0 < n) :
    Gauges a (Function.update ws i (.unlock fd)) (n - 1) (m.queueDepthSet (n - 1)) closed where
  active := by
    have hengaged : engagedWorkers (Function.update ws i (.unlock fd)) = engagedWorkers ws + 1 :=
      headcount_update_gained ws (by simp [hpc, WorkerPc.engaged]) (by simp [WorkerPc.engaged])
    have hold := h.active
    simp only [Metrics.queueDepthSet, hengaged] at hold ⊢
    omega
  workersBusy := by
    rw [busyWorkers, headcount_update_same ws (by simp [hpc, WorkerPc.busy])]
    exact h.workersBusy
  queueDepth := rfl
  accepted := h.accepted

theorem Gauges.busyUp (h : Gauges a ws n m closed) (hpc : ws i = .busyUp fd) :
    Gauges a (Function.update ws i (.serving fd)) n (m.workersBusyAdd 1) closed where
  active := by
    rw [engagedWorkers, headcount_update_same ws (by simp [hpc, WorkerPc.engaged])]
    exact h.active
  workersBusy := by
    have hbusy : busyWorkers (Function.update ws i (.serving fd)) = busyWorkers ws + 1 :=
      headcount_update_gained ws (by simp [hpc, WorkerPc.busy]) (by simp [WorkerPc.busy])
    have hold := h.workersBusy
    simp only [Metrics.workersBusyAdd, hbusy] at hold ⊢
    omega
  queueDepth := h.queueDepth
  accepted := h.accepted

theorem Gauges.busyDown (h : Gauges a ws n m closed) (hpc : ws i = .busyDown fd) :
    Gauges a (Function.update ws i (.close fd)) n (m.workersBusyAdd (-1)) closed where
  active := by
    rw [engagedWorkers, headcount_update_same ws (by simp [hpc, WorkerPc.engaged])]
    exact h.active
  workersBusy := by
    have hbusy : busyWorkers (Function.update ws i (.close fd)) + 1 = busyWorkers ws :=
      headcount_update_lost ws (by simp [hpc, WorkerPc.busy]) (by simp [WorkerPc.busy])
    have hold := h.workersBusy
    simp only [Metrics.workersBusyAdd] at hold ⊢
    omega
  queueDepth := h.queueDepth
  accepted := h.accepted

/-- `metrics_connection_closed`. -/
theorem Gauges.countClosed (h : Gauges a ws n m closed) (hpc : ws i = .countClosed) :
    Gauges a (Function.update ws i .lock) n (m.activeAdd (-1)) (closed + 1) where
  active := by
    have hengaged : engagedWorkers (Function.update ws i .lock) + 1 = engagedWorkers ws :=
      headcount_update_lost ws (by simp [hpc, WorkerPc.engaged]) (by simp [WorkerPc.engaged])
    have hold := h.active
    simp only [Metrics.activeAdd] at hold ⊢
    omega
  workersBusy := by
    rw [busyWorkers, headcount_update_same ws (by simp [hpc, WorkerPc.busy])]
    exact h.workersBusy
  queueDepth := h.queueDepth
  accepted := by
    have hold := h.accepted
    simp only [Metrics.activeAdd] at hold ⊢
    push_cast
    omega

end Gauges

/-! ## Every step -/

/-- The calls of `metrics_connection_closed` in a step. -/
def closings : Process (Pool cfg) → Label cfg.numWorkers → ℕ
  | .running s, .worker i => if s.workers i = .countClosed then 1 else 0
  | _, _ => 0

def Pool.Gauges (s : Pool cfg) (closed : ℕ) : Prop :=
  ThreadPool.Gauges s.acceptor s.workers s.queue.count s.metrics closed

section Steps

variable {s s' : Pool cfg} {closed : ℕ}

theorem Pool.Gauges.acceptorStep (h : s.Gauges closed)
    (hs : ThreadPool.acceptorStep s = some (.running s')) : s'.Gauges closed := by
  unfold Pool.Gauges at h
  unfold ThreadPool.acceptorStep at hs
  cases hpc : s.acceptor with
  | loopTest =>
      simp only [hpc] at h hs
      cases hs
      split <;> exact h.acceptor_moves rfl rfl
  | countRefused =>
      simp only [hpc] at h hs
      cases hs
      exact h.refused.acceptor_moves rfl rfl
  | countAccepted fd =>
      simp only [hpc] at h hs
      cases hs
      exact h.countAccepted
  | countActive fd =>
      simp only [hpc] at h hs
      cases hs
      exact h.countActive
  | lock fd | woken fd =>
      simp only [hpc, Option.ite_none_right_eq_some, Option.some.injEq] at h hs
      cases hs.2
      exact h.acceptor_moves rfl rfl
  | test fd =>
      simp only [hpc] at h hs
      split at hs
      · cases hs
        exact h.acceptor_moves rfl rfl
      · cases hs
        exact h.acceptor_moves rfl rfl
  | insert fd =>
      simp only [hpc] at h hs
      cases hs
      exact h.insert
  | unlock =>
      simp only [hpc] at h hs
      cases hs
      exact h.acceptor_moves rfl rfl
  | accept | asleep fd | signal | stopping => simp [hpc] at hs

/-- A step of a worker that does not close a connection. -/
theorem Pool.Gauges.workerStep_of_ne {i : Fin cfg.numWorkers}
    (hlocked : Locked s.acceptor s.workers s.holder s.queue) (h : s.Gauges closed)
    (hne : s.workers i ≠ .countClosed)
    (hs : ThreadPool.workerStep s i = some (.running s')) : s'.Gauges closed := by
  unfold ThreadPool.workerStep at hs
  cases hpc : s.workers i with
  | lock | woken =>
      simp only [hpc, Option.ite_none_right_eq_some, Option.some.injEq] at hs
      cases hs.2
      exact h.worker_moves hpc rfl rfl
  | test =>
      simp only [hpc] at hs
      split at hs
      · cases hs
        exact h.worker_moves hpc rfl rfl
      · cases hs
        exact h.worker_moves hpc rfl rfl
  | asleep => simp [hpc] at hs
  | remove =>
      simp only [hpc] at hs
      cases hs
      exact h.remove hpc (hlocked.item i hpc)
  | unlock fd | serving fd | close fd =>
      simp only [hpc] at hs
      cases hs
      exact h.worker_moves hpc rfl rfl
  | signal fd =>
      simp only [hpc] at hs
      cases hs
      have hwake := h.acceptor_moves s.acceptor.counted_wake s.acceptor.halfCounted_wake
      exact hwake.worker_moves hpc rfl rfl
  | busyUp fd =>
      simp only [hpc] at hs
      cases hs
      exact h.busyUp hpc
  | busyDown fd =>
      simp only [hpc] at hs
      cases hs
      exact h.busyDown hpc
  | countClosed => exact absurd hpc hne

theorem Pool.Gauges.workerStep {i : Fin cfg.numWorkers}
    (hlocked : Locked s.acceptor s.workers s.holder s.queue) (h : s.Gauges closed)
    (hs : ThreadPool.workerStep s i = some (.running s')) :
    s'.Gauges (closed + closings (.running s) (.worker i)) := by
  by_cases hpc : s.workers i = .countClosed
  · have hone : closings (.running s) (.worker i) = 1 := if_pos hpc
    rw [hone]
    simp only [ThreadPool.workerStep, hpc] at hs
    cases hs
    exact h.countClosed hpc
  · have hzero : closings (.running s) (.worker i) = 0 := if_neg hpc
    rw [hzero]
    exact h.workerStep_of_ne hlocked hpc hs

theorem Pool.Gauges.step {l : Label cfg.numWorkers}
    (hlocked : Locked s.acceptor s.workers s.holder s.queue) (h : s.Gauges closed)
    (hs : s.step l = some (.running s')) : s'.Gauges (closed + closings (.running s) l) := by
  cases l with
  | stopSignal =>
      cases hs
      exact h
  | acceptReturns r =>
      simp only [Pool.step, Option.ite_none_right_eq_some] at hs
      obtain ⟨hpc, hs⟩ := hs
      unfold Pool.Gauges at h
      rw [hpc] at h
      cases r with
      | ok fd =>
          simp only [acceptReturns, Option.ite_none_right_eq_some, Option.some.injEq] at hs
          cases hs.2
          exact h.acceptor_moves rfl rfl
      | error e =>
          simp only [acceptReturns, acceptFailed, Option.some.injEq] at hs
          split at hs
          · cases hs
            exact h.acceptor_moves rfl rfl
          · split at hs
            · cases hs
              exact h.acceptor_moves rfl rfl
            · cases hs
  | acceptor => exact h.acceptorStep hs
  | signalNotEmpty sleeper =>
      unfold Pool.Gauges at h
      cases sleeper with
      | none =>
          simp only [Pool.step, signalNotEmpty, Option.ite_none_right_eq_some,
            Option.some.injEq] at hs
          obtain ⟨⟨hpc, _⟩, hs⟩ := hs
          cases hs
          rw [hpc] at h
          exact h.acceptor_moves rfl rfl
      | some i =>
          simp only [Pool.step, signalNotEmpty, Option.ite_none_right_eq_some,
            Option.some.injEq] at hs
          obtain ⟨⟨hpc, hasleep⟩, hs⟩ := hs
          cases hs
          rw [hpc] at h
          have hmoved := h.acceptor_moves (show AcceptorPc.loopTest.counted = _ from rfl) rfl
          exact hmoved.worker_moves hasleep rfl rfl
  | wakeAcceptor =>
      cases hs
      exact h.acceptor_moves s.acceptor.counted_wake s.acceptor.halfCounted_wake
  | worker i => exact h.workerStep hlocked hs
  | wakeWorker i =>
      simp only [Pool.step, Option.ite_none_right_eq_some, Option.some.injEq] at hs
      obtain ⟨hasleep, hs⟩ := hs
      cases hs
      exact h.worker_moves hasleep rfl rfl

end Steps

/-! ## Every run -/

theorem gauges_start (cfg : Config) (memory : ℕ → ℕ) : (Pool.start cfg memory).Gauges 0 := by
  have hengaged : engagedWorkers (Pool.start cfg memory).workers = 0 :=
    headcount_eq_zero fun _ => nofun
  have hbusy : busyWorkers (Pool.start cfg memory).workers = 0 :=
    headcount_eq_zero fun _ => nofun
  refine ⟨?_, ?_, rfl, rfl⟩
  · rw [hengaged]
    rfl
  · rw [hbusy]
    rfl

theorem run_gauges {memory : ℕ → ℕ} {labels : List (Label cfg.numWorkers)} {s : Pool cfg}
    (h : (pool cfg).run (.running (.start cfg memory)) labels = some (.running s)) :
    Locked s.acceptor s.workers s.holder s.queue ∧
      s.Gauges ((pool cfg).total closings (.running (.start cfg memory)) labels) := by
  have hrun := Machine.run_total (w := closings) (P := fun (p : Process (Pool cfg)) (n : ℕ) =>
    p.All fun s => Locked s.acceptor s.workers s.holder s.queue ∧ s.Gauges n) ?_ labels
    (show (Process.running (Pool.start cfg memory)).All _ from
      ⟨locked_start cfg memory, gauges_start cfg memory⟩) h
  · rwa [Nat.zero_add] at hrun
  · intro p l q n hp hq
    cases p with
    | exited => cases hq
    | running s =>
        cases q with
        | exited => trivial
        | running s' => exact ⟨hp.1.moves (moves_of_step hq), hp.2.step hp.1 hq⟩

/-- One connection in the hand of the acceptor, the slots of the ring, and one for each
worker. -/
theorem Pool.Gauges.bounds {s : Pool cfg} {closed : ℕ} (h : s.Gauges closed)
    (hlocked : Locked s.acceptor s.workers s.holder s.queue) :
    0 ≤ s.metrics.active ∧ s.metrics.active ≤ cfg.queueDepth + cfg.numWorkers + 1 ∧
    0 ≤ s.metrics.workersBusy ∧ s.metrics.workersBusy ≤ cfg.numWorkers ∧
    s.metrics.workersBusy + s.queue.count ≤ s.metrics.active ∧
    s.metrics.queueDepth ≤ cfg.queueDepth := by
  have hcount : s.queue.count ≤ cfg.queueDepth := hlocked.capacity ▸ hlocked.valid.count_le
  have hcounted := s.acceptor.counted_le
  have hengaged : engagedWorkers s.workers ≤ cfg.numWorkers :=
    (headcount_le_card _ _).trans_eq (Fintype.card_fin _)
  have hbusy : busyWorkers s.workers ≤ engagedWorkers s.workers :=
    headcount_le_of_imp (fun _ => WorkerPc.engaged_of_busy) _
  have hactive := h.active
  have hworkers := h.workersBusy
  have hdepth := h.queueDepth
  refine ⟨?_, ?_, ?_, ?_, ?_, ?_⟩
  all_goals omega

/-- What every gauge and counter of the pool is, in every state and for every
schedule. -/
theorem pool_gauges {memory : ℕ → ℕ} {labels : List (Label cfg.numWorkers)} {s : Pool cfg}
    (h : (pool cfg).run (.running (.start cfg memory)) labels = some (.running s)) :
    s.metrics.active = s.acceptor.counted + s.queue.count + engagedWorkers s.workers ∧
    0 ≤ s.metrics.active ∧ s.metrics.active ≤ cfg.queueDepth + cfg.numWorkers + 1 ∧
    s.metrics.workersBusy = busyWorkers s.workers ∧
    0 ≤ s.metrics.workersBusy ∧ s.metrics.workersBusy ≤ cfg.numWorkers ∧
    s.metrics.workersBusy + s.queue.count ≤ s.metrics.active ∧
    (s.holder = none → s.metrics.queueDepth = s.queue.count) ∧
    (s.metrics.accepted : ℤ) = (s.metrics.active +
      (pool cfg).total closings (.running (.start cfg memory)) labels +
        s.acceptor.halfCounted) % 2 ^ 64 := by
  obtain ⟨hlocked, hgauges⟩ := run_gauges h
  obtain ⟨hnonneg, hle, hbusyNonneg, hbusyLe, hsum, -⟩ := hgauges.bounds hlocked
  exact ⟨hgauges.active, hnonneg, hle, hgauges.workersBusy, hbusyNonneg, hbusyLe, hsum,
    fun _ => hgauges.queueDepth, hgauges.accepted⟩

theorem pool_gauges_threeConnections :
    ∃ s, (pool smallConfig).run (.running (.start smallConfig fun _ => 0)) threeConnections =
        some (.running s) ∧
      s.metrics.active = 3 ∧ s.metrics.queueDepth = 1 ∧
      s.metrics.active = s.acceptor.counted + s.queue.count + engagedWorkers s.workers := by
  obtain ⟨s, hrun, hactive, hdepth⟩ : ∃ s,
      (pool smallConfig).run (.running (.start smallConfig fun _ => 0)) threeConnections =
        some (.running s) ∧ s.metrics.active = 3 ∧ s.metrics.queueDepth = 1 :=
    ⟨_, rfl, rfl, rfl⟩
  exact ⟨s, hrun, hactive, hdepth, (pool_gauges hrun).1⟩

/-! ## The counter wraps -/

/-- The acceptor takes a connection while nobody else moves. -/
def acceptOne (n fd : ℕ) : List (Label n) :=
  [.acceptor, .acceptReturns (.ok fd), .acceptor, .acceptor, .acceptor, .acceptor, .acceptor,
    .acceptor, .signalNotEmpty none]

/-- A worker takes it from there to `metrics_connection_closed`. -/
def serveOne {n : ℕ} (i : Fin n) : List (Label n) := List.replicate 10 (.worker i)

section Cycle

variable {s : Pool cfg} {i : Fin cfg.numWorkers} {fd : ℕ}

theorem run_acceptOne (hpc : s.acceptor = .loopTest) (hstop : s.stopRequested = false)
    (hfree : s.holder = none) (hroom : s.queue.count ≠ s.queue.capacity)
    (hnone : s.descriptors.owner fd = none) (hawake : ∀ i, s.workers i ≠ .asleep) :
    (pool cfg).run (.running s) (acceptOne cfg.numWorkers fd) = some (.running { s with
      queue := s.queue.push fd
      metrics := (s.metrics.acceptedAdd.activeAdd 1).queueDepthSet (s.queue.push fd).count
      descriptors := s.descriptors.accept fd
      accepted := s.accepted ++ [fd]
      pushed := s.pushed ++ [fd] }) ∧
    (pool cfg).total closings (.running s) (acceptOne cfg.numWorkers fd) = 0 := by
  constructor
  · simp [acceptOne, Machine.run, pool, Process.machine, Pool.step, acceptorStep, acceptReturns,
      signalNotEmpty, hpc, hstop, hfree, hroom, hnone, hawake]
  · simp [acceptOne, Machine.total, pool, Process.machine, Pool.step, acceptorStep, acceptReturns,
      signalNotEmpty, closings, hpc, hstop, hfree, hroom, hnone, hawake]

theorem run_serveOne (hpc : s.workers i = .lock) (hawake : s.acceptor.sleeps = false)
    (hfree : s.holder = none) (hitem : s.queue.count ≠ 0) :
    (pool cfg).run (.running s) (serveOne i) = some (.running { s with
      queue := s.queue.pop
      metrics := (((s.metrics.queueDepthSet s.queue.pop.count).workersBusyAdd 1).workersBusyAdd
        (-1)).activeAdd (-1)
      descriptors := s.descriptors.close s.queue.front
      popped := s.popped ++ [(i, s.queue.front)] }) ∧
    (pool cfg).total closings (.running s) (serveOne i) = 1 := by
  have hwake := AcceptorPc.wake_of_awake hawake
  have hback : Function.update s.workers i .lock = s.workers := by
    rw [← hpc, Function.update_eq_self]
  constructor
  · simp [serveOne, List.replicate_succ, Machine.run, pool, Process.machine, Pool.step, workerStep,
      Pool.setWorker, hpc, hfree, hitem, hwake, hback]
  · simp [serveOne, List.replicate_succ, Machine.total, pool, Process.machine, Pool.step,
      workerStep, Pool.setWorker, closings, hpc, hfree, hitem, hwake, hback]

/-- No connection is open, and the ring is empty. -/
structure AtRest (s : Pool cfg) : Prop where
  acceptor : s.acceptor = .loopTest
  workers : ∀ i, s.workers i = .lock
  holder : s.holder = none
  valid : s.queue.Valid
  count : s.queue.count = 0
  stopRequested : s.stopRequested = false
  owner : ∀ fd, s.descriptors.owner fd = none

theorem FdQueue.Valid.front_push {q : FdQueue} (h : q.Valid) (hempty : q.count = 0) (fd : ℕ) :
    (q.push fd).front = fd := by
  have hroom : q.count < q.capacity := hempty ▸ Nat.zero_lt_of_lt h.head_lt
  have hnil : q.contents = [] := by
    rw [FdQueue.contents, hempty]
    rfl
  have hpush := h.contents_push hroom fd
  rw [hnil, FdQueue.contents_eq_front_cons (Nat.succ_pos _)] at hpush
  exact (List.cons.inj hpush).1

/-- A connection that nothing disturbs leads back to rest. -/
theorem AtRest.cycle (h : AtRest s) (i : Fin cfg.numWorkers) (fd : ℕ) :
    ∃ s', (pool cfg).run (.running s) (acceptOne cfg.numWorkers fd ++ serveOne i) =
        some (.running s') ∧ AtRest s' ∧
      (pool cfg).total closings (.running s) (acceptOne cfg.numWorkers fd ++ serveOne i) = 1 := by
  have hroom : s.queue.count < s.queue.capacity := h.count ▸ Nat.zero_lt_of_lt h.valid.head_lt
  obtain ⟨haccept, hzero⟩ := run_acceptOne h.acceptor h.stopRequested h.holder hroom.ne
    (h.owner fd) (by simp [h.workers])
  obtain ⟨hserve, hone⟩ := run_serveOne (s := { s with
    queue := s.queue.push fd
    metrics := (s.metrics.acceptedAdd.activeAdd 1).queueDepthSet (s.queue.push fd).count
    descriptors := s.descriptors.accept fd
    accepted := s.accepted ++ [fd]
    pushed := s.pushed ++ [fd] }) (h.workers i) (by rw [h.acceptor]; rfl) h.holder
    (Nat.succ_ne_zero _)
  refine ⟨_, Machine.run_append haccept hserve, ?_, ?_⟩
  · refine ⟨h.acceptor, h.workers, h.holder,
      (h.valid.push hroom fd).pop (Nat.succ_pos _), h.count, h.stopRequested, ?_⟩
    intro fd'
    simp only [h.valid.front_push h.count]
    by_cases hfd : fd' = fd
    · rw [hfd, Descriptors.owner_close_same]
    · rw [Descriptors.owner_close_ne _ hfd, Descriptors.owner_accept_ne _ hfd, h.owner]
  · rw [Machine.total_append _ haccept, hzero, hone]

end Cycle

theorem atRest_start (cfg : Config) (memory : ℕ → ℕ) : AtRest (Pool.start cfg memory) where
  acceptor := rfl
  workers _ := rfl
  holder := rfl
  valid := (locked_start cfg memory).valid
  count := rfl
  stopRequested := rfl
  owner _ := rfl

/-- Any number of connections can come and go one after the other. -/
theorem exists_run_atRest (cfg : Config) (memory : ℕ → ℕ) (n : ℕ) : ∃ labels s,
    (pool cfg).run (.running (.start cfg memory)) labels = some (.running s) ∧ AtRest s ∧
      (pool cfg).total closings (.running (.start cfg memory)) labels = n := by
  let i : Fin cfg.numWorkers := ⟨0, cfg.numWorkers_pos⟩
  obtain ⟨labels, _, hrun, ⟨s, rfl, hs⟩, htotal⟩ := Machine.exists_run_cycle (M := pool cfg)
    (w := closings) (P := fun _ p => ∃ s, p = Process.running s ∧ AtRest s)
    ⟨_, rfl, atRest_start cfg memory⟩ (acceptOne cfg.numWorkers 5 ++ serveOne i) (by
      rintro _ _ ⟨s, rfl, hs⟩
      obtain ⟨s', hrun, hs', htotal⟩ := hs.cycle i 5
      exact ⟨_, hrun, ⟨s', rfl, hs'⟩, htotal⟩) n
  exact ⟨labels, s, hrun, hs, htotal⟩

/-- After 2^64 such connections `accepted` is not what is open and what was
closed. -/
theorem accepted_wraps : ∃ labels s,
    (pool smallConfig).run (.running (.start smallConfig fun _ => 0)) labels =
        some (.running s) ∧
      s.acceptor.halfCounted = 0 ∧ (s.metrics.accepted : ℤ) ≠ s.metrics.active +
        (pool smallConfig).total closings (.running (.start smallConfig fun _ => 0)) labels := by
  obtain ⟨labels, s, hrun, hs, htotal⟩ := exists_run_atRest smallConfig (fun _ => 0) (2 ^ 64)
  refine ⟨labels, s, hrun, by rw [hs.acceptor]; rfl, ?_⟩
  obtain ⟨_, hgauges⟩ := run_gauges hrun
  have hactive := hgauges.active
  have haccepted := hgauges.accepted
  rw [htotal] at haccepted ⊢
  omega

end ConcurrentServers.ThreadPool

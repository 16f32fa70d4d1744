import ConcurrentServers.Posix
import ConcurrentServers.Library.Machine
import ConcurrentServers.Library.Descriptors
import ConcurrentServers.Library.Ring

/-!
# The threads of `threadpool_server.c`

The acceptor and the workers are program counters over one shared state. Taking
the mutex, the test of a `while`, the body of a critical section, releasing the
mutex, each signal and each atomic update of a metric are separate steps.
`pthread_cond_wait` releases the mutex and sleeps in one step, can return at any
time, and takes the mutex again before the test is repeated. The metrics
endpoint, which only reads, is left out.
-/

namespace ConcurrentServers.ThreadPool

open Systems

/-- What `main` has checked before it starts a thread. -/
structure Config where
  numWorkers : ℕ
  queueDepth : ℕ
  numWorkers_pos : 0 < numWorkers
  queueDepth_pos : 0 < queueDepth

/-- The check itself, which dies on anything else. -/
def Config.ofArgs (numWorkers queueDepth : ℤ) : Option Config :=
  if h : numWorkers < 1 ∨ queueDepth < 1 then none
  else some ⟨numWorkers.toNat, queueDepth.toNat, by omega, by omega⟩

/-! ## The queue -/

structure FdQueue where
  fds : ℕ → ℕ
  capacity : ℕ
  head : ℕ
  tail : ℕ
  count : ℕ
  totalEnqueued : UInt64
  acceptorBlocked : UInt64

/-- The array comes from `malloc`, with whatever is in the memory. -/
def queueInit (memory : ℕ → ℕ) (capacity : ℕ) : FdQueue where
  fds := memory
  capacity := capacity
  head := 0
  tail := 0
  count := 0
  totalEnqueued := 0
  acceptorBlocked := 0

/-- The body of `queue_push` behind the `while`. -/
def FdQueue.push (q : FdQueue) (fd : ℕ) : FdQueue :=
  { q with
    fds := Function.update q.fds q.tail fd
    tail := (q.tail + 1) % q.capacity
    count := q.count + 1
    totalEnqueued := q.totalEnqueued + 1 }

def FdQueue.front (q : FdQueue) : ℕ := q.fds q.head

/-- The body of `queue_pop` behind the `while`. -/
def FdQueue.pop (q : FdQueue) : FdQueue :=
  { q with head := (q.head + 1) % q.capacity, count := q.count - 1 }

def FdQueue.contents (q : FdQueue) : List ℕ := Ring.contents q.fds q.capacity q.head q.count

/-! ## The metrics that the threads update -/

structure Metrics where
  accepted : ℕ
  refused : ℕ
  active : ℤ
  workersBusy : ℤ
  queueDepth : ℕ

def Metrics.acceptedAdd (m : Metrics) : Metrics := { m with accepted := (m.accepted + 1) % 2 ^ 64 }

def Metrics.refusedAdd (m : Metrics) : Metrics := { m with refused := (m.refused + 1) % 2 ^ 64 }

def Metrics.activeAdd (m : Metrics) (delta : ℤ) : Metrics := { m with active := m.active + delta }

def Metrics.workersBusyAdd (m : Metrics) (delta : ℤ) : Metrics :=
  { m with workersBusy := m.workersBusy + delta }

def Metrics.queueDepthSet (m : Metrics) (depth : ℕ) : Metrics := { m with queueDepth := depth }

/-! ## Program counters -/

/-- The loop of `main` with `metrics_connection_accepted` and `queue_push`. The
argument is `newsockfd`. From `test` to `unlock` the mutex is held, and `asleep`
turns into `woken` by a signal or for no reason. -/
inductive AcceptorPc where
  | loopTest
  | accept
  | countRefused
  | countAccepted (fd : ℕ)
  | countActive (fd : ℕ)
  | lock (fd : ℕ)
  | test (fd : ℕ)
  | asleep (fd : ℕ)
  | woken (fd : ℕ)
  | insert (fd : ℕ)
  | unlock
  | signal
  | stopping
  deriving DecidableEq, Repr

/-- The loop of `worker_main` with `queue_pop`. The argument is `sockfd`. -/
inductive WorkerPc where
  | lock
  | test
  | asleep
  | woken
  | remove
  | unlock (fd : ℕ)
  | signal (fd : ℕ)
  | busyUp (fd : ℕ)
  | serving (fd : ℕ)
  | busyDown (fd : ℕ)
  | close (fd : ℕ)
  | countClosed
  deriving DecidableEq, Repr

inductive Thread (n : ℕ) where
  | acceptor
  | worker (i : Fin n)
  deriving DecidableEq, Repr

/-- The fields from `descriptors` on are not in the source. They record the
connections, and the descriptors in the order in which `accept` returned them,
the acceptor inserted them, and the workers removed them. -/
structure Pool (cfg : Config) where
  acceptor : AcceptorPc
  workers : Fin cfg.numWorkers → WorkerPc
  holder : Option (Thread cfg.numWorkers)
  queue : FdQueue
  metrics : Metrics
  stopRequested : Bool
  descriptors : Descriptors
  accepted : List ℕ
  pushed : List ℕ
  popped : List (Fin cfg.numWorkers × ℕ)

variable {cfg : Config}

def Pool.setWorker (s : Pool cfg) (i : Fin cfg.numWorkers) (pc : WorkerPc) : Pool cfg :=
  { s with workers := Function.update s.workers i pc }

/-! ## Steps -/

/-- How the loop goes on when `accept` fails. `perror_die` ends the process. -/
def acceptFailed (e : Errno) (s : Pool cfg) : Process (Pool cfg) :=
  if e = .eintr ∨ e = .econnaborted then .running { s with acceptor := .loopTest }
  else if e = .emfile ∨ e = .enfile ∨ e = .enobufs ∨ e = .enomem then
    .running { s with acceptor := .countRefused }
  else .exited

/-- The kernel does not return a descriptor that is open. -/
def acceptReturns (r : SysResult ℕ) (s : Pool cfg) : Option (Process (Pool cfg)) :=
  match r with
  | .error e => some (acceptFailed e s)
  | .ok fd =>
      if s.descriptors.owner fd = none then
        some (.running { s with
          acceptor := .countAccepted fd
          descriptors := s.descriptors.accept fd
          accepted := s.accepted ++ [fd] })
      else none

/-- The steps of the acceptor that depend on nothing but the state. -/
def acceptorStep (s : Pool cfg) : Option (Process (Pool cfg)) :=
  match s.acceptor with
  | .loopTest =>
      some (.running { s with acceptor := if s.stopRequested then .stopping else .accept })
  | .countRefused =>
      some (.running { s with acceptor := .loopTest, metrics := s.metrics.refusedAdd })
  | .countAccepted fd =>
      some (.running { s with acceptor := .countActive fd, metrics := s.metrics.acceptedAdd })
  | .countActive fd =>
      some (.running { s with acceptor := .lock fd, metrics := s.metrics.activeAdd 1 })
  | .lock fd | .woken fd =>
      if s.holder = none then
        some (.running { s with acceptor := .test fd, holder := some .acceptor })
      else none
  | .test fd =>
      if s.queue.count = s.queue.capacity then
        some (.running { s with
          acceptor := .asleep fd
          holder := none
          queue := { s.queue with acceptorBlocked := s.queue.acceptorBlocked + 1 } })
      else some (.running { s with acceptor := .insert fd })
  | .insert fd =>
      some (.running { s with
        acceptor := .unlock
        queue := s.queue.push fd
        metrics := s.metrics.queueDepthSet (s.queue.push fd).count
        pushed := s.pushed ++ [fd] })
  | .unlock => some (.running { s with acceptor := .signal, holder := none })
  | .stopping => some .exited
  | .accept | .asleep _ | .signal => none

/-- `pthread_cond_signal(&q->not_empty)` wakes a worker if one is asleep. -/
def signalNotEmpty (sleeper : Option (Fin cfg.numWorkers)) (s : Pool cfg) :
    Option (Process (Pool cfg)) :=
  match sleeper with
  | some i =>
      if s.acceptor = .signal ∧ s.workers i = .asleep then
        some (.running ({ s with acceptor := .loopTest }.setWorker i .woken))
      else none
  | none =>
      if s.acceptor = .signal ∧ ∀ i, s.workers i ≠ .asleep then
        some (.running { s with acceptor := .loopTest })
      else none

/-- What a signal or a spurious wakeup does to the acceptor. -/
def AcceptorPc.wake : AcceptorPc → AcceptorPc
  | .asleep fd => .woken fd
  | pc => pc

/-- The steps of a worker that depend on nothing but the state. The one thread
that can wait for `not_full` is the acceptor. -/
def workerStep (s : Pool cfg) (i : Fin cfg.numWorkers) : Option (Process (Pool cfg)) :=
  match s.workers i with
  | .lock | .woken =>
      if s.holder = none then
        some (.running ({ s with holder := some (.worker i) }.setWorker i .test))
      else none
  | .test =>
      if s.queue.count = 0 then some (.running ({ s with holder := none }.setWorker i .asleep))
      else some (.running (s.setWorker i .remove))
  | .remove =>
      some (.running ({ s with
        queue := s.queue.pop
        metrics := s.metrics.queueDepthSet s.queue.pop.count
        popped := s.popped ++ [(i, s.queue.front)] }.setWorker i (.unlock s.queue.front)))
  | .unlock fd => some (.running ({ s with holder := none }.setWorker i (.signal fd)))
  | .signal fd =>
      some (.running ({ s with acceptor := s.acceptor.wake }.setWorker i (.busyUp fd)))
  | .busyUp fd =>
      some (.running ({ s with metrics := s.metrics.workersBusyAdd 1 }.setWorker i (.serving fd)))
  | .serving fd => some (.running (s.setWorker i (.busyDown fd)))
  | .busyDown fd =>
      some (.running ({ s with metrics := s.metrics.workersBusyAdd (-1) }.setWorker i (.close fd)))
  | .close fd =>
      some (.running ({ s with descriptors := s.descriptors.close fd }.setWorker i .countClosed))
  | .countClosed =>
      some (.running ({ s with metrics := s.metrics.activeAdd (-1) }.setWorker i .lock))
  | .asleep => none

inductive Label (n : ℕ) where
  | stopSignal
  | acceptReturns (r : SysResult ℕ)
  | acceptor
  | signalNotEmpty (sleeper : Option (Fin n))
  | wakeAcceptor
  | worker (i : Fin n)
  | wakeWorker (i : Fin n)

def Pool.step (s : Pool cfg) : Label cfg.numWorkers → Option (Process (Pool cfg))
  | .stopSignal => some (.running { s with stopRequested := true })
  | .acceptReturns r => if s.acceptor = .accept then acceptReturns r s else none
  | .acceptor => acceptorStep s
  | .signalNotEmpty sleeper => signalNotEmpty sleeper s
  | .wakeAcceptor => some (.running { s with acceptor := s.acceptor.wake })
  | .worker i => workerStep s i
  | .wakeWorker i =>
      if s.workers i = .asleep then some (.running (s.setWorker i .woken)) else none

def Pool.start (cfg : Config) (memory : ℕ → ℕ) : Pool cfg where
  acceptor := .loopTest
  workers _ := .lock
  holder := none
  queue := queueInit memory cfg.queueDepth
  metrics := ⟨0, 0, 0, 0, 0⟩
  stopRequested := false
  descriptors := .empty
  accepted := []
  pushed := []
  popped := []

def pool (cfg : Config) : Machine (Process (Pool cfg)) (Label cfg.numWorkers) :=
  Process.machine (fun s => ∃ memory, s = Pool.start cfg memory) Pool.step

end ConcurrentServers.ThreadPool

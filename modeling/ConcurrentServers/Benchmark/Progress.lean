import ConcurrentServers.Benchmark.Work

/-!
# A benchmark comes to its end

The barrier of the load generator opens when all clients are connected. Until then no
client reads or sends anything, so every worker keeps the first connection that it
gets. All clients have to find a place with a worker, in the ring, in the hand of the
acceptor or in the backlog. If they do, some thread can always make a step.
-/

namespace ConcurrentServers.Benchmark

open Systems
open Loadgen (Args Conn)
open Protocol (Connection)
open ThreadPool (Config Serving)
open Exchange (exchange toGo)

variable {args : Args} {cfg : Config} {net : Network} {b b' : Bench args cfg}

/-! ## When no thread can make a step -/

/-- Only a disturbance could happen. -/
def Bench.Quiet (net : Network) (b : Bench args cfg) : Prop :=
  ∀ l b', l.disturbed = false → b.step net l ≠ some (.running b')

theorem Bench.Sound.step_none (h : b.Sound net) (hquiet : b.Quiet net) {l : Label args cfg}
    (hl : l.disturbed = false) : b.step net l = none := by
  cases hs : b.step net l with
  | none => rfl
  | some p =>
      cases p with
      | running b' => exact absurd hs (hquiet l b' hl)
      | exited => exact absurd hs (h.not_exited l)

theorem Bench.Sound.pool_none (h : b.Sound net) (hquiet : b.Quiet net)
    {l : ThreadPool.Label cfg.numWorkers} (hl : permits l = true)
    (hdisturbed : (Label.pool l : Label args cfg).disturbed = false)
    (hready : b.server.ready l = true) : b.server.pool.step l = none := by
  have hnone := h.step_none hquiet hdisturbed
  unfold Bench.step at hnone
  dsimp only at hnone
  rw [if_pos hl, Option.map_eq_none_iff] at hnone
  unfold Serving.step at hnone
  dsimp only at hnone
  rwa [if_pos hready, Option.map_eq_none_iff] at hnone

theorem Bench.Sound.blocked (h : b.Sound net) (hquiet : b.Quiet net) :
    b.server.pool.Blocked where
  acceptor := h.pool_none hquiet (l := .acceptor) rfl rfl rfl
  signal sleeper := h.pool_none hquiet (l := .signalNotEmpty sleeper) rfl rfl rfl
  worker w := by
    by_cases hserving : ∃ fd, b.server.pool.workers w = .serving fd
    · exact Or.inr hserving
    · refine Or.inl (h.pool_none hquiet (l := .worker w) rfl rfl ?_)
      unfold Serving.ready
      dsimp only
      split
      · next fd hpc => exact absurd ⟨fd, hpc⟩ hserving
      · rfl

/-- The call of a worker is under way. -/
theorem Bench.Sound.running (h : b.Sound net) (hquiet : b.Quiet net) {w : Fin cfg.numWorkers}
    {fd : ℕ} (hpc : b.server.pool.workers w = .serving fd) :
    ∃ v, b.server.stack w = some v ∧ v.result = none := by
  cases hstack : b.server.stack w with
  | none =>
      have hnone := h.step_none hquiet (l := .enter w .waitForMsg (.replicate _ 0)) rfl
      simp [Bench.step, Serving.step, hpc, hstack] at hnone
  | some v =>
      refine ⟨v, rfl, ?_⟩
      cases hresult : v.result with
      | none => rfl
      | some r =>
          have hready : b.server.ready (.worker w) = true := by
            simp [Serving.ready, hpc, hstack, Serving.returned, hresult]
          have hnone := h.pool_none hquiet (l := .worker w) rfl rfl hready
          simp [ThreadPool.Pool.step, ThreadPool.workerStep, hpc] at hnone

theorem exists_thread {s : Loadgen.State args} {i : Fin args.connections} {a : Loadgen.Answer}
    {c : Conn} (hstart : a ≠ .start) (hrelease : a ≠ .release)
    (hc : args.step (s.conns i) a = some c) : ∃ t, s.step (.thread i a) = some t := by
  cases a with
  | start => exact absurd rfl hstart
  | release => exact absurd rfl hrelease
  | _ =>
      simp only [Loadgen.State.step, Loadgen.State.threadStep, hc, Option.map_some]
      exact ⟨_, rfl⟩

/-- A call of a client that could return is not blocked. -/
theorem Bench.Sound.client_none (h : b.Sound net) (hquiet : b.Quiet net)
    {i : Fin args.connections} {a : Loadgen.Answer} {c : Conn}
    (hl : (Exchange.Label.client a).interrupted = false) (hstart : a ≠ .start)
    (hrelease : a ≠ .release) (hpermits : (b.session i).clientPermits net.toRooms a = true)
    (hroom : connects a = true → b.backlog.length < net.backlog) :
    args.step (b.loadgen.conns i) a ≠ some c := by
  intro hc
  obtain ⟨t, ht⟩ := exists_thread hstart hrelease hc
  have hguard : b.clientPermits net i a = true := by
    unfold Bench.clientPermits
    rw [hpermits, Bool.true_and]
    cases ha : connects a with
    | false => rfl
    | true => exact decide_eq_true (hroom ha)
  have hnone := h.step_none hquiet (l := .client i a) hl
  simp [Bench.step, hguard, ht] at hnone

/-- Behind its first byte a client only calls `recv` and `send`. -/
theorem talks_of_step {job : Loadgen.Job} {c c' : Conn} {a : Loadgen.Answer}
    (hs : job.step c a = some c') (hbegun : toGo c.control = 0) :
    a ≠ .start ∧ a ≠ .release ∧ connects a = false := by
  have hadvances := Loadgen.advances_of_step hs
  generalize c.control = k at hadvances hbegun
  cases hadvances with
  | starts | connects | arrives | released | unconnected | proceeds => cases hbegun
  | _ => exact ⟨nofun, nofun, rfl⟩

/-- A worker that is in a call waits for a client that has not begun. -/
theorem Bench.Sound.serving_waits (h : b.Sound net) (hquiet : b.Quiet net)
    (hfit : net.toRooms.Fit args.toJob) {w : Fin cfg.numWorkers} {fd : ℕ}
    (hpc : b.server.pool.workers w = .serving fd) :
    ∃ i, 0 < toGo (b.loadgen.conns i).control := by
  obtain ⟨v, hstack, hresult⟩ := h.running hquiet hpc
  obtain ⟨c, i, howner, hi, hcall⟩ := h.call hpc
  have hv : (b.session i).server = some v := by
    simp only [Bench.session, hi, Option.bind_some, hcall, hstack]
  refine ⟨i, ?_⟩
  by_contra hnot
  have hbegun : toGo (b.loadgen.conns i).control = 0 := Nat.eq_zero_of_not_pos hnot
  rcases (h.session i).served_progress hfit hv with
    ⟨-, v', r, hv', hr⟩ | hsetup | ⟨a, x, hl, hs⟩ | ⟨a, x, hl, hs⟩
  · cases hv.symm.trans hv'
    cases hresult.symm.trans hr
  · exact hnot hsetup
  · obtain ⟨v', hv', hs⟩ := Option.bind_eq_some_iff.mp hs
    cases hv.symm.trans hv'
    obtain ⟨hpermits, hs⟩ := Option.ite_none_right_eq_some.mp hs
    obtain ⟨v', hstep, -⟩ := Option.map_eq_some_iff.mp hs
    have hserves : b.serves w i = true := by simp [Bench.serves, hpc, howner, hi]
    have hnone := h.step_none hquiet (l := .answer w i a) hl
    simp [Bench.step, hserves, hpermits, Serving.step, hpc, hstack, hstep] at hnone
  · obtain ⟨hpermits, hs⟩ := Option.ite_none_right_eq_some.mp hs
    obtain ⟨c', hc', -⟩ := Option.map_eq_some_iff.mp hs
    obtain ⟨hstart, hrelease, hconnects⟩ := talks_of_step hc' hbegun
    refine h.client_none hquiet hl hstart hrelease hpermits ?_ hc'
    rw [hconnects]
    exact fun hconnect => absurd hconnect Bool.false_ne_true

/-- With a connection in the backlog, `accept` returns. -/
theorem Bench.Sound.backlog_nil (h : b.Sound net) (hquiet : b.Quiet net)
    (hpc : b.server.pool.acceptor = .accept) : b.backlog = [] := by
  cases hbacklog : b.backlog with
  | nil => rfl
  | cons i rest =>
      have hhandoff := (ThreadPool.reachable_handoff h.pool).2
      obtain ⟨fd, hfd⟩ := Infinite.exists_notMem_finset
        (b.server.pool.acceptor.hand.toList + b.server.pool.queue.contents +
          tally ThreadPool.WorkerPc.load b.server.pool.workers : Multiset ℕ).toFinset
      have hfree : b.server.pool.descriptors.owner fd = none := by
        rw [Multiset.mem_toFinset, hhandoff.live_iff fd] at hfd
        exact not_not.mp hfd
      have hnone := h.step_none hquiet (l := .accept fd) rfl
      simp [Bench.step, hbacklog, Serving.step, Serving.ready, ThreadPool.Pool.step, hpc,
        ThreadPool.acceptReturns, hfree, Process.map] at hnone

theorem Bench.Sound.main_none (h : b.Sound net) (hquiet : b.Quiet net) :
    b.loadgen.step (.create true) = none ∧ b.loadgen.step .main = none := by
  have hcreate := h.step_none hquiet (l := .create) rfl
  have hmain := h.step_none hquiet (l := .main) rfl
  simp only [Bench.step, Option.map_eq_none_iff] at hcreate hmain
  exact ⟨hcreate, hmain⟩

/-! ## Before the barrier opens -/

/-- A quiet system in which the barrier is closed waits for a client in `connect_to`. -/
theorem Bench.Sound.connecting (h : b.Sound net) (hquiet : b.Quiet net)
    (hstarting : b.loadgen.Starting) : ∃ i, (b.loadgen.conns i).control = .connecting := by
  obtain ⟨hcreate, hmain'⟩ := h.main_none hquiet
  obtain ⟨spawned, hle, hgathering, hmain | ⟨hspawned, hmain | hmain⟩⟩ := hstarting
  · by_cases hlt : spawned < args.connections
    · have hunborn : (b.loadgen.conns ⟨spawned, hlt⟩).control = .unborn :=
        (hgathering.unborn ⟨spawned, hlt⟩).mpr le_rfl
      simp [Loadgen.State.step, Loadgen.State.create, hmain, hlt, Loadgen.Job.step, hunborn]
        at hcreate
    · simp [Loadgen.State.step, Loadgen.State.mainStep, hmain, hlt] at hmain'
  · simp [Loadgen.State.step, Loadgen.State.mainStep, hmain] at hmain'
  · obtain ⟨i, hi⟩ : ∃ i, (b.loadgen.conns i).control.waits = false := by
      by_contra hall
      simp only [not_exists, Bool.not_eq_false] at hall
      have hfull := Loadgen.waiting_of_all (by rw [hmain]; rfl) hall
      have hroom := hgathering.room
      omega
    have hbefore := hgathering.before i
    cases hc : (b.loadgen.conns i).control with
    | connecting => exact ⟨i, hc⟩
    | unborn =>
        have hge := (hgathering.unborn i).mp hc
        exact absurd i.isLt (by omega)
    | arriving fd =>
        obtain ⟨c, hstep⟩ : ∃ c, args.step (b.loadgen.conns i) .arrive = some c := by
          simp only [Loadgen.Job.step, hc]
          exact ⟨_, rfl⟩
        exact absurd hstep (h.client_none hquiet rfl (by simp) (by simp) rfl (by simp [connects]))
    | waiting fd =>
        rw [hc] at hi
        cases hi
    | _ =>
        rw [hc] at hbefore
        exact hbefore.elim

/-- A client that cannot connect finds the backlog full. -/
theorem Bench.Sound.backlog_full (h : b.Sound net) (hquiet : b.Quiet net)
    {i : Fin args.connections} (hi : (b.loadgen.conns i).control = .connecting) :
    net.backlog ≤ b.backlog.length := by
  by_contra hroom
  obtain ⟨c, hstep⟩ :
      ∃ c, args.step (b.loadgen.conns i) (.connect Exchange.accepting) = some c := by
    simp only [Loadgen.Job.step, hi]
    exact ⟨_, rfl⟩
  exact absurd hstep
    (h.client_none hquiet rfl (by simp) (by simp) rfl fun _ => Nat.not_le.mp hroom)

/-- All places are taken when a client waits in `connect_to`. -/
theorem Bench.Sound.not_starting (h : b.Sound net) (hquiet : b.Quiet net)
    (hbacklog : 0 < net.backlog)
    (hplaces : args.connections ≤ net.backlog + cfg.queueDepth + cfg.numWorkers + 1) :
    ¬b.loadgen.Starting := by
  intro hstarting
  obtain ⟨i, hi⟩ := h.connecting hquiet hstarting
  have hfull := h.backlog_full hquiet hi
  have hnot := unconnected (Loadgen.reachable_conns h.loadgen i) (Or.inr hi)
  have hlt := h.linked.fresh_add_lt hnot
  rcases ThreadPool.blocked_cases h.pool (h.blocked hquiet) with
    ⟨hpc, -⟩ | ⟨fd, hpc, hcount, hworkers⟩
  · have hnil := h.backlog_nil hquiet hpc
    rw [hnil] at hfull
    exact absurd hfull (Nat.not_le.mpr hbacklog)
  · have hle := ThreadPool.full_le_fresh h.pool hpc hcount hworkers
    omega

/-! ## Behind the barrier -/

/-- The load generator has exited with status zero after every echo was right, and the
server has closed all connections and waits for new ones. -/
structure Bench.Done (b : Bench args cfg) : Prop where
  exited : b.loadgen.main = .ended (.exited 0)
  right : b.loadgen.AllRight
  closed : b.server.pool.descriptors.closed.length = args.connections
  open_none : ∀ fd, b.server.pool.descriptors.owner fd = none
  idle : b.server.pool.acceptor = .accept ∧ ∀ w, b.server.pool.workers w = .asleep
  wires : b.backlog = [] ∧ ∀ i, b.up i = [] ∧ b.down i = []

theorem Bench.Sound.begun (h : b.Sound net) (hquiet : b.Quiet net) (hreleased : b.loadgen.Released)
    (i : Fin args.connections) : toGo (b.loadgen.conns i).control = 0 := by
  have hpast := hreleased.past i
  cases hc : (b.loadgen.conns i).control with
  | unborn => exact absurd (by rw [hc]; trivial) hpast
  | connecting => exact absurd (by rw [hc]; trivial) hpast
  | arriving fd => exact absurd (by rw [hc]; trivial) hpast
  | waiting fd => exact absurd (by rw [hc]; trivial) hpast
  | passed fd =>
      obtain ⟨c, hstep⟩ : ∃ c, args.step (b.loadgen.conns i) .proceed = some c := by
        cases fd <;> simp only [Loadgen.Job.step, hc] <;> exact ⟨_, rfl⟩
      exact absurd hstep (h.client_none hquiet rfl (by simp) (by simp) rfl (by simp [connects]))
  | _ => rfl

/-- Nobody is in a call, so the pool is idle. -/
theorem Bench.Sound.idle (h : b.Sound net) (hquiet : b.Quiet net)
    (hfit : net.toRooms.Fit args.toJob) (hreleased : b.loadgen.Released) :
    b.server.pool.acceptor = .accept ∧ (∀ w, b.server.pool.workers w = .asleep) ∧
      b.server.pool.queue.count = 0 := by
  have hnone : ∀ w fd, b.server.pool.workers w ≠ .serving fd := by
    intro w fd hpc
    obtain ⟨i, hi⟩ := h.serving_waits hquiet hfit hpc
    rw [h.begun hquiet hreleased i] at hi
    exact absurd hi (lt_irrefl 0)
  have hblocked := h.blocked hquiet
  have hasleep : ∀ w, b.server.pool.workers w = .asleep := fun w =>
    (hblocked.workers (ThreadPool.reachable_held h.pool) w).resolve_right
      fun ⟨fd, hpc⟩ => hnone w fd hpc
  have hfirst : Fin cfg.numWorkers := ⟨0, cfg.numWorkers_pos⟩
  rcases ThreadPool.blocked_cases h.pool hblocked with ⟨hpc, hcount⟩ | ⟨fd, -, -, hworkers⟩
  · exact ⟨hpc, hasleep, hcount ⟨hfirst, hasleep _⟩⟩
  · obtain ⟨fd', hw⟩ := hworkers hfirst
    exact absurd hw (hnone _ _)

theorem Bench.Sound.owner_none (h : b.Sound net) (hpc : b.server.pool.acceptor = .accept)
    (hasleep : ∀ w, b.server.pool.workers w = .asleep) (hcount : b.server.pool.queue.count = 0)
    (fd : ℕ) : b.server.pool.descriptors.owner fd = none := by
  have hhandoff := (ThreadPool.reachable_handoff h.pool).2
  have hload : tally ThreadPool.WorkerPc.load b.server.pool.workers = 0 :=
    Finset.sum_eq_zero fun w _ => by rw [hasleep w]; rfl
  have hlive := hhandoff.live_iff fd
  rw [hpc, hload, ThreadPool.FdQueue.contents, hcount] at hlive
  by_contra howner
  simpa [ThreadPool.AcceptorPc.hand, Ring.contents] using hlive.mpr howner

/-- All clients were connected when the barrier opened. -/
theorem Bench.Sound.connected (h : b.Sound net) (hreleased : b.loadgen.Released)
    (i : Fin args.connections) : (b.loadgen.conns i).connected = true := by
  have hpast := hreleased.past i
  refine (h.session i).connected_of ?_ ?_
  · intro (hc : (b.loadgen.conns i).control = .unborn)
    exact hpast (by rw [hc]; trivial)
  · intro (hc : (b.loadgen.conns i).control = .connecting)
    exact hpast (by rw [hc]; trivial)

/-- Behind the barrier with an empty backlog, all clients have been accepted. -/
theorem Bench.Sound.fresh_eq (h : b.Sound net) (hreleased : b.loadgen.Released)
    (hbacklog : b.backlog = []) : b.server.pool.descriptors.fresh = args.connections := by
  have hle := h.linked.fresh_add_le
  have hge := h.linked.le_fresh_add (h.connected hreleased)
  rw [hbacklog, List.length_nil] at hge
  omega

/-- Every client was served to the end. -/
theorem Bench.Sound.final (h : b.Sound net) (hreleased : b.loadgen.Released)
    (hbacklog : b.backlog = []) (hopen : ∀ fd, b.server.pool.descriptors.owner fd = none)
    (i : Fin args.connections) : (b.session i).Final := by
  have hnumber : b.number i ≠ none := by
    refine ((h.linked.connected i).mp (h.connected hreleased i)).resolve_left ?_
    rw [hbacklog]
    exact List.not_mem_nil
  obtain ⟨c, hc⟩ := Option.ne_none_iff_exists'.mp hnumber
  have hclosed : c ∈ b.server.pool.descriptors.closed := by
    refine (ThreadPool.reachable_accounted h.pool c (h.linked.lt hc)).resolve_left ?_
    rintro ⟨fd, howner⟩
    cases (hopen fd).symm.trans howner
  obtain ⟨v, r, hv, hr⟩ := ThreadPool.reachable_served h.server hclosed
  have hserver : (b.session i).server = some v := by
    simp only [Bench.session, hc, Option.bind_some, hv]
  exact ⟨((h.session i).ended v r hserver hr).2.1, v, r, hserver, hr⟩

/-- The status of a load generator whose sessions were all completed. -/
theorem finish_completed {s : Loadgen.State args}
    (hall : ∀ i, (s.conns i).completed = args.messages ∧ (s.conns i).errors = 0 ∧
      (s.conns i).mismatches = 0)
    (hlt : args.connections * args.messages < 2 ^ 31) :
    Loadgen.finish (s.ctxs args.connections) = .exited 0 := by
  have hcompleted : ∑ i, (s.conns i).completed = args.connections * args.messages := by
    simp [fun i => (hall i).1]
  have herrors : ∑ i, (s.conns i).errors = 0 := Finset.sum_eq_zero fun i _ => (hall i).2.1
  have hmismatches : ∑ i, (s.conns i).mismatches = 0 := Finset.sum_eq_zero fun i _ => (hall i).2.2
  rw [Loadgen.finish_eq, Loadgen.sum_ctxs, Loadgen.sum_ctxs, Loadgen.sum_ctxs, hcompleted, herrors,
    hmismatches, if_pos hlt]
  rfl

theorem Bench.Sound.done (h : b.Sound net) (hquiet : b.Quiet net)
    (hfit : net.toRooms.Fit args.toJob) (hlt : args.connections * args.messages < 2 ^ 31)
    (hreleased : b.loadgen.Released) : b.Done := by
  obtain ⟨hpc, hasleep, hcount⟩ := h.idle hquiet hfit hreleased
  have hbacklog := h.backlog_nil hquiet hpc
  have hopen := h.owner_none hpc hasleep hcount
  have hfinal := h.final hreleased hbacklog hopen
  have hcompleted := fun i => (h.session i).completed (hfinal i)
  have hfresh := h.fresh_eq hreleased hbacklog
  have hclosed := (ThreadPool.reachable_accounted h.pool).length_closed hopen
  have hended : ∃ o, b.loadgen.main = .ended o := by
    refine hreleased.main.resolve_left ?_
    rintro ⟨k, hmain⟩
    have hnone := (h.main_none hquiet).2
    simp only [Loadgen.State.step, Loadgen.State.mainStep, hmain] at hnone
    split at hnone
    · next hk =>
        have hreturned : (b.loadgen.conns ⟨k, hk.2⟩).control = .returned :=
          (hcompleted ⟨k, hk.2⟩).returned
        simp [hreturned, Loadgen.Control.returns] at hnone
    · cases hnone
  obtain ⟨o, hmain⟩ := hended
  obtain ⟨rfl, -⟩ := Loadgen.reachable_ended h.loadgen o hmain
  have hcounts : ∀ i, (b.loadgen.conns i).completed = args.messages ∧
      (b.loadgen.conns i).errors = 0 ∧ (b.loadgen.conns i).mismatches = 0 := by
    intro i
    obtain ⟨herrors, hmismatches⟩ := (hcompleted i).clean
    have hstage := (h.session i).books.stage.returned (hcompleted i).returned
    exact ⟨hstage.2 herrors, herrors, hmismatches⟩
  rw [finish_completed hcounts hlt] at hmain
  exact ⟨hmain, fun i => (hcompleted i).echoes, hclosed.trans hfresh, hopen, ⟨hpc, hasleep⟩,
    hbacklog, fun i => (hcompleted i).wires⟩

/-! ## Whole runs -/

theorem left_start (args : Args) (cfg : Config) (memory : ℕ → ℕ) :
    (Bench.start args cfg memory).left =
      args.connections * (args.messages * (6 * args.payloadBytes + 8) + 34) +
        2 * cfg.numWorkers + 5 := by
  have hsession : ∀ i, (Bench.session (Bench.start args cfg memory) i).left args.toJob =
      args.messages * (6 * args.payloadBytes + 8) + 9 := fun i => Exchange.left_start args.toJob
  have hrank : tally ThreadPool.WorkerPc.rank (Bench.start args cfg memory).server.pool.workers =
      2 * cfg.numWorkers := by
    simp [tally, Bench.start, ThreadPool.Pool.start, ThreadPool.WorkerPc.rank, Nat.mul_comm]
  unfold Bench.left ThreadPool.Pool.rank
  rw [hrank]
  simp only [hsession, Finset.sum_const, Finset.card_univ, Fintype.card_fin, smul_eq_mul]
  change args.connections - 0 + args.connections + 4 + _ + 23 * (args.connections - 0) +
    (1 + _ + 12 * 0) = _
  ring_nf
  omega

/-- The work that is left to a process. -/
def processLeft : Process (Bench args cfg) → ℕ
  | .running b => b.left
  | .exited => 0

/-- Without disturbances a run comes to a standstill. -/
theorem Bench.Sound.exists_quiet (h : b.Sound net) :
    ∃ ls b', (bench args cfg net).run (.running b) ls = some (.running b') ∧
      (∀ l ∈ ls, l.disturbed = false) ∧ b'.Quiet net := by
  have hprogress : ∀ p : Process (Bench args cfg), (∃ b, p = .running b ∧ b.Sound net) →
      ¬(∃ b, p = .running b ∧ b.Quiet net) → ∃ l q,
        (fun _ _ => True : Process (Bench args cfg) → Label args cfg → Prop) p l ∧
          l.disturbed = false ∧ (bench args cfg net).step p l = some q ∧
          (∃ b, q = .running b ∧ b.Sound net) ∧ processLeft q < processLeft p := by
    rintro _ ⟨b, rfl, hb⟩ hmoves
    obtain ⟨l, b', hl, hs⟩ : ∃ l b', l.disturbed = false ∧ b.step net l = some (.running b') := by
      by_contra hnone
      exact hmoves ⟨b, rfl, fun l b' hl hs => hnone ⟨l, b', hl, hs⟩⟩
    have hm := moves_of_step hs
    have hleft := hb.left_moves hm
    rw [hl] at hleft
    exact ⟨l, .running b', trivial, hl, hs, ⟨b', rfl, hb.moves hm⟩, hleft⟩
  obtain ⟨ls, _, hrun, -, hls, -, b', rfl, hquiet⟩ :=
    Machine.exists_run_of_progress processLeft hprogress ⟨b, rfl, h⟩
  exact ⟨ls, b', hrun, hls, hquiet⟩

/-- If every client finds a place and a request fits on the wires, the system of the load
generator and the thread pool never gets stuck, whatever the interleaving of all threads.
A run has only so many steps apart from disturbances and what they cause, and when there
are no more the load generator has exited with status zero and the server has closed
every connection. -/
theorem bench_completes (hfit : net.toRooms.Fit args.toJob) (hbacklog : 0 < net.backlog)
    (hplaces : args.connections ≤ net.backlog + cfg.queueDepth + cfg.numWorkers + 1)
    (hlt : args.connections * args.messages < 2 ^ 31) {memory : ℕ → ℕ}
    {ls : List (Label args cfg)} {p : Process (Bench args cfg)}
    (hrun : (bench args cfg net).run (.running (.start args cfg memory)) ls = some p) :
    ls.countP (fun l => !l.disturbed) ≤
        args.connections * (args.messages * (6 * args.payloadBytes + 8) + 34) +
          2 * cfg.numWorkers + 5 + 2 * ls.countP Label.disturbed ∧
      ∃ b, p = .running b ∧ (b.Done ∨ ∃ l b', l.disturbed = false ∧
        (bench args cfg net).step p l = some (.running b')) := by
  have hstart := sound_start args cfg net memory
  refine ⟨?_, ?_⟩
  · have hcount := countP_run_le hstart hrun
    rwa [left_start] at hcount
  · obtain ⟨b, rfl, h⟩ := reachable_sound
      (Machine.reachable_of_run ls ⟨_, rfl, memory, rfl⟩ hrun)
    refine ⟨b, rfl, ?_⟩
    by_cases hquiet : b.Quiet net
    · left
      refine h.done hquiet hfit hlt (h.started.resolve_left ?_)
      exact h.not_starting hquiet hbacklog hplaces
    · right
      unfold Bench.Quiet at hquiet
      push Not at hquiet
      exact hquiet

/-- Room for one byte on each wire and one connection in the backlog. -/
def oneEach : Network := ⟨Exchange.oneRoom, 1⟩

/-- Two clients, two workers and one slot, from the start to the end. -/
theorem bench_completes_twoConnections :
    ∃ ls b, (bench Loadgen.twoConnections ThreadPool.smallConfig oneEach).run
        (.running (.start Loadgen.twoConnections ThreadPool.smallConfig fun _ => 0)) ls =
          some (.running b) ∧ b.Done := by
  have hsound := sound_start Loadgen.twoConnections ThreadPool.smallConfig oneEach fun _ => 0
  obtain ⟨ls, b, hrun, -, hquiet⟩ := hsound.exists_quiet
  have hfit : oneEach.toRooms.Fit Loadgen.twoConnections.toJob := ⟨by decide, by decide, by decide⟩
  obtain ⟨-, _, hb, hdone⟩ := bench_completes hfit (by decide) (by decide) (by decide) hrun
  cases hb
  refine ⟨ls, b, hrun, hdone.resolve_right ?_⟩
  rintro ⟨l, b', hl, hs⟩
  exact hquiet l b' hl hs

end ConcurrentServers.Benchmark

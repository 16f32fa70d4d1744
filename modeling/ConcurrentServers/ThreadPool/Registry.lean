import ConcurrentServers.Metrics.Threads
import ConcurrentServers.ThreadPool.Counters

/-!
# The pool and the registry of `metrics.c`

The pool keeps its counters and gauges as unbounded numbers. Here every update that
one of its threads makes is made on the registry too, by the functions of
`metrics.c` and at the width that they have there, while calls of
`serve_connection` observe durations and the endpoint renders. The ranges that the
pool gives for the gauges are too small for them to wrap, and hold of every value
that a render has loaded.
-/

namespace ConcurrentServers.ThreadPool

open Systems
open ConcurrentServers.Metrics (Registry Load)

variable {cfg : Config} {s s' : Pool cfg}

/-! ## The updates of the threads -/

def AcceptorPc.update (q : FdQueue) : AcceptorPc → Option Metrics.Label
  | .countRefused => some .refusedAdd
  | .countAccepted _ => some .acceptedAdd
  | .countActive _ => some (.activeAdd 1)
  | .insert fd => some (.queueDepthSet (.ofNat (q.push fd).count))
  | _ => none

def WorkerPc.update (q : FdQueue) : WorkerPc → Option Metrics.Label
  | .remove => some (.queueDepthSet (.ofNat q.pop.count))
  | .busyUp _ => some (.workersBusyAdd 1)
  | .busyDown _ => some (.workersBusyAdd (-1))
  | .countClosed => some (.activeAdd (-1))
  | _ => none

/-- The atomic update of the registry in a step of the pool. -/
def Pool.update (s : Pool cfg) : Label cfg.numWorkers → Option Metrics.Label
  | .acceptor => s.acceptor.update s.queue
  | .worker i => (s.workers i).update s.queue
  | _ => none

/-- The pool with the registry that its threads update. -/
structure Monitored (cfg : Config) where
  pool : Pool cfg
  registry : Metrics.State

namespace Monitored

inductive Label (n : ℕ) where
  | pool (l : ThreadPool.Label n)
  | other (l : Metrics.Label)

/-- The updates of `metrics_request_observed`, and what the endpoint does. -/
def others : Metrics.Label → Bool
  | .bucketAdd _ | .sumAdd _ | .render | .load => true
  | _ => false

def step (m : Monitored cfg) : Label cfg.numWorkers → Option (Process (Monitored cfg))
  | .pool l =>
      (m.pool.step l).bind fun p =>
        (Metrics.registry.run m.registry (m.pool.update l).toList).map fun registry =>
          p.andThen fun s => .running ⟨s, registry⟩
  | .other l =>
      if others l then
        (m.registry.step l).map fun registry => .running { m with registry := registry }
      else none

/-- `main` calls `metrics_init` before it starts a thread. -/
def start (cfg : Config) (memory : ℕ → ℕ) (g : Registry) : Monitored cfg where
  pool := .start cfg memory
  registry := .start g (some (Text.ascii "threadpool"))

end Monitored

def monitored (cfg : Config) : Machine (Process (Monitored cfg)) (Monitored.Label cfg.numWorkers) :=
  Process.machine (fun m => ∃ memory g, m = .start cfg memory g) Monitored.step

/-! ## What the registry holds -/

/-- The registry holds the metrics of the pool, up to a wrap of the gauges. The
counters of the pool wrap themselves. -/
structure Wraps (m : Metrics) (g : Registry) : Prop where
  accepted : g.accepted.toNat = m.accepted
  refused : g.refused.toNat = m.refused
  active : g.active = .ofInt m.active
  workersBusy : g.workersBusy = .ofInt m.workersBusy
  queueDepth : g.queueDepth = .ofNat m.queueDepth

/-- The metrics behind a step, by the update of the registry in it. -/
inductive Updates (m : Metrics) : Option Metrics.Label → Metrics → Prop where
  | none : Updates m none m
  | accepted : Updates m (some .acceptedAdd) m.acceptedAdd
  | refused : Updates m (some .refusedAdd) m.refusedAdd
  | active (delta : Int64) : Updates m (some (.activeAdd delta)) (m.activeAdd delta.toInt)
  | workersBusy (delta : Int64) :
      Updates m (some (.workersBusyAdd delta)) (m.workersBusyAdd delta.toInt)
  | queueDepth (depth : ℕ) :
      Updates m (some (.queueDepthSet (.ofNat depth))) (m.queueDepthSet depth)

theorem updates_acceptorStep (hs : acceptorStep s = some (.running s')) :
    Updates s.metrics (s.acceptor.update s.queue) s'.metrics := by
  unfold acceptorStep at hs
  cases hpc : s.acceptor with
  | countRefused =>
      simp only [hpc] at hs
      cases hs
      exact .refused
  | countAccepted fd =>
      simp only [hpc] at hs
      cases hs
      exact .accepted
  | countActive fd =>
      simp only [hpc] at hs
      cases hs
      exact .active 1
  | insert fd =>
      simp only [hpc] at hs
      cases hs
      exact .queueDepth _
  | lock fd | woken fd =>
      simp only [hpc] at hs
      obtain ⟨-, hs⟩ := Option.ite_none_right_eq_some.mp hs
      cases hs
      exact .none
  | test fd =>
      simp only [hpc] at hs
      split at hs <;> cases hs <;> exact .none
  | loopTest | unlock =>
      simp only [hpc] at hs
      cases hs
      exact .none
  | accept | asleep | signal | stopping =>
      rw [hpc] at hs
      cases hs

theorem updates_workerStep {i : Fin cfg.numWorkers} (hs : workerStep s i = some (.running s')) :
    Updates s.metrics ((s.workers i).update s.queue) s'.metrics := by
  unfold workerStep at hs
  cases hpc : s.workers i with
  | remove =>
      simp only [hpc] at hs
      cases hs
      exact .queueDepth _
  | busyUp fd =>
      simp only [hpc] at hs
      cases hs
      exact .workersBusy 1
  | busyDown fd =>
      simp only [hpc] at hs
      cases hs
      exact .workersBusy (-1)
  | countClosed =>
      simp only [hpc] at hs
      cases hs
      exact .active (-1)
  | lock | woken =>
      simp only [hpc] at hs
      obtain ⟨-, hs⟩ := Option.ite_none_right_eq_some.mp hs
      cases hs
      exact .none
  | test =>
      simp only [hpc] at hs
      split at hs <;> cases hs <;> exact .none
  | unlock fd | signal fd | serving fd | close fd =>
      simp only [hpc] at hs
      cases hs
      exact .none
  | asleep =>
      rw [hpc] at hs
      cases hs

theorem updates_of_step {l : Label cfg.numWorkers} (hs : s.step l = some (.running s')) :
    Updates s.metrics (s.update l) s'.metrics := by
  cases l with
  | acceptor => exact updates_acceptorStep hs
  | worker i => exact updates_workerStep hs
  | stopSignal | wakeAcceptor =>
      cases hs
      exact .none
  | acceptReturns r =>
      obtain ⟨-, hs⟩ := Option.ite_none_right_eq_some.mp hs
      cases r with
      | ok fd =>
          obtain ⟨-, hs⟩ := Option.ite_none_right_eq_some.mp hs
          cases hs
          exact .none
      | error e =>
          simp only [acceptReturns, acceptFailed, Option.some.injEq] at hs
          split at hs
          · cases hs
            exact .none
          · split at hs <;> cases hs
            exact .none
  | signalNotEmpty sleeper =>
      cases sleeper with
      | none | some i =>
          obtain ⟨-, hs⟩ := Option.ite_none_right_eq_some.mp hs
          cases hs
          exact .none
  | wakeWorker i =>
      obtain ⟨-, hs⟩ := Option.ite_none_right_eq_some.mp hs
      cases hs
      exact .none

theorem Updates.exists_run {m m' : Metrics} {u : Option Metrics.Label} (h : Updates m u m')
    (st : Metrics.State) : ∃ st', Metrics.registry.run st u.toList = some st' := by
  cases h <;> exact ⟨_, rfl⟩

theorem Wraps.updates {m m' : Metrics} {u : Option Metrics.Label} {st st' : Metrics.State}
    (h : Wraps m st.g) (hu : Updates m u m')
    (hs : Metrics.registry.run st u.toList = some st') : Wraps m' st'.g := by
  cases hu with
  | none =>
      cases hs
      exact h
  | accepted =>
      cases hs
      refine ⟨?_, h.refused, h.active, h.workersBusy, h.queueDepth⟩
      change (st.g.accepted + 1).toNat = (m.accepted + 1) % 2 ^ 64
      rw [UInt64.toNat_add, h.accepted]
      rfl
  | refused =>
      cases hs
      refine ⟨h.accepted, ?_, h.active, h.workersBusy, h.queueDepth⟩
      change (st.g.refused + 1).toNat = (m.refused + 1) % 2 ^ 64
      rw [UInt64.toNat_add, h.refused]
      rfl
  | active delta =>
      cases hs
      refine ⟨h.accepted, h.refused, ?_, h.workersBusy, h.queueDepth⟩
      change st.g.active + delta = .ofInt (m.active + delta.toInt)
      rw [Int64.ofInt_add, Int64.ofInt_toInt, h.active]
  | workersBusy delta =>
      cases hs
      refine ⟨h.accepted, h.refused, h.active, ?_, h.queueDepth⟩
      change st.g.workersBusy + delta = .ofInt (m.workersBusy + delta.toInt)
      rw [Int64.ofInt_add, Int64.ofInt_toInt, h.workersBusy]
  | queueDepth depth =>
      cases hs
      exact ⟨h.accepted, h.refused, h.active, h.workersBusy, rfl⟩

theorem Wraps.other {m : Metrics} {l : Metrics.Label} {st st' : Metrics.State}
    (h : Wraps m st.g) (hl : Monitored.others l = true) (hs : st.step l = some st') :
    Wraps m st'.g := by
  cases l with
  | bucketAdd d =>
      cases hs
      exact ⟨h.accepted, h.refused, h.active, h.workersBusy, h.queueDepth⟩
  | sumAdd d =>
      obtain ⟨-, hs⟩ := Option.ite_none_right_eq_some.mp hs
      cases hs
      exact ⟨h.accepted, h.refused, h.active, h.workersBusy, h.queueDepth⟩
  | render =>
      simp only [Metrics.State.step] at hs
      split at hs <;> cases hs
      exact h
  | load =>
      simp only [Metrics.State.step] at hs
      split at hs
      · cases hs
      · split at hs
        · cases hs
        · split at hs <;> cases hs <;> exact h
  | acceptedAdd | refusedAdd | activeAdd | queueDepthSet | workersBusyAdd => cases hl

/-! ## Ranges -/

/-- The gauges are what the pool can have. -/
structure InRange (cfg : Config) (g : Registry) : Prop where
  active_nonneg : 0 ≤ g.active.toInt
  active_le : g.active.toInt ≤ cfg.queueDepth + cfg.numWorkers + 1
  workersBusy_nonneg : 0 ≤ g.workersBusy.toInt
  workersBusy_le : g.workersBusy.toInt ≤ cfg.numWorkers
  queueDepth_le : g.queueDepth.toNat ≤ cfg.queueDepth

/-- The registry shows the metrics of the pool. -/
structure Shows (m : Metrics) (g : Registry) : Prop where
  accepted : g.accepted.toNat = m.accepted
  refused : g.refused.toNat = m.refused
  active : g.active.toInt = m.active
  workersBusy : g.workersBusy.toInt = m.workersBusy
  queueDepth : g.queueDepth.toNat = m.queueDepth

/-- The gauges of a reachable pool are too small to wrap. -/
theorem Wraps.shows {g : Registry} (h : Wraps s.metrics g)
    (hcfg : cfg.queueDepth + cfg.numWorkers + 1 < 2 ^ 63)
    (hreach : (pool cfg).Reachable (.running s)) : Shows s.metrics g ∧ InRange cfg g := by
  obtain ⟨hlocked, closed, hgauges⟩ := reachable_gauges hreach
  obtain ⟨hnonneg, hle, hbusyNonneg, hbusyLe, -, hdepth⟩ := hgauges.bounds hlocked
  have hshows : Shows s.metrics g := by
    refine ⟨h.accepted, h.refused, ?_, ?_, ?_⟩
    · rw [h.active]
      exact Int64.toInt_ofInt_of_le (by omega) (by omega)
    · rw [h.workersBusy]
      exact Int64.toInt_ofInt_of_le (by omega) (by omega)
    · rw [h.queueDepth]
      exact UInt64.toNat_ofNat_of_lt' (by rw [UInt64.size]; omega)
  refine ⟨hshows, ?_, ?_, ?_, ?_, ?_⟩
  · exact hshows.active ▸ hnonneg
  · exact hshows.active ▸ hle
  · exact hshows.workersBusy ▸ hbusyNonneg
  · exact hshows.workersBusy ▸ hbusyLe
  · exact hshows.queueDepth ▸ hdepth

theorem inRange_unseen (cfg : Config) (g : Registry) : InRange cfg g.unseen where
  active_nonneg := le_refl 0
  active_le := by
    change (0 : ℤ) ≤ _
    omega
  workersBusy_nonneg := le_refl 0
  workersBusy_le := Int.natCast_nonneg _
  queueDepth_le := Nat.zero_le _

theorem InRange.copy {g seen : Registry} (h : InRange cfg seen) (hg : InRange cfg g) (l : Load) :
    InRange cfg (l.copy g seen) := by
  cases l with
  | active =>
      exact ⟨hg.active_nonneg, hg.active_le, h.workersBusy_nonneg, h.workersBusy_le,
        h.queueDepth_le⟩
  | queueDepth =>
      exact ⟨h.active_nonneg, h.active_le, h.workersBusy_nonneg, h.workersBusy_le,
        hg.queueDepth_le⟩
  | workersBusy =>
      exact ⟨h.active_nonneg, h.active_le, hg.workersBusy_nonneg, hg.workersBusy_le,
        h.queueDepth_le⟩
  | accepted | refused | latencyCount | latencySumNs =>
      exact ⟨h.active_nonneg, h.active_le, h.workersBusy_nonneg, h.workersBusy_le,
        h.queueDepth_le⟩

/-- What renders have seen, the one under way included. -/
structure Rendered (cfg : Config) (st : Metrics.State) : Prop where
  scrape : ∀ r n, st.scrape = some (r, n) → InRange cfg r.seen
  renders : ∀ r ∈ st.renders, InRange cfg r.seen

theorem Rendered.step {st st' : Metrics.State} {l : Metrics.Label} (h : Rendered cfg st)
    (hg : InRange cfg st.g) (hs : st.step l = some st') : Rendered cfg st' := by
  cases l with
  | acceptedAdd | refusedAdd | activeAdd | queueDepthSet | workersBusyAdd | bucketAdd =>
      cases hs
      exact ⟨h.scrape, h.renders⟩
  | sumAdd d =>
      obtain ⟨-, hs⟩ := Option.ite_none_right_eq_some.mp hs
      cases hs
      exact ⟨h.scrape, h.renders⟩
  | render =>
      simp only [Metrics.State.step] at hs
      split at hs <;> cases hs
      refine ⟨?_, h.renders⟩
      rintro r n ⟨⟩
      exact inRange_unseen cfg st.g
  | load =>
      simp only [Metrics.State.step] at hs
      split at hs
      · cases hs
      · next r n hscrape =>
          split at hs
          · cases hs
          · next l _ =>
              have hseen : InRange cfg (l.copy st.g r.seen) := (h.scrape r n hscrape).copy hg l
              split at hs
              · cases hs
                refine ⟨?_, h.renders⟩
                rintro r' n' ⟨⟩
                exact hseen
              · cases hs
                refine ⟨by simp, ?_⟩
                intro r' hr'
                rcases List.mem_append.mp hr' with hr' | hr'
                · exact h.renders r' hr'
                · cases List.mem_singleton.mp hr'
                  exact hseen

theorem Rendered.run {st st' : Metrics.State} {u : Option Metrics.Label} (h : Rendered cfg st)
    (hg : InRange cfg st.g) (hs : Metrics.registry.run st u.toList = some st') :
    Rendered cfg st' := by
  cases u with
  | none =>
      cases hs
      exact h
  | some l =>
      obtain ⟨t, ht, hs⟩ := Option.bind_eq_some_iff.mp hs
      cases hs
      exact h.step hg ht

/-! ## Whole runs -/

structure Monitored.Sound (m : Monitored cfg) : Prop where
  reach : (ThreadPool.pool cfg).Reachable (.running m.pool)
  genuine : Metrics.registry.Reachable m.registry
  wraps : Wraps m.pool.metrics m.registry.g
  rendered : Rendered cfg m.registry

theorem Monitored.Sound.step (hcfg : cfg.queueDepth + cfg.numWorkers + 1 < 2 ^ 63)
    {m m' : Monitored cfg} {l : Monitored.Label cfg.numWorkers} (h : m.Sound)
    (hs : m.step l = some (.running m')) : m'.Sound := by
  have hrange := (h.wraps.shows hcfg h.reach).2
  cases l with
  | pool l =>
      obtain ⟨p, hp, hs⟩ := Option.bind_eq_some_iff.mp hs
      obtain ⟨st, hst, hs⟩ := Option.map_eq_some_iff.mp hs
      obtain ⟨s', rfl, hs⟩ := Process.andThen_eq_running hs
      cases hs
      exact ⟨h.reach.step l hp, h.genuine.run hst, h.wraps.updates (updates_of_step hp) hst,
        h.rendered.run hrange hst⟩
  | other l =>
      obtain ⟨hl, hs⟩ := Option.ite_none_right_eq_some.mp hs
      obtain ⟨st, hst, hs⟩ := Option.map_eq_some_iff.mp hs
      cases hs
      exact ⟨h.reach, h.genuine.step l hst, h.wraps.other hl hst, h.rendered.step hrange hst⟩

theorem Monitored.sound_start (cfg : Config) (memory : ℕ → ℕ) (g : Registry) :
    (Monitored.start cfg memory g).Sound where
  reach := .init ⟨_, rfl, memory, rfl⟩
  genuine := .init ⟨g, _, rfl⟩
  wraps := ⟨rfl, rfl, rfl, rfl, rfl⟩
  rendered := ⟨by simp [Monitored.start, Metrics.State.start], by
    simp [Monitored.start, Metrics.State.start]⟩

/-- In every interleaving of the threads, the observed durations and the loads of the
endpoint, the registry shows the metrics of the pool, and neither the registry nor any
text that was rendered shows a gauge outside of what the pool can have. The registry never
keeps a thread of the pool from its step. -/
theorem registry_shows_pool (hcfg : cfg.queueDepth + cfg.numWorkers + 1 < 2 ^ 63)
    {m : Monitored cfg} (h : (monitored cfg).Reachable (.running m)) :
    (pool cfg).Reachable (.running m.pool) ∧ Metrics.registry.Reachable m.registry ∧
      Shows m.pool.metrics m.registry.g ∧ InRange cfg m.registry.g ∧
      (∀ r ∈ m.registry.renders, InRange cfg r.seen) ∧
      ∀ l s', m.pool.step l = some (.running s') →
        ∃ m', m.step (.pool l) = some (.running m') ∧ m'.pool = s' := by
  have hsound : m.Sound := by
    refine Process.machine_invariant (P := Monitored.Sound) ?_ ?_ h
    · rintro _ ⟨memory, g, rfl⟩
      exact Monitored.sound_start cfg memory g
    · intro m l m' hm hs
      exact hm.step hcfg hs
  obtain ⟨hshows, hrange⟩ := hsound.wraps.shows hcfg hsound.reach
  refine ⟨hsound.reach, hsound.genuine, hshows, hrange, hsound.rendered.renders, ?_⟩
  intro l s' hs
  obtain ⟨st, hst⟩ := (updates_of_step hs).exists_run m.registry
  refine ⟨⟨s', st⟩, ?_, rfl⟩
  simp only [Monitored.step, hs, hst, Option.bind_some, Option.map_some, Process.andThen]

/-- A connection is counted, and a render comes between the two updates. -/
def scrapeBetween : List (Monitored.Label smallConfig.numWorkers) :=
  [.pool .acceptor, .pool (.acceptReturns (.ok 5)), .pool .acceptor, .other .render] ++
    List.replicate 17 (.other .load) ++ [.pool .acceptor]

/-- The text shows one accepted connection and none that is active. -/
theorem registry_shows_pool_scrapeBetween :
    ∃ m, (monitored smallConfig).run (.running (.start smallConfig (fun _ => 0)
        ⟨.replicate _ 0, 0, 0, 0, 0, 0, fun _ => 0, 0⟩)) scrapeBetween = some (.running m) ∧
      m.registry.renders.map (fun r => (r.seen.accepted, r.seen.active)) = [(1, 0)] ∧
      m.pool.metrics.active = 1 ∧ m.registry.g.active.toInt = m.pool.metrics.active := by
  obtain ⟨m, hrun, hrenders, hactive⟩ : ∃ m, (monitored smallConfig).run
      (.running (.start smallConfig (fun _ => 0) ⟨.replicate _ 0, 0, 0, 0, 0, 0, fun _ => 0, 0⟩))
      scrapeBetween = some (.running m) ∧
      m.registry.renders.map (fun r => (r.seen.accepted, r.seen.active)) = [(1, 0)] ∧
      m.pool.metrics.active = 1 := ⟨_, rfl, rfl, rfl⟩
  have hreach := Machine.reachable_of_run (M := monitored smallConfig) scrapeBetween
    ⟨_, rfl, _, _, rfl⟩ hrun
  exact ⟨m, hrun, hrenders, hactive, (registry_shows_pool (by decide) hreach).2.2.1.active⟩

end ConcurrentServers.ThreadPool

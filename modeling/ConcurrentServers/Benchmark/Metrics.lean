import ConcurrentServers.Benchmark.Progress
import ConcurrentServers.Exchange.Counts
import ConcurrentServers.ThreadPool.Counters
import Mathlib.Combinatorics.Enumerative.DoubleCounting

/-!
# What the metrics of the server say about a benchmark

The load generator and the server count on their own. At every moment the clients have
got no more echoes than the server has counted requests, up to the workers that are busy,
and behind a benchmark the counters of the server agree with the command line.
-/

namespace ConcurrentServers.Benchmark

open Systems
open Loadgen (Args)
open ThreadPool (Config busyWorkers)
open Exchange (exchange)

variable {args : Args} {cfg : Config} {net : Network} {b : Bench args cfg}

theorem serves_iff {w : Fin cfg.numWorkers} {i : Fin args.connections} :
    b.serves w i = true ↔ ∃ fd c, b.server.pool.workers w = .serving fd ∧
      b.server.pool.descriptors.owner fd = some c ∧ b.number i = some c := by
  unfold Bench.serves
  split
  · next fd hpc =>
      rw [Bool.and_eq_true, decide_eq_true_eq, Option.isSome_iff_exists]
      refine ⟨?_, ?_⟩
      · rintro ⟨⟨c, hc⟩, howner⟩
        exact ⟨fd, c, hpc, howner.trans hc, hc⟩
      · rintro ⟨fd', c, hpc', howner, hc⟩
        cases hpc.symm.trans hpc'
        exact ⟨⟨c, hc⟩, howner.trans hc.symm⟩
  · next hpc =>
      refine ⟨fun hfalse => absurd hfalse Bool.false_ne_true, ?_⟩
      rintro ⟨fd, c, hpc', -⟩
      exact absurd hpc' (hpc fd)

/-- A block that is being served is with a worker. -/
theorem Bench.Sound.exists_serves (h : b.Sound net) {i : Fin args.connections}
    (hserving : (b.session i).serving ≠ 0) : ∃ w, b.serves w i = true := by
  cases hnumber : b.number i with
  | none =>
      refine absurd ?_ hserving
      simp [Exchange.Session.serving, Bench.session, hnumber]
  | some c =>
      cases hcall : b.server.calls c with
      | none =>
          refine absurd ?_ hserving
          simp [Exchange.Session.serving, Bench.session, hnumber, hcall]
      | some v =>
          have hv : v.control.serving ≠ 0 := by
            simpa [Exchange.Session.serving, Bench.session, hnumber, hcall] using hserving
          have hresult : v.result = none := by
            unfold Protocol.Connection.result
            split
            · next hk =>
                rw [hk] at hv
                exact absurd rfl hv
            · rfl
          obtain ⟨w, fd, hpc, howner⟩ := ThreadPool.reachable_under_way h.server hcall hresult
          exact ⟨w, serves_iff.mpr ⟨fd, c, hpc, howner, hnumber⟩⟩

theorem Bench.Sound.serves_unique (h : b.Sound net) {i j : Fin args.connections}
    {w : Fin cfg.numWorkers} (hi : b.serves w i = true) (hj : b.serves w j = true) : i = j := by
  obtain ⟨fd, c, hpc, howner, hi⟩ := serves_iff.mp hi
  obtain ⟨fd', c', hpc', howner', hj⟩ := serves_iff.mp hj
  cases hpc.symm.trans hpc'
  cases howner.symm.trans howner'
  exact h.linked.inj hi hj

theorem serving_le_one (x : Exchange.Session) : x.serving ≤ 1 := by
  unfold Exchange.Session.serving
  cases x.server with
  | none => exact Nat.zero_le 1
  | some v => cases hk : v.control <;> simp [hk, Protocol.Control.serving]

theorem Bench.Sound.serving_le_busy (h : b.Sound net) :
    ∑ i, (b.session i).serving ≤ busyWorkers b.server.pool.workers := by
  calc ∑ i, (b.session i).serving
      ≤ ∑ i, if (b.session i).serving ≠ 0 then 1 else 0 := by
        refine Finset.sum_le_sum fun i _ => ?_
        have hone := serving_le_one (b.session i)
        split <;> omega
    _ = (Finset.univ.filter fun i => (b.session i).serving ≠ 0).card := by
        rw [Finset.card_filter]
    _ ≤ (Finset.univ.filter fun w => (b.server.pool.workers w).busy = true).card := by
        refine Finset.card_le_card_of_forall_subsingleton (fun i w => b.serves w i = true) ?_ ?_
        · intro i hi
          obtain ⟨w, hw⟩ := h.exists_serves (Finset.mem_filter.mp hi).2
          refine ⟨w, Finset.mem_filter.mpr ⟨Finset.mem_univ w, ?_⟩, hw⟩
          obtain ⟨fd, -, hpc, -⟩ := serves_iff.mp hw
          rw [hpc]
          rfl
        · rintro w - i ⟨-, hi⟩ j ⟨-, hj⟩
          exact h.serves_unique hi hj
    _ = busyWorkers b.server.pool.workers := by
        rw [busyWorkers, headcount_eq_card]

/-- The requests that the server has counted. -/
def Bench.observed (b : Bench args cfg) : ℕ := ∑ i, (b.session i).observed

theorem Bench.Sound.completed_le (h : b.Sound net) :
    (∑ i, (b.loadgen.conns i).completed : ℤ) ≤ b.observed + b.server.pool.metrics.workersBusy := by
  obtain ⟨-, closed, hgauges⟩ := ThreadPool.reachable_gauges h.pool
  have hsessions : ∑ i, (b.loadgen.conns i).completed ≤
      ∑ i, ((b.session i).observed + (b.session i).serving) :=
    Finset.sum_le_sum fun i _ => Exchange.completed_le_observed (h.sessions i)
  have hbusy := h.serving_le_busy
  rw [Finset.sum_add_distrib] at hsessions
  rw [hgauges.workersBusy, Bench.observed]
  exact_mod_cast hsessions.trans (Nat.add_le_add_left hbusy _)

theorem Bench.Sound.released (h : b.Sound net) {o : Loadgen.Outcome}
    (hmain : b.loadgen.main = .ended o) : b.loadgen.Released := by
  refine h.started.resolve_left ?_
  rintro ⟨spawned, -, -, hstarting | ⟨-, hstarting | hstarting⟩⟩ <;>
    cases hmain.symm.trans hstarting

/-- In every run of a benchmark the clients have got no more echoes than the server has
counted requests and has workers busy. When the benchmark is done, the server has counted
every connection, shows none as active, queued or with a worker, and has counted a request
for every message at least and for every byte at most. -/
theorem bench_metrics (h : (bench args cfg net).Reachable (.running b)) :
    (∑ i, (b.loadgen.conns i).completed : ℤ) ≤
        b.observed + b.server.pool.metrics.workersBusy ∧
      (b.Done → b.server.pool.metrics.accepted = args.connections ∧
        b.server.pool.metrics.active = 0 ∧ b.server.pool.metrics.workersBusy = 0 ∧
        b.server.pool.metrics.queueDepth = 0 ∧
        args.connections * args.messages ≤ b.observed ∧
        b.observed ≤ args.connections * (args.messages * (args.payloadBytes + 2))) := by
  obtain ⟨_, hb, hsound⟩ := reachable_sound h
  cases hb
  refine ⟨hsound.completed_le, fun hdone => ?_⟩
  have hreleased := hsound.released hdone.exited
  obtain ⟨haccepted, hgauges⟩ := ThreadPool.metrics_at_rest hsound.pool hdone.idle.1 hdone.idle.2
    hdone.open_none
  have hbounds : ∀ i, args.messages ≤ (b.session i).observed ∧
      (b.session i).observed ≤ args.messages * (args.payloadBytes + 2) := by
    intro i
    have hfinal := hsound.final hreleased hdone.wires.1 hdone.open_none i
    exact ((hsound.session i).completed hfinal).observed_bounds (hsound.sessions i)
  have hlt := args.connections_lt
  rw [hsound.fresh_eq hreleased hdone.wires.1, Nat.mod_eq_of_lt (by omega)] at haccepted
  refine ⟨haccepted, hgauges.1, hgauges.2.1, hgauges.2.2, ?_, ?_⟩
  · have hsum := Finset.card_nsmul_le_sum Finset.univ _ _ fun i _ => (hbounds i).1
    rwa [Finset.card_univ, Fintype.card_fin, smul_eq_mul] at hsum
  · have hsum := Finset.sum_le_card_nsmul Finset.univ _ _ fun i _ => (hbounds i).2
    rwa [Finset.card_univ, Fintype.card_fin, smul_eq_mul] at hsum

/-- Two clients that each send one message, against two workers. -/
theorem bench_metrics_twoConnections :
    ∃ b, (bench Loadgen.twoConnections ThreadPool.smallConfig oneEach).Reachable (.running b) ∧
      b.server.pool.metrics.accepted = 2 ∧ b.server.pool.metrics.active = 0 ∧ 2 ≤ b.observed := by
  have hsound := sound_start Loadgen.twoConnections ThreadPool.smallConfig oneEach fun _ => 0
  obtain ⟨ls, b, hrun, -, hquiet⟩ := hsound.exists_quiet
  have hreach := Machine.reachable_of_run (M := bench _ _ _) ls ⟨_, rfl, _, rfl⟩ hrun
  obtain ⟨_, hb, hsound⟩ := reachable_sound hreach
  cases hb
  have hfit : oneEach.toRooms.Fit Loadgen.twoConnections.toJob := ⟨by decide, by decide, by decide⟩
  have hdone := hsound.done hquiet hfit (by decide)
    (hsound.started.resolve_left (hsound.not_starting hquiet (by decide) (by decide)))
  obtain ⟨-, hmetrics⟩ := bench_metrics hreach
  obtain ⟨haccepted, hactive, -, -, hobserved, -⟩ := hmetrics hdone
  exact ⟨b, hreach, haccepted, hactive, hobserved⟩

end ConcurrentServers.Benchmark

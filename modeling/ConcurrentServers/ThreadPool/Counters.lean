import ConcurrentServers.ThreadPool.Gauges
import ConcurrentServers.ThreadPool.Progress

/-!
# The metrics of a pool at rest

The accepted connections are counted one step behind `accept`. When no connection is left
and all threads wait, the counter says how many there were and every gauge is zero.
-/

namespace ConcurrentServers.ThreadPool

open Systems

variable {cfg : Config} {s s' : Pool cfg}

/-- The connection that `accept` has returned and the counter has not seen. -/
def AcceptorPc.uncounted : AcceptorPc → ℕ
  | .countAccepted _ => 1
  | _ => 0

theorem AcceptorPc.uncounted_wake (pc : AcceptorPc) : pc.wake.uncounted = pc.uncounted := by
  cases pc <;> rfl

def Pool.Counted (s : Pool cfg) : Prop :=
  (s.metrics.accepted + s.acceptor.uncounted) % 2 ^ 64 = s.descriptors.fresh % 2 ^ 64

/-- A step behind which the same connections are counted. -/
theorem Pool.Counted.of_eq (h : s.Counted) (haccepted : s'.metrics.accepted = s.metrics.accepted)
    (huncounted : s'.acceptor.uncounted = s.acceptor.uncounted)
    (hfresh : s'.descriptors.fresh = s.descriptors.fresh) : s'.Counted := by
  unfold Pool.Counted
  rw [haccepted, huncounted, hfresh]
  exact h

theorem Pool.Counted.acceptorStep (h : s.Counted) (hs : acceptorStep s = some (.running s')) :
    s'.Counted := by
  unfold Pool.Counted at h
  unfold ThreadPool.acceptorStep at hs
  cases hpc : s.acceptor with
  | countAccepted fd =>
      simp only [hpc] at hs
      cases hs
      rw [hpc] at h
      change ((s.metrics.accepted + 1) % 2 ^ 64 + 0) % 2 ^ 64 = _
      rw [Nat.add_zero, Nat.mod_mod]
      exact h
  | loopTest =>
      simp only [hpc] at hs
      cases hs
      rw [hpc] at h
      cases hstop : s.stopRequested <;> simpa [Pool.Counted, AcceptorPc.uncounted, hstop] using h
  | lock fd | woken fd =>
      simp only [hpc] at hs
      obtain ⟨-, hs⟩ := Option.ite_none_right_eq_some.mp hs
      cases hs
      rw [hpc] at h
      exact h
  | test fd =>
      simp only [hpc] at hs
      rw [hpc] at h
      split at hs <;> cases hs <;> exact h
  | countRefused | countActive fd | insert fd | unlock =>
      simp only [hpc] at hs
      cases hs
      rw [hpc] at h
      exact h
  | accept | asleep | signal | stopping =>
      rw [hpc] at hs
      cases hs

theorem workerStep_accepted {i : Fin cfg.numWorkers} (hs : workerStep s i = some (.running s')) :
    s'.metrics.accepted = s.metrics.accepted ∧ s'.acceptor.uncounted = s.acceptor.uncounted := by
  unfold workerStep at hs
  split at hs <;> try split at hs
  all_goals
    cases hs
    try exact ⟨rfl, rfl⟩
  exact ⟨rfl, s.acceptor.uncounted_wake⟩

theorem Pool.Counted.step (h : s.Counted) {l : Label cfg.numWorkers}
    (hs : s.step l = some (.running s')) : s'.Counted := by
  by_cases haccepts : ∃ fd, l = .acceptReturns (.ok fd)
  · obtain ⟨fd, rfl⟩ := haccepts
    obtain ⟨hpc, hs⟩ := Option.ite_none_right_eq_some.mp hs
    obtain ⟨-, hs⟩ := Option.ite_none_right_eq_some.mp hs
    cases hs
    unfold Pool.Counted at h
    rw [hpc] at h
    change (s.metrics.accepted + 1) % 2 ^ 64 = (s.descriptors.fresh + 1) % 2 ^ 64
    exact Nat.ModEq.add_right 1 h
  · have hfresh := fresh_step (fun fd hfd => haccepts ⟨fd, hfd⟩) hs
    cases l with
    | stopSignal =>
        cases hs
        exact h
    | acceptReturns r =>
        obtain ⟨hpc, hs⟩ := Option.ite_none_right_eq_some.mp hs
        cases r with
        | ok fd => exact absurd ⟨fd, rfl⟩ haccepts
        | error e =>
            simp only [acceptReturns, acceptFailed, Option.some.injEq] at hs
            split at hs
            · cases hs
              exact h.of_eq rfl (by rw [hpc]; rfl) rfl
            · split at hs
              · cases hs
                exact h.of_eq rfl (by rw [hpc]; rfl) rfl
              · cases hs
    | acceptor => exact h.acceptorStep hs
    | signalNotEmpty sleeper =>
        cases sleeper with
        | none | some i =>
            obtain ⟨⟨hpc, -⟩, hs⟩ := Option.ite_none_right_eq_some.mp hs
            cases hs
            exact h.of_eq rfl (by rw [hpc]; rfl) rfl
    | wakeAcceptor =>
        cases hs
        exact h.of_eq rfl s.acceptor.uncounted_wake rfl
    | worker i =>
        obtain ⟨haccepted, huncounted⟩ := workerStep_accepted hs
        exact h.of_eq haccepted huncounted hfresh
    | wakeWorker i =>
        obtain ⟨-, hs⟩ := Option.ite_none_right_eq_some.mp hs
        cases hs
        exact h

theorem reachable_counted (h : (pool cfg).Reachable (.running s)) : s.Counted := by
  refine Process.machine_invariant (P := Pool.Counted) ?_ ?_ h
  · rintro _ ⟨memory, rfl⟩
    rfl
  · intro s l s' hcounted hs
    exact hcounted.step hs

theorem reachable_gauges (h : (pool cfg).Reachable (.running s)) :
    Locked s.acceptor s.workers s.holder s.queue ∧ ∃ closed, s.Gauges closed := by
  refine Process.machine_invariant (P := fun s : Pool cfg =>
    Locked s.acceptor s.workers s.holder s.queue ∧ ∃ closed, s.Gauges closed) ?_ ?_ h
  · rintro _ ⟨memory, rfl⟩
    exact ⟨locked_start cfg memory, 0, gauges_start cfg memory⟩
  · rintro s l s' ⟨hlocked, closed, hgauges⟩ hs
    exact ⟨hlocked.moves (moves_of_step hs), _, hgauges.step hlocked hs⟩

theorem queue_empty (h : (pool cfg).Reachable (.running s))
    (hopen : ∀ fd, s.descriptors.owner fd = none) : s.queue.count = 0 := by
  by_contra hcount
  have hhandoff := (reachable_handoff h).2
  have hlength : s.queue.contents.length = s.queue.count := Ring.length_contents _ _ _ _
  obtain ⟨fd, hfd⟩ := List.exists_mem_of_length_pos (by omega : 0 < s.queue.contents.length)
  have hlive := (hhandoff.live_iff fd).mp
    (Multiset.mem_add.mpr (Or.inl (Multiset.mem_add.mpr (Or.inr hfd))))
  exact hlive (hopen fd)

/-- The metrics when the acceptor and all workers wait and no connection is open. -/
theorem metrics_at_rest (h : (pool cfg).Reachable (.running s)) (hpc : s.acceptor = .accept)
    (hasleep : ∀ i, s.workers i = .asleep) (hopen : ∀ fd, s.descriptors.owner fd = none) :
    s.metrics.accepted = s.descriptors.fresh % 2 ^ 64 ∧ s.metrics.active = 0 ∧
      s.metrics.workersBusy = 0 ∧ s.metrics.queueDepth = 0 := by
  have hcount := queue_empty h hopen
  have hcounted := reachable_counted h
  obtain ⟨-, closed, hgauges⟩ := reachable_gauges h
  have hengaged : engagedWorkers s.workers = 0 :=
    headcount_eq_zero fun i => by rw [hasleep i]; exact Bool.false_ne_true
  have hbusy : busyWorkers s.workers = 0 :=
    headcount_eq_zero fun i => by rw [hasleep i]; exact Bool.false_ne_true
  obtain ⟨hactive, hworkers, hdepth, haccepted⟩ := hgauges
  rw [hpc, hcount, hengaged] at hactive
  rw [hbusy] at hworkers
  rw [hcount] at hdepth
  unfold Pool.Counted at hcounted
  rw [hpc] at hcounted
  change (s.metrics.accepted + 0) % 2 ^ 64 = _ at hcounted
  refine ⟨?_, hactive, hworkers, hdepth⟩
  omega

end ConcurrentServers.ThreadPool

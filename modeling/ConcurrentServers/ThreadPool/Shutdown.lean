import ConcurrentServers.ThreadPool.Fifo

/-!
# How much the thread pool holds, and what is left when it stops

The acceptor stops taking connections while the ring is full, so the number of
connections that are open has a bound that does not depend on the peers. A request
to stop is seen at the head of the loop of `main`. A call of `accept` that is under
way still gets its connection, and it is the last one.
-/

namespace ConcurrentServers.ThreadPool

open Systems

variable {cfg : Config} {s s' : Pool cfg}

/-! ## The number of open connections -/

theorem card_load_le (pc : WorkerPc) : Multiset.card pc.load ≤ 1 := by
  unfold WorkerPc.load
  cases pc.held <;> simp

theorem card_tally_load_le (ws : Fin cfg.numWorkers → WorkerPc) :
    Multiset.card (tally WorkerPc.load ws) ≤ cfg.numWorkers := by
  calc
    Multiset.card (tally WorkerPc.load ws) = ∑ i, Multiset.card (ws i).load := by
      rw [tally, Multiset.card_sum]
    _ ≤ ∑ _i : Fin cfg.numWorkers, 1 := Finset.sum_le_sum fun i _ => card_load_le (ws i)
    _ = cfg.numWorkers := by simp

theorem Pool.Handoff.card_le (h : s.Handoff)
    (hlocked : Locked s.acceptor s.workers s.holder s.queue) {fds : Finset ℕ}
    (hopen : ∀ fd ∈ fds, s.descriptors.owner fd ≠ none) :
    fds.card ≤ s.acceptor.hand.toList.length + cfg.queueDepth + cfg.numWorkers := by
  have hle : fds.val ≤ s.acceptor.hand.toList + s.queue.contents +
      tally WorkerPc.load s.workers :=
    (Multiset.le_iff_subset fds.nodup).mpr fun fd hfd => (h.live_iff fd).mpr (hopen fd hfd)
  have hcard := Multiset.card_le_card hle
  have hqueued : s.queue.contents.length ≤ cfg.queueDepth := by
    rw [FdQueue.contents, Ring.length_contents, ← hlocked.capacity]
    exact hlocked.valid.count_le
  have hheld := card_tally_load_le s.workers
  rw [Multiset.card_add, Multiset.card_add, Multiset.coe_card, Multiset.coe_card] at hcard
  have hfds : fds.card = Multiset.card fds.val := rfl
  omega

theorem AcceptorPc.length_hand_le (pc : AcceptorPc) : pc.hand.toList.length ≤ 1 := by
  cases pc.hand <;> simp

/-- Whatever the peers do, no more connections are open at a time than the ring, the
workers and the hand of the acceptor have place for. -/
theorem pool_bounded (h : (pool cfg).Reachable (.running s)) {fds : Finset ℕ}
    (hopen : ∀ fd ∈ fds, s.descriptors.owner fd ≠ none) :
    fds.card ≤ cfg.queueDepth + cfg.numWorkers + 1 := by
  obtain ⟨hlocked, hhandoff⟩ := reachable_handoff h
  have hcard := hhandoff.card_le hlocked hopen
  have hhand := s.acceptor.length_hand_le
  omega

/-- Two workers, one slot, and three connections that are open. -/
theorem pool_bounded_threeConnections :
    ∃ s, (pool smallConfig).run (.running (.start smallConfig fun _ => 0)) threeConnections =
        some (.running s) ∧
      ∀ fds : Finset ℕ, (∀ fd ∈ fds, s.descriptors.owner fd ≠ none) → fds.card ≤ 1 + 2 + 1 := by
  refine ⟨_, rfl, ?_⟩
  intro fds hopen
  exact pool_bounded (reachable_of_labels smallConfig (fun _ => 0) threeConnections rfl) hopen

/-! ## Stopping -/

/-- The acceptor has a call of `accept` under way. -/
def AcceptorPc.accepting : AcceptorPc → ℕ
  | .accept => 1
  | _ => 0

theorem AcceptorPc.accepting_wake (pc : AcceptorPc) : pc.wake.accepting = pc.accepting := by
  cases pc <;> rfl

/-- The connections that were accepted, with the one that `accept` may still return. -/
def Pool.arrivals (s : Pool cfg) : ℕ := s.accepted.length + s.acceptor.accepting

theorem arrivals_acceptReturns {r : SysResult ℕ} (hpc : s.acceptor = .accept)
    (hs : acceptReturns r s = some (.running s')) :
    s'.stopRequested = s.stopRequested ∧ s'.arrivals ≤ s.arrivals := by
  unfold acceptReturns at hs
  cases r with
  | error e =>
      have hs := Option.some.inj hs
      unfold acceptFailed at hs
      split at hs
      · cases hs
        exact ⟨rfl, Nat.le_add_right _ _⟩
      · split at hs
        · cases hs
          exact ⟨rfl, Nat.le_add_right _ _⟩
        · cases hs
  | ok fd =>
      obtain ⟨-, hs⟩ := Option.ite_none_right_eq_some.mp hs
      cases hs
      refine ⟨rfl, ?_⟩
      unfold Pool.arrivals
      rw [hpc, List.length_append]
      exact le_rfl

theorem arrivals_acceptorStep (hstop : s.stopRequested = true)
    (hs : acceptorStep s = some (.running s')) :
    s'.stopRequested = true ∧ s'.arrivals ≤ s.arrivals := by
  unfold acceptorStep at hs
  split at hs
  case h_1 hpc =>
    -- The head of the loop, which now leads out of it.
    cases hs
    refine ⟨hstop, ?_⟩
    simp only [Pool.arrivals, hstop]
    exact Nat.le_add_right _ _
  all_goals try split at hs
  all_goals cases hs
  all_goals exact ⟨hstop, Nat.le_add_right _ _⟩

theorem arrivals_workerStep {i : Fin cfg.numWorkers}
    (hs : workerStep s i = some (.running s')) :
    s'.stopRequested = s.stopRequested ∧ s'.arrivals = s.arrivals := by
  unfold workerStep at hs
  split at hs
  case h_6 =>
    cases hs
    exact ⟨rfl, congrArg (_ + ·) s.acceptor.accepting_wake⟩
  all_goals try split at hs
  all_goals cases hs
  all_goals exact ⟨rfl, rfl⟩

/-- Once a stop has been requested, nothing brings the acceptor back to `accept`. -/
theorem arrivals_step {l : Label cfg.numWorkers} (hstop : s.stopRequested = true)
    (hs : s.step l = some (.running s')) :
    s'.stopRequested = true ∧ s'.arrivals ≤ s.arrivals := by
  cases l with
  | stopSignal =>
      cases hs
      exact ⟨rfl, le_rfl⟩
  | acceptReturns r =>
      obtain ⟨hpc, hs⟩ := Option.ite_none_right_eq_some.mp hs
      obtain ⟨hsame, hle⟩ := arrivals_acceptReturns hpc hs
      exact ⟨hsame.trans hstop, hle⟩
  | acceptor => exact arrivals_acceptorStep hstop hs
  | signalNotEmpty sleeper =>
      cases sleeper with
      | none =>
          obtain ⟨-, hs⟩ := Option.ite_none_right_eq_some.mp hs
          cases hs
          exact ⟨hstop, Nat.le_add_right _ _⟩
      | some i =>
          obtain ⟨-, hs⟩ := Option.ite_none_right_eq_some.mp hs
          cases hs
          exact ⟨hstop, Nat.le_add_right _ _⟩
  | wakeAcceptor =>
      cases hs
      exact ⟨hstop, (congrArg (_ + ·) s.acceptor.accepting_wake).le⟩
  | worker i =>
      obtain ⟨hsame, heq⟩ := arrivals_workerStep hs
      exact ⟨hsame.trans hstop, heq.le⟩
  | wakeWorker i =>
      obtain ⟨-, hs⟩ := Option.ite_none_right_eq_some.mp hs
      cases hs
      exact ⟨hstop, le_rfl⟩

theorem arrivals_run {as : List (Label cfg.numWorkers)} (hstop : s.stopRequested = true)
    (hrun : (pool cfg).run (.running s) as = some (.running s')) : s'.arrivals ≤ s.arrivals := by
  have hall : (Process.running s').All
      fun t => t.stopRequested = true ∧ t.arrivals ≤ s.arrivals := by
    refine Machine.run_invariant (M := pool cfg) (P := Process.All
      fun t => t.stopRequested = true ∧ t.arrivals ≤ s.arrivals) ?_ ?_ hrun
    · intro p l q hp hs
      cases p with
      | exited => cases hs
      | running t =>
          cases q with
          | exited => trivial
          | running u =>
              obtain ⟨hstop', hle⟩ := arrivals_step hp.1 hs
              exact ⟨hstop', hle.trans hp.2⟩
    · exact ⟨hstop, le_rfl⟩
  exact hall.2

/-- After a request to stop one more connection can be accepted. When the acceptor
leaves its loop, the connections that are dropped with the process are in the ring or
with a worker. -/
theorem pool_stop (h : (pool cfg).Reachable (.running s)) (hstop : s.stopRequested = true)
    (as : List (Label cfg.numWorkers))
    (hrun : (pool cfg).run (.running s) as = some (.running s')) :
    s'.accepted.length ≤ s.accepted.length + 1 ∧
      (s'.acceptor = .stopping →
        s'.accepted = s'.popped.map Prod.snd ++ s'.queue.contents ∧
        ∀ fds : Finset ℕ, (∀ fd ∈ fds, s'.descriptors.owner fd ≠ none) →
          fds.card ≤ cfg.queueDepth + cfg.numWorkers) := by
  have harrivals := arrivals_run hstop hrun
  have haccepting : s.acceptor.accepting ≤ 1 := by
    cases s.acceptor <;> simp [AcceptorPc.accepting]
  obtain ⟨hlocked, hhandoff⟩ := reachable_handoff (h.run hrun)
  refine ⟨?_, ?_⟩
  · unfold Pool.arrivals at harrivals
    omega
  · intro hstopping
    have hhand : s'.acceptor.hand = none := congrArg AcceptorPc.hand hstopping
    refine ⟨?_, ?_⟩
    · have horder := hhandoff.order
      rw [hhand, Option.toList_none, List.append_nil] at horder
      rw [← horder, hhandoff.fifo]
    · intro fds hopen
      have hcard := hhandoff.card_le hlocked hopen
      rw [hhand] at hcard
      simpa using hcard

/-- The request comes when the acceptor is already inside `accept`. -/
def stopInAccept : List (Label smallConfig.numWorkers) := [.acceptor, .stopSignal]

def lastConnection : List (Label smallConfig.numWorkers) :=
  [.acceptReturns (.ok 5), .acceptor, .acceptor, .acceptor, .acceptor, .acceptor, .acceptor,
    .signalNotEmpty none, .acceptor]

theorem pool_stop_lastConnection :
    ∃ s s', (pool smallConfig).run (.running (.start smallConfig fun _ => 0)) stopInAccept =
        some (.running s) ∧
      (pool smallConfig).run (.running s) lastConnection = some (.running s') ∧
      s.accepted = [] ∧ s'.accepted = [5] ∧ s'.acceptor = .stopping ∧
      s'.accepted = s'.popped.map Prod.snd ++ s'.queue.contents := by
  refine ⟨_, _, rfl, rfl, rfl, rfl, rfl, ?_⟩
  have hreach := reachable_of_labels smallConfig (fun _ => 0) stopInAccept rfl
  exact ((pool_stop hreach rfl lastConnection rfl).2 rfl).1

end ConcurrentServers.ThreadPool

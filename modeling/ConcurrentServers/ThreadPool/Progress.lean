import ConcurrentServers.ThreadPool.Wakeup
import ConcurrentServers.ThreadPool.Serving
import ConcurrentServers.ThreadPool.Shutdown

/-!
# The work of the threads, and when all of them wait

Every step of a thread uses up some of a rank. A signal pays for the steps of the
thread that it wakes, and a connection for its way through the ring and a worker.
When no thread can make a step, the mutex is free, every worker is asleep or inside
`serve_connection`, and the acceptor is in `accept` or asleep.
-/

namespace ConcurrentServers.ThreadPool

open Systems

variable {cfg : Config} {s s' : Pool cfg}

/-! ## The rank of a state -/

def AcceptorPc.rank : AcceptorPc → ℕ
  | .accept | .stopping => 0
  | .loopTest => 1
  | .countRefused => 2
  | .signal => 4
  | .unlock => 5
  | .insert _ | .asleep _ => 18
  | .test _ => 19
  | .lock _ | .woken _ => 20
  | .countActive _ => 21
  | .countAccepted _ => 22

def WorkerPc.rank : WorkerPc → ℕ
  | .asleep | .remove => 0
  | .test => 1
  | .lock | .woken => 2
  | .countClosed => 3
  | .close _ => 4
  | .busyDown _ => 5
  | .serving _ => 6
  | .busyUp _ => 7
  | .signal _ => 10
  | .unlock _ => 11

/-- A connection in the ring has twelve steps of a worker ahead. -/
def Pool.rank (s : Pool cfg) : ℕ :=
  s.acceptor.rank + tally WorkerPc.rank s.workers + 12 * s.queue.count

/-- What a label pays for the steps that it causes. A thread that is woken for no reason
and a failed `accept` cost little, a connection more. -/
def Label.credit {n : ℕ} : Label n → ℕ
  | .acceptReturns (.ok _) => 23
  | .acceptReturns (.error _) | .wakeAcceptor | .wakeWorker _ => 3
  | .stopSignal => 1
  | _ => 0

theorem AcceptorPc.rank_wake_le (pc : AcceptorPc) : pc.wake.rank ≤ pc.rank + 2 := by
  cases pc <;> simp [wake, rank]

theorem rank_setWorker (s : Pool cfg) (i : Fin cfg.numWorkers) (pc : WorkerPc) :
    (s.setWorker i pc).rank + (s.workers i).rank = s.rank + pc.rank := by
  have htally := tally_update WorkerPc.rank s.workers i pc
  simp only [Pool.rank, Pool.setWorker]
  omega

theorem rank_acceptReturns {r : SysResult ℕ} (hpc : s.acceptor = .accept)
    (hs : acceptReturns r s = some (.running s')) :
    s'.rank + 1 ≤ s.rank + (Label.acceptReturns r : Label cfg.numWorkers).credit := by
  cases r with
  | ok fd =>
      obtain ⟨-, hs⟩ := Option.ite_none_right_eq_some.mp hs
      cases hs
      simp only [Pool.rank, hpc, AcceptorPc.rank, Label.credit]
      omega
  | error e =>
      simp only [acceptReturns, acceptFailed, Option.some.injEq] at hs
      split at hs
      · cases hs
        simp only [Pool.rank, hpc, AcceptorPc.rank, Label.credit]
        omega
      · split at hs
        · cases hs
          simp only [Pool.rank, hpc, AcceptorPc.rank, Label.credit]
          omega
        · cases hs

theorem rank_acceptorStep (hs : acceptorStep s = some (.running s')) : s'.rank + 1 ≤ s.rank := by
  unfold acceptorStep at hs
  cases hpc : s.acceptor with
  | accept | asleep | signal | stopping =>
      rw [hpc] at hs
      cases hs
  | loopTest =>
      simp only [hpc] at hs
      cases hs
      simp only [Pool.rank, hpc]
      split <;> simp only [AcceptorPc.rank] <;> omega
  | countRefused | countAccepted | countActive | unlock =>
      simp only [hpc] at hs
      cases hs
      simp only [Pool.rank, hpc, AcceptorPc.rank]
      omega
  | lock fd | woken fd =>
      simp only [hpc] at hs
      obtain ⟨-, hs⟩ := Option.ite_none_right_eq_some.mp hs
      cases hs
      simp only [Pool.rank, hpc, AcceptorPc.rank]
      omega
  | test fd =>
      simp only [hpc] at hs
      split at hs <;> cases hs <;> simp only [Pool.rank, hpc, AcceptorPc.rank] <;> omega
  | insert fd =>
      simp only [hpc] at hs
      cases hs
      simp only [Pool.rank, hpc, AcceptorPc.rank, FdQueue.push]
      omega

/-- A worker that goes on in its loop, with nothing else in the rank changed. -/
theorem rank_worker_lt {u : Pool cfg} {i : Fin cfg.numWorkers} {pc pc' : WorkerPc}
    (hu : u.rank = s.rank) (hworkers : u.workers = s.workers) (hpc : s.workers i = pc)
    (hlt : pc'.rank < pc.rank) : (u.setWorker i pc').rank + 1 ≤ s.rank := by
  have hrank := rank_setWorker u i pc'
  rw [hworkers, hpc, hu] at hrank
  omega

theorem rank_workerStep {i : Fin cfg.numWorkers}
    (hlocked : Locked s.acceptor s.workers s.holder s.queue)
    (hs : workerStep s i = some (.running s')) : s'.rank + 1 ≤ s.rank := by
  unfold workerStep at hs
  cases hpc : s.workers i with
  | asleep =>
      rw [hpc] at hs
      cases hs
  | lock | woken =>
      simp only [hpc] at hs
      obtain ⟨-, hs⟩ := Option.ite_none_right_eq_some.mp hs
      cases hs
      exact rank_worker_lt rfl rfl hpc Nat.one_lt_two
  | test =>
      simp only [hpc] at hs
      split at hs
      · cases hs
        exact rank_worker_lt rfl rfl hpc Nat.one_pos
      · cases hs
        exact rank_worker_lt rfl rfl hpc Nat.one_pos
  | remove =>
      simp only [hpc] at hs
      cases hs
      have hitem := hlocked.item i hpc
      have htally := tally_update WorkerPc.rank s.workers i (.unlock s.queue.front)
      simp only [hpc, WorkerPc.rank] at htally
      simp only [Pool.rank, Pool.setWorker, FdQueue.pop]
      omega
  | signal fd =>
      simp only [hpc] at hs
      cases hs
      have hrank := rank_setWorker { s with acceptor := s.acceptor.wake } i (.busyUp fd)
      have hwake := s.acceptor.rank_wake_le
      simp only [hpc, WorkerPc.rank, Pool.rank] at hrank ⊢
      omega
  | unlock fd | busyUp fd | serving fd | busyDown fd | close fd | countClosed =>
      simp only [hpc] at hs
      cases hs
      exact rank_worker_lt rfl rfl hpc (by simp [WorkerPc.rank])

/-- Every step lowers the rank, up to what its label pays. -/
theorem rank_step {l : Label cfg.numWorkers}
    (hlocked : Locked s.acceptor s.workers s.holder s.queue)
    (hs : s.step l = some (.running s')) : s'.rank + 1 ≤ s.rank + l.credit := by
  cases l with
  | stopSignal =>
      cases hs
      exact le_rfl
  | acceptReturns r =>
      obtain ⟨hpc, hs⟩ := Option.ite_none_right_eq_some.mp hs
      exact rank_acceptReturns hpc hs
  | acceptor => exact rank_acceptorStep hs
  | signalNotEmpty sleeper =>
      cases sleeper with
      | none =>
          obtain ⟨⟨hpc, -⟩, hs⟩ := Option.ite_none_right_eq_some.mp hs
          cases hs
          simp only [Pool.rank, hpc, AcceptorPc.rank, Label.credit]
          omega
      | some i =>
          obtain ⟨⟨hpc, hasleep⟩, hs⟩ := Option.ite_none_right_eq_some.mp hs
          cases hs
          have hrank := rank_setWorker { s with acceptor := .loopTest } i .woken
          simp only [hasleep, WorkerPc.rank, Pool.rank, AcceptorPc.rank] at hrank
          simp only [Pool.rank, hpc, AcceptorPc.rank, Label.credit] at hrank ⊢
          omega
  | wakeAcceptor =>
      cases hs
      have hwake := s.acceptor.rank_wake_le
      simp only [Pool.rank, Label.credit]
      omega
  | worker i => exact rank_workerStep hlocked hs
  | wakeWorker i =>
      obtain ⟨hasleep, hs⟩ := Option.ite_none_right_eq_some.mp hs
      cases hs
      have hrank := rank_setWorker s i .woken
      simp only [hasleep, WorkerPc.rank] at hrank
      simp only [Label.credit]
      omega

/-! ## A server that nobody stops -/

def Pool.Stays (s : Pool cfg) : Prop := s.stopRequested = false ∧ s.acceptor ≠ .stopping

theorem AcceptorPc.wake_ne_stopping {pc : AcceptorPc} (h : pc ≠ .stopping) :
    pc.wake ≠ .stopping := by
  cases pc with
  | stopping => exact absurd rfl h
  | _ => nofun

theorem Pool.Stays.acceptorStep (h : s.Stays) (hs : acceptorStep s = some (.running s')) :
    s'.Stays := by
  unfold ThreadPool.acceptorStep at hs
  cases hpc : s.acceptor with
  | loopTest =>
      simp only [hpc, h.1] at hs
      cases hs
      exact ⟨rfl, nofun⟩
  | lock fd | woken fd =>
      simp only [hpc] at hs
      obtain ⟨-, hs⟩ := Option.ite_none_right_eq_some.mp hs
      cases hs
      exact ⟨h.1, nofun⟩
  | test fd =>
      simp only [hpc] at hs
      split at hs <;> cases hs <;> exact ⟨h.1, nofun⟩
  | accept | asleep | signal | stopping =>
      rw [hpc] at hs
      cases hs
  | countRefused | countAccepted fd | countActive fd | insert fd | unlock =>
      simp only [hpc] at hs
      cases hs
      exact ⟨h.1, nofun⟩

theorem Pool.Stays.workerStep (h : s.Stays) {i : Fin cfg.numWorkers}
    (hs : workerStep s i = some (.running s')) : s'.Stays := by
  unfold ThreadPool.workerStep at hs
  split at hs <;> try split at hs
  all_goals
    cases hs
    try exact h
  exact ⟨h.1, AcceptorPc.wake_ne_stopping h.2⟩

theorem Pool.Stays.step (h : s.Stays) {l : Label cfg.numWorkers} (hl : l ≠ .stopSignal)
    (hs : s.step l = some (.running s')) : s'.Stays := by
  cases l with
  | stopSignal => exact absurd rfl hl
  | acceptReturns r =>
      obtain ⟨-, hs⟩ := Option.ite_none_right_eq_some.mp hs
      cases r with
      | ok fd =>
          obtain ⟨-, hs⟩ := Option.ite_none_right_eq_some.mp hs
          cases hs
          exact ⟨h.1, by simp⟩
      | error e =>
          simp only [acceptReturns, acceptFailed, Option.some.injEq] at hs
          split at hs
          · cases hs
            exact ⟨h.1, by simp⟩
          · split at hs
            · cases hs
              exact ⟨h.1, by simp⟩
            · cases hs
  | acceptor => exact h.acceptorStep hs
  | signalNotEmpty sleeper =>
      cases sleeper with
      | none =>
          obtain ⟨-, hs⟩ := Option.ite_none_right_eq_some.mp hs
          cases hs
          exact ⟨h.1, by simp⟩
      | some i =>
          obtain ⟨-, hs⟩ := Option.ite_none_right_eq_some.mp hs
          cases hs
          exact ⟨h.1, by simp [Pool.setWorker]⟩
  | wakeAcceptor =>
      cases hs
      exact ⟨h.1, AcceptorPc.wake_ne_stopping h.2⟩
  | worker i => exact h.workerStep hs
  | wakeWorker i =>
      obtain ⟨-, hs⟩ := Option.ite_none_right_eq_some.mp hs
      cases hs
      exact h

theorem acceptorStep_exited (hs : acceptorStep s = some .exited) : s.acceptor = .stopping := by
  unfold acceptorStep at hs
  split at hs <;> try split at hs
  all_goals
    cases hs
    try assumption

/-- The process ends when it has seen the request, or by an error of `accept`. -/
theorem exited_cases {l : Label cfg.numWorkers} (hs : s.step l = some .exited) :
    (l = .acceptor ∧ s.acceptor = .stopping) ∨
      ∃ e, l = .acceptReturns (.error e) ∧ acceptFailed e s = .exited := by
  cases l with
  | stopSignal | wakeAcceptor => cases hs
  | acceptReturns r =>
      obtain ⟨-, hs⟩ := Option.ite_none_right_eq_some.mp hs
      cases r with
      | ok fd =>
          obtain ⟨-, hs⟩ := Option.ite_none_right_eq_some.mp hs
          cases hs
      | error e => exact Or.inr ⟨e, rfl, Option.some.inj hs⟩
  | acceptor => exact Or.inl ⟨rfl, acceptorStep_exited hs⟩
  | signalNotEmpty sleeper =>
      cases sleeper <;> obtain ⟨-, hs⟩ := Option.ite_none_right_eq_some.mp hs <;> cases hs
  | worker i =>
      simp only [Pool.step, workerStep] at hs
      split at hs <;> try split at hs
      all_goals cases hs
  | wakeWorker i =>
      obtain ⟨-, hs⟩ := Option.ite_none_right_eq_some.mp hs
      cases hs

/-- Connections get their identities from `accept` alone. -/
theorem fresh_step {l : Label cfg.numWorkers} (hl : ∀ fd, l ≠ .acceptReturns (.ok fd))
    (hs : s.step l = some (.running s')) : s'.descriptors.fresh = s.descriptors.fresh := by
  cases l with
  | stopSignal | wakeAcceptor =>
      cases hs
      rfl
  | acceptReturns r =>
      obtain ⟨-, hs⟩ := Option.ite_none_right_eq_some.mp hs
      cases r with
      | ok fd => exact absurd rfl (hl fd)
      | error e =>
          simp only [acceptReturns, acceptFailed, Option.some.injEq] at hs
          split at hs
          · cases hs
            rfl
          · split at hs
            · cases hs
              rfl
            · cases hs
  | acceptor => rw [(acceptorStep_keeps hs).2]
  | signalNotEmpty sleeper =>
      cases sleeper <;> obtain ⟨-, hs⟩ := Option.ite_none_right_eq_some.mp hs <;> cases hs <;> rfl
  | worker i =>
      simp only [Pool.step, workerStep] at hs
      split at hs <;> try split at hs
      all_goals
        cases hs
        try rfl
  | wakeWorker i =>
      obtain ⟨-, hs⟩ := Option.ite_none_right_eq_some.mp hs
      cases hs
      rfl

theorem reachable_accounted (h : (pool cfg).Reachable (.running s)) : s.descriptors.Accounted := by
  refine Process.machine_invariant (P := fun s => s.descriptors.Accounted) ?_ ?_ h
  · rintro _ ⟨memory, rfl⟩
    exact Descriptors.accounted_empty
  · intro s l s' haccounted hstep
    cases moves_of_step hstep with
    | accepts hpc hnone => exact haccounted.accept hnone
    | close hpc => exact haccounted.close _
    | _ => exact haccounted

/-- Every connection in some place has an identity of its own. -/
theorem Pool.Handoff.card_le_fresh (h : s.Handoff) :
    Multiset.card (s.acceptor.hand.toList + s.queue.contents +
      tally WorkerPc.load s.workers : Multiset ℕ) ≤ s.descriptors.fresh := by
  have howner : ∀ fd ∈ (s.acceptor.hand.toList + s.queue.contents +
      tally WorkerPc.load s.workers : Multiset ℕ).toFinset,
      ∃ c, s.descriptors.owner fd = some c := by
    intro fd hfd
    rw [Multiset.mem_toFinset, h.live_iff fd] at hfd
    exact Option.ne_none_iff_exists'.mp hfd
  rw [← Multiset.toFinset_card_of_nodup h.nodup, ← Finset.card_range s.descriptors.fresh]
  refine Finset.card_le_card_of_injOn (fun fd => (s.descriptors.owner fd).getD 0) ?_ ?_
  · intro fd hfd
    obtain ⟨c, hc⟩ := howner fd hfd
    simpa [hc] using s.descriptors.owner_lt hc
  · intro fd hfd fd' hfd' heq
    obtain ⟨c, hc⟩ := howner fd hfd
    obtain ⟨c', hc'⟩ := howner fd' hfd'
    simp only [hc, hc', Option.getD_some] at heq
    subst heq
    exact s.descriptors.owner_inj hc hc'

/-- A connection is closed when the call for it has returned. -/
theorem reachable_served {r : Serving cfg} (h : (serving cfg).Reachable (.running r)) {c : ℕ}
    (hc : c ∈ r.pool.descriptors.closed) :
    ∃ v result, r.calls c = some v ∧ v.result = some result := by
  have hservice : Process.All (fun r : Serving cfg =>
      Protocol.service.Reachable (.running r.toService)) (.running r) := by
    refine Machine.Reachable.invariant (P := Process.All fun r : Serving cfg =>
      Protocol.service.Reachable (.running r.toService)) ?_ ?_ h
    · rintro _ ⟨_, rfl, memory, rfl⟩
      exact .init ⟨_, rfl, rfl⟩
    · intro p l q hreach hp hs
      cases p with
      | exited => cases hs
      | running r =>
          cases q with
          | exited => trivial
          | running r' =>
              have hhandoff := (reachable_handoff ((serving_refines_pool cfg).reachable hreach)).2
              obtain ⟨bs, hrun⟩ :=
                (Serving.moves_of_step hs).service (Serving.reachable_calls hreach) hhandoff
              exact Machine.Reachable.run hp hrun
  rcases (Protocol.Service.reachable_sound hservice).closed c hc with ⟨hrefused, -⟩ | hserved
  · cases hrefused
  · exact hserved

/-- A call that has not returned is that of a worker which is in it. -/
theorem reachable_under_way {r : Serving cfg} (h : (serving cfg).Reachable (.running r)) {c : ℕ}
    {v : Protocol.Connection} (hcall : r.calls c = some v) (hresult : v.result = none) :
    ∃ w fd, r.pool.workers w = .serving fd ∧ r.pool.descriptors.owner fd = some c := by
  have hcalls := Serving.reachable_calls h
  have hlt : c < r.pool.descriptors.fresh := by
    by_contra hge
    cases (hcalls.fresh c (Nat.not_lt.mp hge)).symm.trans hcall
  have hpool := (serving_refines_pool cfg).reachable h
  obtain ⟨fd, howner⟩ : ∃ fd, r.pool.descriptors.owner fd = some c := by
    refine (reachable_accounted hpool c hlt).resolve_right fun hclosed => ?_
    obtain ⟨v', result, hv', hresult'⟩ := reachable_served h hclosed
    cases hcall.symm.trans hv'
    cases hresult.symm.trans hresult'
  obtain ⟨w, hheld⟩ : ∃ w, (r.pool.workers w).held = some fd := by
    by_contra hnobody
    cases (hcalls.waiting (not_exists.mp hnobody) howner).symm.trans hcall
  have hstack := (hcalls.held hheld howner).symm.trans hcall
  have hstage := hcalls.stage w
  refine ⟨w, fd, ?_, howner⟩
  rw [hstack] at hstage
  cases hpc : r.pool.workers w with
  | serving fd' =>
      rw [hpc] at hheld
      cases hheld
      rfl
  | busyDown fd' | close fd' =>
      rw [hpc] at hstage
      simp [WorkerPc.Stage, Serving.returned, hresult] at hstage
  | _ =>
      rw [hpc] at hstage
      cases hstage

/-! ## When all threads wait -/

/-- The mutex is with a thread that is inside a critical section. -/
def Pool.Held (s : Pool cfg) : Prop :=
  ∀ t, s.holder = some t → critical s.acceptor s.workers t = true

theorem Pool.Held.acceptor {a : AcceptorPc} (h : s.Held) (ha : a.critical = s.acceptor.critical) :
    ∀ t, s.holder = some t → critical a s.workers t = true := by
  rintro (_ | i) ht
  · exact ha.trans (h _ ht)
  · exact h (.worker i) ht

theorem critical_update {a : AcceptorPc} {ws : Fin cfg.numWorkers → WorkerPc}
    {i : Fin cfg.numWorkers} {pc : WorkerPc} (hpc : pc.critical = (ws i).critical)
    (t : Thread cfg.numWorkers) :
    critical a (Function.update ws i pc) t = critical a ws t := by
  cases t with
  | acceptor => rfl
  | worker j =>
      by_cases hj : j = i
      · subst hj
        rw [critical, critical, Function.update_self, hpc]
      · rw [critical, critical, Function.update_of_ne hj]

theorem Pool.Held.moves (h : s.Held) (hm : Moves s s') : s'.Held := by
  cases hm with
  | flag b => exact h
  | acceptorLocal m hpc hfrom hto =>
      exact h.acceptor (by rw [hpc, hfrom, hto])
  | accepts hpc hnone => exact h.acceptor (by rw [hpc]; rfl)
  | acceptorLock hpc hfree =>
      rintro t ⟨⟩
      rfl
  | acceptorSleep n hpc hfull => exact nofun
  | acceptorRoom hpc hroom => exact h.acceptor (by rw [hpc]; rfl)
  | insert m hpc => exact h.acceptor (by rw [hpc]; rfl)
  | acceptorUnlock hpc => exact nofun
  | signalSome hpc hasleep =>
      intro t ht
      refine (critical_update (by rw [hasleep]; rfl) t).trans ?_
      exact h.acceptor (by rw [hpc]; rfl) t ht
  | signalNone hpc hawake => exact h.acceptor (by rw [hpc]; rfl)
  | workerLocal m hpc hfrom hto =>
      intro t ht
      exact (critical_update (by rw [hpc, hfrom, hto]) t).trans (h t ht)
  | @workerLock i hpc hfree =>
      rintro t ⟨⟩
      change (Function.update s.workers i .test i).critical = true
      rw [Function.update_self]
      rfl
  | workerSleep hpc hempty => exact nofun
  | workerItem hpc hitem =>
      intro t ht
      exact (critical_update (by rw [hpc]; rfl) t).trans (h t ht)
  | remove m hpc =>
      intro t ht
      exact (critical_update (by rw [hpc]; rfl) t).trans (h t ht)
  | workerUnlock hpc => exact nofun
  | workerSignal hpc =>
      intro t ht
      refine (critical_update (by rw [hpc]; rfl) t).trans ?_
      exact h.acceptor s.acceptor.critical_wake t ht
  | close hpc =>
      intro t ht
      exact (critical_update (by rw [hpc]; rfl) t).trans (h t ht)

theorem reachable_held (h : (pool cfg).Reachable (.running s)) : s.Held := by
  refine Process.machine_invariant (P := Pool.Held) ?_ ?_ h
  · rintro _ ⟨memory, rfl⟩
    exact nofun
  · intro s l s' hheld hstep
    exact hheld.moves (moves_of_step hstep)

/-- No thread can make a step, but for returning from `accept` or `serve_connection`. -/
structure Pool.Blocked (s : Pool cfg) : Prop where
  acceptor : acceptorStep s = none
  signal : ∀ sleeper, signalNotEmpty sleeper s = none
  worker : ∀ i, workerStep s i = none ∨ ∃ fd, s.workers i = .serving fd

theorem Pool.Blocked.free (h : s.Blocked) (hheld : s.Held) : s.holder = none := by
  cases hholder : s.holder with
  | none => rfl
  | some t =>
      have hcritical := hheld t hholder
      cases t with
      | acceptor =>
          have hnone := h.acceptor
          unfold acceptorStep at hnone
          change s.acceptor.critical = true at hcritical
          cases hpc : s.acceptor with
          | test fd =>
              simp only [hpc] at hnone
              split at hnone <;> cases hnone
          | insert fd | unlock =>
              rw [hpc] at hnone
              cases hnone
          | _ =>
              rw [hpc] at hcritical
              cases hcritical
      | worker i =>
          have hnone := h.worker i
          unfold workerStep at hnone
          change (s.workers i).critical = true at hcritical
          cases hpc : s.workers i with
          | test =>
              simp only [hpc, reduceCtorEq, exists_false, or_false] at hnone
              split at hnone <;> cases hnone
          | remove | unlock fd =>
              simp only [hpc, reduceCtorEq, exists_false, or_false] at hnone
          | _ =>
              rw [hpc] at hcritical
              cases hcritical

theorem Pool.Blocked.workers (h : s.Blocked) (hheld : s.Held) (i : Fin cfg.numWorkers) :
    s.workers i = .asleep ∨ ∃ fd, s.workers i = .serving fd := by
  have hfree := h.free hheld
  have hnone := h.worker i
  unfold workerStep at hnone
  cases hpc : s.workers i with
  | asleep => exact Or.inl rfl
  | serving fd => exact Or.inr ⟨fd, rfl⟩
  | lock | woken => simp [hpc, hfree] at hnone
  | test =>
      simp only [hpc, reduceCtorEq, exists_false, or_false] at hnone
      split at hnone <;> cases hnone
  | _ => simp [hpc] at hnone

theorem Pool.Blocked.acceptor_waits (h : s.Blocked) (hheld : s.Held) :
    s.acceptor = .accept ∨ ∃ fd, s.acceptor = .asleep fd := by
  have hfree := h.free hheld
  have hnone := h.acceptor
  unfold acceptorStep at hnone
  cases hpc : s.acceptor with
  | accept => exact Or.inl rfl
  | asleep fd => exact Or.inr ⟨fd, rfl⟩
  | lock | woken => simp [hpc, hfree] at hnone
  | test =>
      simp only [hpc] at hnone
      split at hnone <;> cases hnone
  | signal =>
      by_cases hasleep : ∃ i, s.workers i = .asleep
      · obtain ⟨i, hi⟩ := hasleep
        have hsignal := h.signal (some i)
        simp [signalNotEmpty, hpc, hi] at hsignal
      · have hsignal := h.signal none
        push Not at hasleep
        simp [signalNotEmpty, hpc, hasleep] at hsignal
  | _ => simp [hpc] at hnone

/-- All threads wait for connections to come or to end. With the acceptor in `accept` the
workers have taken all that there was, unless each of them is busy. With the acceptor
asleep the ring is full and all workers are busy. -/
theorem blocked_cases (hreach : (pool cfg).Reachable (.running s)) (h : s.Blocked) :
    (s.acceptor = .accept ∧ ((∃ i, s.workers i = .asleep) → s.queue.count = 0)) ∨
      ∃ fd, s.acceptor = .asleep fd ∧ s.queue.count = cfg.queueDepth ∧
        ∀ i, ∃ fd, s.workers i = .serving fd := by
  have hheld := reachable_held hreach
  have hawake := reachable_awake hreach
  have hworkers := h.workers hheld
  have hcoming : headcount WorkerPc.coming s.workers = 0 := by
    apply headcount_eq_zero
    intro i
    rcases hworkers i with hpc | ⟨fd, hpc⟩
    · rw [hpc]
      exact WorkerPc.not_coming nofun rfl
    · rw [hpc]
      exact WorkerPc.not_coming nofun rfl
  have hempty : (∃ i, s.workers i = .asleep) → s.queue.count ≤ s.acceptor.signals := by
    intro hasleep
    have hle := hawake.not_empty hasleep
    rwa [hcoming] at hle
  rcases h.acceptor_waits hheld with hpc | ⟨fd, hpc⟩
  · rw [hpc] at hempty
    exact Or.inl ⟨hpc, fun hasleep => Nat.le_zero.mp (hempty hasleep)⟩
  · right
    rw [hpc] at hempty
    have hfull : s.queue.count = cfg.queueDepth := by
      rcases hawake.not_full (AcceptorPc.sleeps_iff.mpr ⟨fd, hpc⟩) with hfull | ⟨i, hi⟩
      · rw [hfull, (reachable_handoff hreach).1.capacity]
      · rcases hworkers i with hi' | ⟨fd', hi'⟩ <;> rw [hi'] at hi <;> cases hi
    refine ⟨fd, hpc, hfull, fun i => (hworkers i).resolve_left fun hasleep => ?_⟩
    have hdepth := cfg.queueDepth_pos
    have hle : s.queue.count ≤ 0 := hempty ⟨i, hasleep⟩
    omega

/-- When the acceptor sleeps, there is a connection in every place. -/
theorem full_le_fresh (hreach : (pool cfg).Reachable (.running s)) {fd : ℕ}
    (hpc : s.acceptor = .asleep fd) (hfull : s.queue.count = cfg.queueDepth)
    (hworkers : ∀ i, ∃ fd, s.workers i = .serving fd) :
    cfg.queueDepth + cfg.numWorkers + 1 ≤ s.descriptors.fresh := by
  have hhandoff := (reachable_handoff hreach).2
  have hload : Multiset.card (tally WorkerPc.load s.workers) = cfg.numWorkers := by
    have hone : ∀ i, Multiset.card (s.workers i).load = 1 := by
      intro i
      obtain ⟨fd', hi⟩ := hworkers i
      rw [hi]
      rfl
    rw [tally, Multiset.card_sum]
    simp [hone]
  have hcard := hhandoff.card_le_fresh
  rw [Multiset.card_add, Multiset.card_add, hload, Multiset.coe_card, Multiset.coe_card, hpc,
    FdQueue.contents, Ring.length_contents, hfull] at hcard
  change 1 + _ + _ ≤ _ at hcard
  omega

end ConcurrentServers.ThreadPool

import ConcurrentServers.ThreadPool.Fifo

/-!
# No wakeup is lost

A queued connection can only be overlooked if a worker sleeps while nobody is
on the way to the queue. While a worker sleeps, every queued connection is
matched by a signal that the acceptor still owes, by a woken worker, or by a
worker that holds the mutex and has not removed anything yet. The last kind is
needed because a woken worker takes the mutex before it looks at the queue.
-/

namespace ConcurrentServers.ThreadPool

open Systems

variable {cfg : Config}

/-- The worker will look at the queue before it can sleep again. -/
def WorkerPc.coming (pc : WorkerPc) : Prop := pc = .woken ∨ pc.inspects = true

instance : DecidablePred WorkerPc.coming :=
  fun pc => inferInstanceAs (Decidable (pc = .woken ∨ _))

theorem WorkerPc.not_coming {pc : WorkerPc} (hwoken : pc ≠ .woken)
    (hinspects : pc.inspects = false) : ¬pc.coming := by
  rintro (hw | hi)
  · exact hwoken hw
  · rw [hinspects] at hi
    cases hi

structure Awake (a : AcceptorPc) (ws : Fin cfg.numWorkers → WorkerPc) (count capacity : ℕ) :
    Prop where
  not_empty : (∃ i, ws i = .asleep) → count ≤ a.signals + headcount WorkerPc.coming ws
  not_full : a.sleeps = true → count = capacity ∨ ∃ i, (ws i).signals = true

section Awake

variable {a a' : AcceptorPc} {ws : Fin cfg.numWorkers → WorkerPc} {n c : ℕ}
  {i : Fin cfg.numWorkers} {pc : WorkerPc}

theorem Awake.acceptor (h : Awake a ws n c) {pc : AcceptorPc} (hpc : a = pc)
    (hsignals : pc.signals ≤ a'.signals)
    (hsleeps : a'.sleeps = true → n = c) : Awake a' ws n c where
  not_empty := by
    intro hasleep
    have hle := h.not_empty hasleep
    rw [hpc] at hle
    omega
  not_full := fun hs => Or.inl (hsleeps hs)

theorem asleep_of_update (hpc : pc ≠ .asleep)
    (h : ∃ j, Function.update ws i pc j = .asleep) : ∃ j, ws j = .asleep := by
  obtain ⟨j, hj⟩ := h
  by_cases hji : j = i
  · rw [hji, Function.update_self] at hj
    exact absurd hj hpc
  · rw [Function.update_of_ne hji] at hj
    exact ⟨j, hj⟩

/-- A worker that neither falls asleep nor turns away from the queue, and that
does not drop a signal the acceptor waits for. -/
theorem Awake.worker (h : Awake a ws n c) (hcoming : (ws i).coming → pc.coming)
    (hawake : pc ≠ .asleep)
    (hsignals : a.sleeps = true → (ws i).signals = true → pc.signals = true) :
    Awake a (Function.update ws i pc) n c where
  not_empty := by
    intro hasleep
    have hle := h.not_empty (asleep_of_update hawake hasleep)
    have hmono := headcount_le_update ws hcoming
    omega
  not_full := by
    intro hs
    rcases h.not_full hs with hfull | ⟨j, hj⟩
    · exact Or.inl hfull
    · refine Or.inr ⟨j, ?_⟩
      by_cases hji : j = i
      · rw [hji, Function.update_self]
        exact hsignals hs (hji ▸ hj)
      · rw [Function.update_of_ne hji]
        exact hj

/-- A worker falls asleep only when there is nothing to do. -/
theorem Awake.worker_sleeps (h : Awake a ws 0 c) (hpc : ws i = .test) :
    Awake a (Function.update ws i .asleep) 0 c where
  not_empty := fun _ => Nat.zero_le _
  not_full := by
    intro hs
    rcases h.not_full hs with hfull | ⟨j, hj⟩
    · exact Or.inl hfull
    · refine Or.inr ⟨j, ?_⟩
      have hji : j ≠ i := by
        rintro rfl
        rw [hpc] at hj
        cases hj
      rw [Function.update_of_ne hji]
      exact hj

/-- The acceptor owes a signal for what it has inserted. -/
theorem Awake.insert {fd : ℕ} (h : Awake (.insert fd) ws n c) : Awake .unlock ws (n + 1) c where
  not_empty := by
    intro hasleep
    have hle := h.not_empty hasleep
    change n ≤ 0 + _ at hle
    change n + 1 ≤ 1 + _
    omega
  not_full := nofun

/-- The signal that the acceptor owed becomes a woken worker. -/
theorem Awake.signal (h : Awake .signal ws n c) (hasleep : ws i = .asleep) :
    Awake .loopTest (Function.update ws i .woken) n c where
  not_empty := by
    intro _
    have hle := h.not_empty ⟨i, hasleep⟩
    have hgain := headcount_update_gained ws (p := WorkerPc.coming) (i := i) (b := .woken)
      (by rw [hasleep]; decide) (by decide)
    change n ≤ 1 + _ at hle
    change n ≤ 0 + _
    omega
  not_full := nofun

/-- A worker that turns away has taken one connection with it, and owes a
signal for the slot. -/
theorem Awake.remove (h : Awake a ws n c) (hpc : ws i = .remove) (fd : ℕ) :
    Awake a (Function.update ws i (.unlock fd)) (n - 1) c where
  not_empty := by
    intro hasleep
    have hawake : WorkerPc.unlock fd ≠ .asleep := nofun
    have hle := h.not_empty (asleep_of_update hawake hasleep)
    have hlost := headcount_update_lost ws (p := WorkerPc.coming) (i := i) (b := .unlock fd)
      (by rw [hpc]; decide) (by simp [WorkerPc.coming, WorkerPc.inspects])
    omega
  not_full := fun _ => Or.inr ⟨i, by rw [Function.update_self]; rfl⟩

end Awake

theorem Awake.moves {s s' : Pool cfg}
    (h : Awake s.acceptor s.workers s.queue.count s.queue.capacity) (hm : Moves s s') :
    Awake s'.acceptor s'.workers s'.queue.count s'.queue.capacity := by
  cases hm with
  | flag b => exact h
  | acceptorLocal m hpc hfrom hto hhand hsignals hsignals' hawake =>
      exact h.acceptor hpc (by rw [hsignals, hsignals']) (by simp [hawake])
  | accepts hpc hnone => exact h.acceptor hpc (le_refl _) nofun
  | acceptorLock hpc hfree =>
      rcases hpc with hpc | hpc
      · exact h.acceptor hpc (le_refl _) nofun
      · exact h.acceptor hpc (le_refl _) nofun
  | acceptorSleep k hpc hfull => exact h.acceptor hpc (le_refl _) fun _ => hfull
  | acceptorRoom hpc hroom => exact h.acceptor hpc (le_refl _) nofun
  | insert m hpc =>
      rw [hpc] at h
      exact h.insert
  | acceptorUnlock hpc => exact h.acceptor hpc (le_refl _) nofun
  | signalSome hpc hasleep =>
      rw [hpc] at h
      exact h.signal hasleep
  | signalNone hpc hawake =>
      refine ⟨?_, nofun⟩
      rintro ⟨i, hi⟩
      exact absurd hi (hawake i)
  | @workerLocal i pc pc' m hpc hfrom hto hheld hsignals hwoken hawake =>
      apply h.worker _ hawake
      · intro _
        rw [hpc, hsignals]
        exact nofun
      · rw [hpc]
        rintro (hw | hinspects)
        · exact absurd hw hwoken
        · rw [WorkerPc.critical_of_inspects hinspects] at hfrom
          cases hfrom
  | workerLock hpc hfree =>
      refine h.worker (fun _ => Or.inr rfl) ?_ ?_
      · exact nofun
      · intro _
        rcases hpc with hpc | hpc
        · rw [hpc]
          exact nofun
        · rw [hpc]
          exact nofun
  | workerSleep hpc hempty =>
      rw [hempty] at h
      have hslept := h.worker_sleeps hpc
      rw [← hempty] at hslept
      exact hslept
  | workerItem hpc hitem =>
      refine h.worker (fun _ => Or.inr rfl) ?_ ?_
      · exact nofun
      · intro _
        rw [hpc]
        exact nofun
  | remove m hpc => exact h.remove hpc _
  | workerUnlock hpc =>
      refine h.worker ?_ ?_ (fun _ _ => rfl)
      · rw [hpc]
        exact fun hc => absurd hc (WorkerPc.not_coming nofun rfl)
      · exact nofun
  | workerSignal hpc =>
      have hwoken : Awake s.acceptor.wake s.workers s.queue.count s.queue.capacity :=
        h.acceptor rfl (by simp) (by simp)
      refine hwoken.worker ?_ ?_ (by simp)
      · rw [hpc]
        exact fun hc => absurd hc (WorkerPc.not_coming nofun rfl)
      · exact nofun
  | close hpc =>
      refine h.worker ?_ ?_ ?_
      · rw [hpc]
        exact fun hc => absurd hc (WorkerPc.not_coming nofun rfl)
      · exact nofun
      · intro _
        rw [hpc]
        exact nofun

theorem reachable_awake {s : Pool cfg} (h : (pool cfg).Reachable (.running s)) :
    Awake s.acceptor s.workers s.queue.count s.queue.capacity := by
  refine Process.machine_invariant (P := fun s =>
    Awake s.acceptor s.workers s.queue.count s.queue.capacity) ?_ ?_ h
  · rintro _ ⟨memory, rfl⟩
    exact ⟨fun _ => Nat.zero_le _, nofun⟩
  · intro s l s' hawake hstep
    exact hawake.moves (moves_of_step hstep)

/-- Nobody is on the way when all workers sleep. -/
theorem headcount_of_all_asleep {ws : Fin cfg.numWorkers → WorkerPc}
    (h : ∀ i, ws i = .asleep) : headcount WorkerPc.coming ws = 0 := by
  apply headcount_eq_zero
  intro i
  rw [h i]
  decide

/-- With the mutex free, only woken workers are on the way. -/
theorem headcount_of_free {s : Pool cfg} (hlocked : Locked s.acceptor s.workers s.holder s.queue)
    (hfree : s.holder = none) : headcount WorkerPc.coming s.workers =
      (Finset.univ.filter fun i => s.workers i = .woken).card := by
  rw [headcount_eq_card]
  congr 1
  apply Finset.filter_congr
  intro i _
  refine ⟨?_, Or.inl⟩
  rintro (hwoken | hinspects)
  · exact hwoken
  · have hholds := hlocked.holds (.worker i) (WorkerPc.critical_of_inspects hinspects)
    rw [hfree] at hholds
    cases hholds

/-- While a worker sleeps unsignalled, the queued connections are matched by the
signals of `not_empty` still to be issued, the woken workers, and the worker that
has taken the mutex and not removed anything yet. With the mutex free the last
kind is empty. While the acceptor sleeps unsignalled, the queue is full or a
signal of `not_full` is still to be issued. Hence the acceptor and the workers
are never all asleep, and with all workers asleep a queued connection has a
signal on its way. -/
theorem no_lost_wakeup {s : Pool cfg} (h : (pool cfg).Reachable (.running s)) :
    ((∃ i, s.workers i = .asleep) → s.queue.count ≤ s.acceptor.signals +
      (Finset.univ.filter fun i =>
        s.workers i = .woken ∨ (s.workers i).inspects = true).card) ∧
    ((∃ i, s.workers i = .asleep) → s.holder = none → s.queue.count ≤ s.acceptor.signals +
      (Finset.univ.filter fun i => s.workers i = .woken).card) ∧
    (∀ fd, s.acceptor = .asleep fd →
      s.queue.count = cfg.queueDepth ∨ ∃ i, (s.workers i).signals = true) ∧
    ¬((∃ fd, s.acceptor = .asleep fd) ∧ ∀ i, s.workers i = .asleep) ∧
    (0 < s.queue.count → (∀ i, s.workers i = .asleep) → 0 < s.acceptor.signals) := by
  have hawake := reachable_awake h
  have hlocked := (reachable_handoff h).1
  have hfirst : 0 < cfg.numWorkers := cfg.numWorkers_pos
  have hsignal : 0 < s.queue.count → (∀ i, s.workers i = .asleep) → 0 < s.acceptor.signals := by
    intro hpos hall
    have hle := hawake.not_empty ⟨⟨0, hfirst⟩, hall _⟩
    rw [headcount_of_all_asleep hall] at hle
    omega
  have hfull : ∀ fd, s.acceptor = .asleep fd →
      s.queue.count = cfg.queueDepth ∨ ∃ i, (s.workers i).signals = true := by
    intro fd hpc
    rw [← hlocked.capacity]
    exact hawake.not_full (AcceptorPc.sleeps_iff.mpr ⟨fd, hpc⟩)
  refine ⟨?_, ?_, hfull, ?_, hsignal⟩
  · intro hasleep
    have hle := hawake.not_empty hasleep
    rwa [headcount_eq_card] at hle
  · intro hasleep hfree
    have hle := hawake.not_empty hasleep
    rwa [headcount_of_free hlocked hfree] at hle
  · rintro ⟨⟨fd, hpc⟩, hall⟩
    rcases hfull fd hpc with hcount | ⟨i, hi⟩
    · have hdepth := cfg.queueDepth_pos
      have hpos := hsignal (by omega) hall
      rw [hpc] at hpos
      exact Nat.lt_irrefl 0 hpos
    · rw [hall i] at hi
      cases hi

def secondWorker : Fin smallConfig.numWorkers := ⟨1, by decide⟩

/-- Both workers sleep, a connection is queued, and the worker that was woken
for it has just taken the mutex. -/
def wokenWorkerLocks : List (Label smallConfig.numWorkers) :=
  [.worker firstWorker, .worker firstWorker, .worker secondWorker, .worker secondWorker,
    .acceptor, .acceptReturns (.ok 5), .acceptor, .acceptor, .acceptor, .acceptor, .acceptor,
    .acceptor, .signalNotEmpty (some firstWorker), .worker firstWorker]

theorem no_lost_wakeup_wokenWorkerLocks :
    ∃ s, (pool smallConfig).run (.running (.start smallConfig fun _ => 0)) wokenWorkerLocks =
        some (.running s) ∧
      s.workers secondWorker = .asleep ∧ s.queue.count = 1 ∧
      s.queue.count ≤ s.acceptor.signals + (Finset.univ.filter fun i =>
        s.workers i = .woken ∨ (s.workers i).inspects = true).card := by
  refine ⟨_, rfl, rfl, rfl, ?_⟩
  apply (no_lost_wakeup (reachable_of_labels smallConfig (fun _ => 0) wokenWorkerLocks rfl)).1
  exact ⟨secondWorker, rfl⟩

/-- Signals and woken workers alone do not account for the queue: in that state
there are none of either, one connection is queued, and the second worker sleeps. -/
theorem woken_worker_with_mutex_not_counted :
    ∃ s, (pool smallConfig).Reachable (.running s) ∧ s.workers secondWorker = .asleep ∧
      ¬s.queue.count ≤ s.acceptor.signals +
        (Finset.univ.filter fun i => s.workers i = .woken).card := by
  refine ⟨_, reachable_of_labels smallConfig (fun _ => 0) wokenWorkerLocks rfl, rfl, ?_⟩
  decide

end ConcurrentServers.ThreadPool

import ConcurrentServers.ThreadPool.Moves
import ConcurrentServers.Library.Handoff

/-!
# The queue of the pool is first in, first out

The mutex keeps what a thread has tested true until it acts on it, so the ring
is never written when it is full and never read when it is empty. Every open
connection is then in one place: in the hand of the acceptor, in a slot of the
ring, or with a worker.
-/

namespace ConcurrentServers.ThreadPool

open Systems

variable {cfg : Config}

/-! ## The ring -/

structure FdQueue.Valid (q : FdQueue) : Prop where
  head_lt : q.head < q.capacity
  tail_eq : q.tail = (q.head + q.count) % q.capacity
  count_le : q.count ≤ q.capacity

theorem FdQueue.Valid.tail_lt {q : FdQueue} (h : q.Valid) : q.tail < q.capacity := by
  rw [h.tail_eq]
  exact Nat.mod_lt _ (Nat.zero_lt_of_lt h.head_lt)

theorem FdQueue.Valid.push {q : FdQueue} (h : q.Valid) (hroom : q.count < q.capacity) (fd : ℕ) :
    (q.push fd).Valid where
  head_lt := h.head_lt
  tail_eq := Ring.tail_push h.tail_eq
  count_le := hroom

theorem FdQueue.Valid.pop {q : FdQueue} (h : q.Valid) (hitem : 0 < q.count) : q.pop.Valid where
  head_lt := Nat.mod_lt _ (Nat.zero_lt_of_lt h.head_lt)
  tail_eq := Ring.tail_pop h.tail_eq hitem
  count_le := (Nat.sub_le _ _).trans h.count_le

theorem FdQueue.Valid.contents_push {q : FdQueue} (h : q.Valid) (hroom : q.count < q.capacity)
    (fd : ℕ) : (q.push fd).contents = q.contents ++ [fd] := by
  simp only [contents, FdQueue.push, h.tail_eq]
  exact Ring.contents_push q.fds fd h.head_lt hroom

theorem FdQueue.contents_eq_front_cons {q : FdQueue} (hitem : 0 < q.count) :
    q.contents = q.front :: q.pop.contents :=
  Ring.contents_pop q.fds hitem

/-! ## The mutex -/

/-- Who is inside a critical section, from the program counters. -/
def critical (a : AcceptorPc) (ws : Fin cfg.numWorkers → WorkerPc) :
    Thread cfg.numWorkers → Bool
  | .acceptor => a.critical
  | .worker i => (ws i).critical

/-- A thread in a critical section holds the mutex, and what it has tested is
still true when it acts. -/
structure Locked (a : AcceptorPc) (ws : Fin cfg.numWorkers → WorkerPc)
    (holder : Option (Thread cfg.numWorkers)) (q : FdQueue) : Prop where
  capacity : q.capacity = cfg.queueDepth
  valid : q.Valid
  holds : ∀ t, critical a ws t = true → holder = some t
  room : ∀ fd, a = .insert fd → q.count < q.capacity
  item : ∀ i, ws i = .remove → 0 < q.count

section Locked

variable {a a' : AcceptorPc} {ws : Fin cfg.numWorkers → WorkerPc}
  {holder holder' : Option (Thread cfg.numWorkers)} {q : FdQueue} {i : Fin cfg.numWorkers}

/-- A thread other than `u` that is in a critical section when `u` is in one, or
moves outside of it. -/
theorem Locked.others (h : Locked a ws holder q) {t u : Thread cfg.numWorkers} (hne : t ≠ u)
    (hu : holder' = holder ∨ critical a ws u = true) (ht : critical a ws t = true) :
    holder' = some t := by
  have hholder := h.holds t ht
  rcases hu with hsame | hu
  · rw [hsame, hholder]
  · rw [h.holds u hu] at hholder
    exact absurd (Option.some.inj hholder).symm hne

theorem Locked.acceptor_leaves (h : Locked a ws holder q) (hto : a'.critical = false)
    (hfrom : holder' = holder ∨ a.critical = true) : Locked a' ws holder' q where
  capacity := h.capacity
  valid := h.valid
  holds := by
    rintro (_ | j) ht
    · rw [critical, hto] at ht
      cases ht
    · exact h.others (u := .acceptor) nofun hfrom ht
  room := by
    rintro fd rfl
    cases hto
  item := h.item

theorem Locked.worker_leaves (h : Locked a ws holder q) {pc : WorkerPc}
    (hto : pc.critical = false) (hfrom : holder' = holder ∨ (ws i).critical = true) :
    Locked a (Function.update ws i pc) holder' q where
  capacity := h.capacity
  valid := h.valid
  holds := by
    rintro (_ | j) ht
    · exact h.others (u := .worker i) nofun hfrom ht
    · by_cases hj : j = i
      · rw [hj, critical, Function.update_self, hto] at ht
        cases ht
      · rw [critical, Function.update_of_ne hj] at ht
        exact h.others (u := .worker i) (fun heq => hj (Thread.worker.inj heq)) hfrom ht
  room := h.room
  item := by
    rw [Function.forall_update_iff ws (p := fun _ pc => pc = .remove → 0 < q.count)]
    refine ⟨?_, fun j _ => h.item j⟩
    rintro rfl
    cases hto

theorem Locked.acceptor_enters (h : Locked a ws none q) (fd : ℕ) :
    Locked (.test fd) ws (some .acceptor) q where
  capacity := h.capacity
  valid := h.valid
  holds := by
    rintro (_ | j) ht
    · rfl
    · cases h.holds (.worker j) ht
  room := nofun
  item := h.item

theorem Locked.worker_enters (h : Locked a ws none q) (i : Fin cfg.numWorkers) :
    Locked a (Function.update ws i .test) (some (.worker i)) q where
  capacity := h.capacity
  valid := h.valid
  holds := by
    rintro (_ | j) ht
    · cases h.holds .acceptor ht
    · by_cases hj : j = i
      · rw [hj]
      · rw [critical, Function.update_of_ne hj] at ht
        cases h.holds (.worker j) ht
  room := h.room
  item := by
    rw [Function.forall_update_iff ws (p := fun _ pc => pc = .remove → 0 < q.count)]
    exact ⟨nofun, fun j _ => h.item j⟩

theorem Locked.acceptor_room {fd : ℕ} (h : Locked (.test fd) ws holder q)
    (hroom : q.count ≠ q.capacity) : Locked (.insert fd) ws holder q where
  capacity := h.capacity
  valid := h.valid
  holds := by
    rintro (_ | j) ht
    · exact h.holds .acceptor rfl
    · exact h.holds (.worker j) ht
  room := fun _ _ => lt_of_le_of_ne h.valid.count_le hroom
  item := h.item

theorem Locked.worker_item (h : Locked a ws holder q) (hpc : ws i = .test)
    (hitem : q.count ≠ 0) : Locked a (Function.update ws i .remove) holder q where
  capacity := h.capacity
  valid := h.valid
  holds := by
    rintro (_ | j) ht
    · exact h.holds .acceptor ht
    · by_cases hj : j = i
      · rw [hj]
        exact h.holds (.worker i) (by rw [critical, hpc]; rfl)
      · rw [critical, Function.update_of_ne hj] at ht
        exact h.holds (.worker j) ht
  room := h.room
  item := fun _ _ => Nat.pos_of_ne_zero hitem

theorem Locked.insert {fd : ℕ} (h : Locked (.insert fd) ws holder q) :
    Locked .unlock ws holder (q.push fd) where
  capacity := h.capacity
  valid := h.valid.push (h.room fd rfl) fd
  holds := by
    rintro (_ | j) ht
    · exact h.holds .acceptor rfl
    · exact h.holds (.worker j) ht
  room := nofun
  item := fun _ _ => Nat.succ_pos _

theorem Locked.remove (h : Locked a ws holder q) (hpc : ws i = .remove) (fd : ℕ) :
    Locked a (Function.update ws i (.unlock fd)) holder q.pop where
  capacity := h.capacity
  valid := h.valid.pop (h.item i hpc)
  holds := by
    rintro (_ | j) ht
    · exact h.holds .acceptor ht
    · by_cases hj : j = i
      · rw [hj]
        exact h.holds (.worker i) (by rw [critical, hpc]; rfl)
      · rw [critical, Function.update_of_ne hj] at ht
        exact h.holds (.worker j) ht
  room := fun fd hfd => lt_of_le_of_lt (Nat.sub_le _ _) (h.room fd hfd)
  item := by
    -- No other worker is about to remove: the mutex would be with both of them.
    intro j hj
    by_cases hji : j = i
    · rw [hji, Function.update_self] at hj
      cases hj
    · rw [Function.update_of_ne hji] at hj
      have hi := h.holds (.worker i) (by rw [critical, hpc]; rfl)
      have hj' := h.holds (.worker j) (by rw [critical, hj]; rfl)
      rw [hi] at hj'
      exact absurd (Thread.worker.inj (Option.some.inj hj')).symm hji

theorem Locked.blocked (h : Locked a ws holder q) (n : UInt64) :
    Locked a ws holder { q with acceptorBlocked := n } :=
  ⟨h.capacity, ⟨h.valid.head_lt, h.valid.tail_eq, h.valid.count_le⟩, h.holds, h.room, h.item⟩

theorem Locked.wake (h : Locked a ws holder q) : Locked a.wake ws holder q where
  capacity := h.capacity
  valid := h.valid
  holds := by
    rintro (_ | j) ht
    · rw [critical, AcceptorPc.critical_wake] at ht
      exact h.holds .acceptor ht
    · exact h.holds (.worker j) ht
  room := by
    intro fd hfd
    cases a with
    | insert fd' => exact h.room fd' rfl
    | _ => cases hfd
  item := h.item

end Locked

theorem Locked.moves {s s' : Pool cfg} (h : Locked s.acceptor s.workers s.holder s.queue)
    (hm : Moves s s') : Locked s'.acceptor s'.workers s'.holder s'.queue := by
  cases hm with
  | flag b => exact h
  | acceptorLocal m hpc hfrom hto => exact h.acceptor_leaves hto (Or.inl rfl)
  | accepts hpc hnone => exact h.acceptor_leaves rfl (Or.inl rfl)
  | acceptorLock hpc hfree =>
      rw [hfree] at h
      exact h.acceptor_enters _
  | acceptorSleep n hpc hfull =>
      exact (h.acceptor_leaves rfl (Or.inr (by rw [hpc]; rfl))).blocked n
  | acceptorRoom hpc hroom =>
      rw [hpc] at h
      exact h.acceptor_room hroom
  | insert m hpc =>
      rw [hpc] at h
      exact h.insert
  | acceptorUnlock hpc => exact h.acceptor_leaves rfl (Or.inr (by rw [hpc]; rfl))
  | signalSome hpc hasleep =>
      exact (h.acceptor_leaves rfl (Or.inl rfl)).worker_leaves rfl (Or.inl rfl)
  | signalNone hpc hawake => exact h.acceptor_leaves rfl (Or.inl rfl)
  | workerLocal m hpc hfrom hto => exact h.worker_leaves hto (Or.inl rfl)
  | workerLock hpc hfree =>
      rw [hfree] at h
      exact h.worker_enters _
  | workerSleep hpc hempty => exact h.worker_leaves rfl (Or.inr (by rw [hpc]; rfl))
  | workerItem hpc hitem => exact h.worker_item hpc hitem
  | remove m hpc => exact h.remove hpc _
  | workerUnlock hpc => exact h.worker_leaves rfl (Or.inr (by rw [hpc]; rfl))
  | workerSignal hpc => exact h.wake.worker_leaves rfl (Or.inl rfl)
  | close hpc => exact h.worker_leaves rfl (Or.inl rfl)

/-! ## Where the connections are -/

/-- The connections that a worker has in its hands. -/
def WorkerPc.load (pc : WorkerPc) : Multiset ℕ := pc.held.toList

/-- The threads hand descriptors over as the abstract queue prescribes. -/
def Pool.Handoff (s : Pool cfg) : Prop :=
  Systems.Handoff s.acceptor.hand s.queue.contents (tally WorkerPc.load s.workers) s.descriptors
    s.accepted s.pushed (s.popped.map Prod.snd)

/-- A worker that moves on with what it holds. -/
theorem Pool.Handoff.worker_keeps {s : Pool cfg} (h : s.Handoff) {i : Fin cfg.numWorkers}
    {pc pc' : WorkerPc} (hpc : s.workers i = pc) (hheld : pc'.held = pc.held) :
    (s.setWorker i pc').Handoff := by
  have hload : tally WorkerPc.load (Function.update s.workers i pc') =
      tally WorkerPc.load s.workers := by
    apply tally_update_same
    rw [hpc, WorkerPc.load, WorkerPc.load, hheld]
  rw [Pool.Handoff, Pool.setWorker, hload]
  exact h

/-- Likewise for the acceptor. -/
theorem Pool.Handoff.acceptor_keeps {s : Pool cfg} (h : s.Handoff) {pc pc' : AcceptorPc}
    (hpc : s.acceptor = pc) (hhand : pc'.hand = pc.hand) :
    Pool.Handoff { s with acceptor := pc' } := by
  unfold Pool.Handoff at h ⊢
  rw [hpc, ← hhand] at h
  exact h

theorem load_remove {s : Pool cfg} {i : Fin cfg.numWorkers} (hpc : s.workers i = .remove)
    (fd : ℕ) : tally WorkerPc.load (Function.update s.workers i (.unlock fd)) =
      fd ::ₘ tally WorkerPc.load s.workers := by
  have hload := tally_update WorkerPc.load s.workers i (.unlock fd)
  rw [hpc] at hload
  change _ + (0 : Multiset ℕ) = _ + ({fd} : Multiset ℕ) at hload
  rw [add_zero, add_comm, Multiset.singleton_add] at hload
  exact hload

theorem load_close {s : Pool cfg} {i : Fin cfg.numWorkers} {fd : ℕ}
    (hpc : s.workers i = .close fd) : tally WorkerPc.load s.workers =
      fd ::ₘ tally WorkerPc.load (Function.update s.workers i .countClosed) := by
  have hload := tally_update WorkerPc.load s.workers i .countClosed
  rw [hpc] at hload
  change _ + ({fd} : Multiset ℕ) = _ + (0 : Multiset ℕ) at hload
  rw [add_zero, add_comm, Multiset.singleton_add] at hload
  exact hload.symm

theorem Pool.Handoff.moves {s s' : Pool cfg}
    (hlocked : Locked s.acceptor s.workers s.holder s.queue) (h : s.Handoff)
    (hm : Moves s s') : s'.Handoff := by
  cases hm with
  | flag b => exact h
  | acceptorLocal m hpc hfrom hto hhand => exact h.acceptor_keeps hpc hhand
  | accepts hpc hnone =>
      unfold Pool.Handoff at h
      rw [hpc] at h
      exact Systems.Handoff.accept h hnone
  | acceptorLock hpc hfree =>
      rcases hpc with hpc | hpc
      · exact h.acceptor_keeps hpc rfl
      · exact h.acceptor_keeps hpc rfl
  | acceptorSleep n hpc hfull => exact h.acceptor_keeps hpc rfl
  | acceptorRoom hpc hroom => exact h.acceptor_keeps hpc rfl
  | insert m hpc =>
      have hcontents := hlocked.valid.contents_push (hlocked.room _ hpc)
      unfold Pool.Handoff at h ⊢
      rw [hpc] at h
      rw [hcontents]
      exact Systems.Handoff.push h
  | acceptorUnlock hpc => exact h.acceptor_keeps hpc rfl
  | signalSome hpc hasleep =>
      have hkept : Pool.Handoff { s with acceptor := .loopTest } := h.acceptor_keeps hpc rfl
      exact hkept.worker_keeps hasleep rfl
  | signalNone hpc hawake => exact h.acceptor_keeps hpc rfl
  | workerLocal m hpc hfrom hto hheld => exact h.worker_keeps hpc hheld
  | workerLock hpc hfree =>
      rcases hpc with hpc | hpc
      · exact h.worker_keeps hpc rfl
      · exact h.worker_keeps hpc rfl
  | workerSleep hpc hempty => exact h.worker_keeps hpc rfl
  | workerItem hpc hitem => exact h.worker_keeps hpc rfl
  | remove m hpc =>
      have hcontents := FdQueue.contents_eq_front_cons (hlocked.item _ hpc)
      unfold Pool.Handoff at h ⊢
      rw [hcontents] at h
      have hpop := Systems.Handoff.pop h
      rw [← load_remove hpc] at hpop
      simpa [Pool.setWorker] using hpop
  | workerUnlock hpc => exact h.worker_keeps hpc rfl
  | workerSignal hpc =>
      exact (h.acceptor_keeps rfl s.acceptor.hand_wake).worker_keeps hpc rfl
  | close hpc =>
      unfold Pool.Handoff at h
      rw [load_close hpc] at h
      exact Systems.Handoff.close h

/-! ## Every reachable state -/

theorem locked_start (cfg : Config) (memory : ℕ → ℕ) :
    Locked (Pool.start cfg memory).acceptor (Pool.start cfg memory).workers
      (Pool.start cfg memory).holder (Pool.start cfg memory).queue where
  capacity := rfl
  valid := ⟨cfg.queueDepth_pos, by simp [Pool.start, queueInit], Nat.zero_le _⟩
  holds := by rintro (_ | i) ht <;> cases ht
  room := nofun
  item := nofun

theorem handoff_start (cfg : Config) (memory : ℕ → ℕ) : (Pool.start cfg memory).Handoff := by
  have hload : tally WorkerPc.load (Pool.start cfg memory).workers = 0 :=
    Finset.sum_eq_zero fun _ _ => rfl
  rw [Pool.Handoff, hload]
  exact Systems.Handoff.empty

theorem reachable_handoff {s : Pool cfg} (h : (pool cfg).Reachable (.running s)) :
    Locked s.acceptor s.workers s.holder s.queue ∧ s.Handoff := by
  refine Process.machine_invariant (P := fun s =>
    Locked s.acceptor s.workers s.holder s.queue ∧ s.Handoff) ?_ ?_ h
  · rintro _ ⟨memory, rfl⟩
    exact ⟨locked_start cfg memory, handoff_start cfg memory⟩
  · rintro s l s' ⟨hlocked, hhandoff⟩ hstep
    have hmoves := moves_of_step hstep
    exact ⟨hlocked.moves hmoves, hhandoff.moves hlocked hmoves⟩

theorem Pool.Handoff.contents_nodup {s : Pool cfg} (h : s.Handoff) : s.queue.contents.Nodup := by
  have hqueued := (Multiset.nodup_add.mp h.nodup).1
  exact Multiset.coe_nodup.mp (Multiset.nodup_add.mp hqueued).2.1

theorem mem_load {s : Pool cfg} {i : Fin cfg.numWorkers} {fd : ℕ}
    (h : (s.workers i).held = some fd) : fd ∈ (s.workers i).load := by
  simp [WorkerPc.load, h]

theorem Pool.Handoff.held_apart {s : Pool cfg} (h : s.Handoff) {i : Fin cfg.numWorkers} {fd : ℕ}
    (hheld : (s.workers i).held = some fd) :
    fd ∉ s.queue.contents ∧ s.acceptor.hand ≠ some fd := by
  have hdisjoint := Multiset.disjoint_right.mp (Multiset.nodup_add.mp h.nodup).2.2
    (mem_tally.mpr ⟨i, mem_load hheld⟩)
  refine ⟨fun hqueued => hdisjoint ?_, fun hhand => hdisjoint ?_⟩
  · exact Multiset.mem_add.mpr (Or.inr hqueued)
  · exact Multiset.mem_add.mpr (Or.inl (by simp [hhand]))

/-- The ring is consistent at every step, and what all workers have removed
together with what is still in the ring is what was inserted, which with the
descriptor in the acceptor's hand is what was accepted, in that order. The
`k`-th removal is therefore the `k`-th accepted connection. No descriptor is in
two slots, in a slot and with a worker, or with two workers. -/
theorem pool_fifo {s : Pool cfg} (h : (pool cfg).Reachable (.running s)) :
    s.queue.head < cfg.queueDepth ∧ s.queue.tail < cfg.queueDepth ∧
    s.queue.count ≤ cfg.queueDepth ∧
    s.queue.tail = (s.queue.head + s.queue.count) % cfg.queueDepth ∧
    s.popped.map Prod.snd ++ (List.range s.queue.count).map
      (fun k => s.queue.fds ((s.queue.head + k) % cfg.queueDepth)) = s.pushed ∧
    s.pushed ++ s.acceptor.hand.toList = s.accepted ∧
    (∀ (k : ℕ) (i : Fin cfg.numWorkers) (fd : ℕ),
      s.popped[k]? = some (i, fd) → s.accepted[k]? = some fd) ∧
    s.queue.contents.Nodup ∧
    (∀ i fd, (s.workers i).held = some fd →
      fd ∉ s.queue.contents ∧ s.acceptor.hand ≠ some fd) ∧
    ∀ i j fd, (s.workers i).held = some fd → (s.workers j).held = some fd → i = j := by
  obtain ⟨hlocked, hhandoff⟩ := reachable_handoff h
  have hvalid := hlocked.valid
  have hcontents := Ring.contents_eq_map s.queue.fds hvalid.head_lt s.queue.count
  rw [← hlocked.capacity]
  refine ⟨hvalid.head_lt, hvalid.tail_lt, hvalid.count_le, hvalid.tail_eq, ?_, hhandoff.order,
    ?_, hhandoff.contents_nodup, ?_, ?_⟩
  · rw [← hcontents]
    exact hhandoff.fifo
  · intro k i fd hk
    have hpopped : (s.popped.map Prod.snd)[k]? = some fd := by rw [List.getElem?_map, hk]; rfl
    obtain ⟨rest, hrest⟩ := hhandoff.popped_prefix
    obtain ⟨hlt, _⟩ := List.getElem?_eq_some_iff.mp hpopped
    rw [← hrest, List.getElem?_append_left hlt]
    exact hpopped
  · intro i fd hheld
    exact hhandoff.held_apart hheld
  · intro i j fd hi hj
    have hload := (Multiset.nodup_add.mp hhandoff.nodup).2.1
    exact eq_of_nodup_tally hload (mem_load hi) (mem_load hj)

theorem reachable_of_labels (cfg : Config) (memory : ℕ → ℕ) {p : Process (Pool cfg)}
    (labels : List (Label cfg.numWorkers))
    (h : (pool cfg).run (.running (.start cfg memory)) labels = some p) :
    (pool cfg).Reachable p :=
  Machine.reachable_of_run labels ⟨_, rfl, memory, rfl⟩ h

/-- Two workers and one slot, where the head is the tail both when the ring is
empty and when it is full. -/
def smallConfig : Config := (Config.ofArgs 2 1).get (by decide)

def firstWorker : Fin smallConfig.numWorkers := ⟨0, by decide⟩

/-- One connection is with the first worker, a second one is queued, and the
acceptor sleeps with a third. -/
def threeConnections : List (Label smallConfig.numWorkers) :=
  [.acceptor, .acceptReturns (.ok 5), .acceptor, .acceptor, .acceptor, .acceptor, .acceptor,
    .acceptor, .signalNotEmpty none,
    .worker firstWorker, .worker firstWorker, .worker firstWorker, .worker firstWorker,
    .worker firstWorker,
    .acceptor, .acceptReturns (.ok 6), .acceptor, .acceptor, .acceptor, .acceptor, .acceptor,
    .acceptor, .signalNotEmpty none,
    .acceptor, .acceptReturns (.ok 7), .acceptor, .acceptor, .acceptor, .acceptor]

theorem pool_fifo_threeConnections :
    ∃ s, (pool smallConfig).run (.running (.start smallConfig fun _ => 0)) threeConnections =
        some (.running s) ∧
      s.acceptor = .asleep 7 ∧ (s.workers firstWorker).held = some 5 ∧ s.accepted = [5, 6, 7] ∧
      s.popped.map Prod.snd ++ (List.range s.queue.count).map
        (fun k => s.queue.fds ((s.queue.head + k) % smallConfig.queueDepth)) = s.pushed := by
  refine ⟨_, rfl, rfl, rfl, rfl, ?_⟩
  exact (pool_fifo (reachable_of_labels smallConfig (fun _ => 0) threeConnections rfl)).2.2.2.2.1

end ConcurrentServers.ThreadPool

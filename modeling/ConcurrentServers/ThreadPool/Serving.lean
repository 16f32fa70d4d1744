import ConcurrentServers.ThreadPool.Fifo
import ConcurrentServers.Protocol.Service

/-!
# The calls of `serve_connection` in the thread pool

In `Model` a worker is inside `serve_connection` for one step. Here the call is
opened up: the worker at that point steps through the function, next to all other
threads, and goes on when it has returned. Leaving the calls out gives the pool of
`Model` back, and leaving the pool out gives the service of `Protocol.Service`.
-/

namespace ConcurrentServers.ThreadPool

open Systems Protocol

variable {cfg : Config}

/-- The call that a worker has made for the connection in its hands, which stays until
the connection is closed. The record of all calls is not in the source. -/
structure Serving (cfg : Config) where
  pool : Pool cfg
  stack : Fin cfg.numWorkers → Option Connection
  calls : ℕ → Option Connection

namespace Serving

inductive Label (n : ℕ) where
  | pool (l : ThreadPool.Label n)
  | enter (i : Fin n) (state : Protocol.ProcessingState) (recvbuf : List.Vector UInt8 recvbufSize)
  | answer (i : Fin n) (a : Answer)

def returned (v : Option Connection) : Bool := (v.bind Connection.result).isSome

/-- A worker leaves `serve_connection` only when it has returned. -/
def ready (s : Serving cfg) : ThreadPool.Label cfg.numWorkers → Bool
  | .worker i =>
      match s.pool.workers i with
      | .serving _ => returned (s.stack i)
      | _ => true
  | _ => true

/-- A worker is through with a call when it closes the connection. -/
def unwind (s : Serving cfg) : ThreadPool.Label cfg.numWorkers → Fin cfg.numWorkers →
    Option Connection
  | .worker i =>
      match s.pool.workers i with
      | .close _ => Function.update s.stack i none
      | _ => s.stack
  | _ => s.stack

def setCall (s : Serving cfg) (i : Fin cfg.numWorkers) (fd : ℕ) (v : Connection) : Serving cfg :=
  { s with
    stack := Function.update s.stack i (some v)
    calls := recordCall s.pool.descriptors s.calls fd v }

def step (s : Serving cfg) : Label cfg.numWorkers → Option (Process (Serving cfg))
  | .pool l =>
      if s.ready l then
        (s.pool.step l).map (Process.map fun p => { s with pool := p, stack := s.unwind l })
      else none
  | .enter i state recvbuf =>
      match s.pool.workers i, s.stack i with
      | .serving fd, none => some (.running (s.setCall i fd (.entry state recvbuf)))
      | _, _ => none
  | .answer i a =>
      match s.pool.workers i, s.stack i with
      | .serving fd, some v => (v.step a).map fun v' => .running (s.setCall i fd v')
      | _, _ => none

end Serving

def serving (cfg : Config) : Machine (Process (Serving cfg)) (Serving.Label cfg.numWorkers) :=
  Process.machine (fun s => ∃ memory, s = ⟨.start cfg memory, fun _ => none, fun _ => none⟩)
    Serving.step

/-! ## What one step can do -/

namespace Serving

variable {s s' : Serving cfg}

inductive Moves (s : Serving cfg) : Serving cfg → Prop where
  | pool {l : ThreadPool.Label cfg.numWorkers} {p : Pool cfg} (hready : s.ready l = true)
      (hp : s.pool.step l = some (.running p)) :
      Moves s { s with pool := p, stack := s.unwind l }
  | enter {i : Fin cfg.numWorkers} {fd : ℕ} (state : Protocol.ProcessingState)
      (recvbuf : List.Vector UInt8 recvbufSize) (hpc : s.pool.workers i = .serving fd)
      (hstack : s.stack i = none) : Moves s (s.setCall i fd (.entry state recvbuf))
  | answer {i : Fin cfg.numWorkers} {fd : ℕ} {v v' : Connection} {a : Answer}
      (hpc : s.pool.workers i = .serving fd) (hstack : s.stack i = some v)
      (hv : v.step a = some v') : Moves s (s.setCall i fd v')

theorem moves_of_step {l : Label cfg.numWorkers} (hs : s.step l = some (.running s')) :
    Moves s s' := by
  cases l with
  | pool l =>
      obtain ⟨hready, hs⟩ := Option.ite_none_right_eq_some.mp hs
      obtain ⟨p, hp, hs⟩ := Option.map_eq_some_iff.mp hs
      cases p with
      | running p =>
          cases hs
          exact .pool hready hp
      | exited => cases hs
  | enter i state recvbuf =>
      simp only [step] at hs
      split at hs
      · next hpc hstack =>
          cases hs
          exact .enter state recvbuf hpc hstack
      · cases hs
  | answer i a =>
      simp only [step] at hs
      split at hs
      · next hpc hstack =>
          obtain ⟨v', hv, hs⟩ := Option.map_eq_some_iff.mp hs
          cases hs
          exact .answer hpc hstack hv
      · cases hs

end Serving

/-- The pool runs as in `Model`, whatever happens inside the calls. -/
theorem serving_refines_pool (cfg : Config) :
    Refines (serving cfg) (pool cfg) (Process.map Serving.pool) := by
  refine Process.refines ?_ ?_ ?_
  · rintro _ ⟨memory, rfl⟩
    exact ⟨memory, rfl⟩
  · intro s l s' _ hs
    cases Serving.moves_of_step hs with
    | @pool l p hready hp => exact ⟨[l], Machine.run_singleton (M := pool cfg) hp⟩
    | enter state recvbuf hpc hstack => exact ⟨[], rfl⟩
    | answer hpc hstack hv => exact ⟨[], rfl⟩
  · intro s l hs
    cases l with
    | pool l =>
        obtain ⟨-, hs⟩ := Option.ite_none_right_eq_some.mp hs
        obtain ⟨p, hp, hs⟩ := Option.map_eq_some_iff.mp hs
        cases p with
        | running p => cases hs
        | exited => exact ⟨l, hp⟩
    | enter i state recvbuf =>
        simp only [Serving.step] at hs
        split at hs <;> cases hs
    | answer i a =>
        simp only [Serving.step] at hs
        split at hs
        · obtain ⟨v', hv, hs⟩ := Option.map_eq_some_iff.mp hs
          cases hs
        · cases hs

/-! ## The calls and the connections -/

/-- The call of a worker at each point of its loop. -/
def WorkerPc.Stage (pc : WorkerPc) (v : Option Connection) : Prop :=
  match pc with
  | .serving _ => True
  | .busyDown _ | .close _ => Serving.returned v = true
  | _ => v = none

/-- A connection in the hands of a worker has the call of that worker, and every other
one that is open has none yet. -/
structure Calls (ws : Fin cfg.numWorkers → WorkerPc) (d : Descriptors)
    (stack : Fin cfg.numWorkers → Option Connection) (calls : ℕ → Option Connection) : Prop where
  stage : ∀ i, (ws i).Stage (stack i)
  held : ∀ {i fd c}, (ws i).held = some fd → d.owner fd = some c → calls c = stack i
  waiting : ∀ {fd c}, (∀ i, (ws i).held ≠ some fd) → d.owner fd = some c → calls c = none
  fresh : ∀ c, d.fresh ≤ c → calls c = none

namespace Calls

variable {ws : Fin cfg.numWorkers → WorkerPc} {d : Descriptors}
  {stack : Fin cfg.numWorkers → Option Connection} {calls : ℕ → Option Connection}
  {i : Fin cfg.numWorkers} {fd : ℕ}

/-- A worker that moves on with what it holds. -/
theorem worker (h : Calls ws d stack calls) {pc' : WorkerPc} (hheld : pc'.held = (ws i).held)
    (hstage : pc'.Stage (stack i)) : Calls (Function.update ws i pc') d stack calls := by
  have hsame : ∀ j, (Function.update ws i pc' j).held = (ws j).held := by
    apply (Function.forall_update_iff ws (p := fun j pc => pc.held = (ws j).held)).mpr
    exact ⟨hheld, fun j _ => rfl⟩
  refine ⟨?_, ?_, ?_, h.fresh⟩
  · apply (Function.forall_update_iff ws (p := fun j pc => pc.Stage (stack j))).mpr
    exact ⟨hstage, fun j _ => h.stage j⟩
  · intro j fd c hj howner
    rw [hsame] at hj
    exact h.held hj howner
  · intro fd c hnobody howner
    apply h.waiting _ howner
    intro j
    rw [← hsame j]
    exact hnobody j

theorem accept (h : Calls ws d stack calls) (hnobody : ∀ j, (ws j).held ≠ some fd) :
    Calls ws (d.accept fd) stack calls := by
  refine ⟨h.stage, ?_, ?_, fun c hc => h.fresh c (Nat.le_of_succ_le hc)⟩
  · intro j fd' c hj howner
    have hne : fd' ≠ fd := by
      rintro rfl
      exact hnobody j hj
    rw [Descriptors.owner_accept_ne _ hne] at howner
    exact h.held hj howner
  · intro fd' c hnobody' howner
    rcases Descriptors.owner_accept_cases howner with howner | hfresh
    · exact h.waiting hnobody' howner
    · exact h.fresh c hfresh

theorem remove (h : Calls ws d stack calls) (hpc : ws i = .remove)
    (hnobody : ∀ j, (ws j).held ≠ some fd) :
    Calls (Function.update ws i (.unlock fd)) d stack calls := by
  have hstage : stack i = none := by
    have hstage := h.stage i
    rwa [hpc] at hstage
  refine ⟨?_, ?_, ?_, h.fresh⟩
  · apply (Function.forall_update_iff ws (p := fun j pc => pc.Stage (stack j))).mpr
    exact ⟨hstage, fun j _ => h.stage j⟩
  · intro j fd' c hj howner
    by_cases hij : j = i
    · subst hij
      rw [Function.update_self] at hj
      cases hj
      rw [h.waiting hnobody howner, hstage]
    · rw [Function.update_of_ne hij] at hj
      exact h.held hj howner
  · intro fd' c hnobody' howner
    apply h.waiting _ howner
    intro j hj
    have hij : j ≠ i := by
      rintro rfl
      rw [hpc] at hj
      cases hj
    apply hnobody' j
    rwa [Function.update_of_ne hij]

theorem close (h : Calls ws d stack calls) (hpc : ws i = .close fd) :
    Calls (Function.update ws i .countClosed) (d.close fd) (Function.update stack i none)
      calls := by
  refine ⟨?_, ?_, ?_, h.fresh⟩
  · intro j
    by_cases hij : j = i
    · rw [hij, Function.update_self, Function.update_self]
      rfl
    · rw [Function.update_of_ne hij, Function.update_of_ne hij]
      exact h.stage j
  · intro j fd' c hj howner
    have hij : j ≠ i := by
      rintro rfl
      rw [Function.update_self] at hj
      cases hj
    rw [Function.update_of_ne hij] at hj ⊢
    exact h.held hj (Descriptors.owner_of_owner_close howner)
  · intro fd' c hnobody howner
    have hne : fd' ≠ fd := by
      rintro rfl
      rw [Descriptors.owner_close_same] at howner
      cases howner
    apply h.waiting _ (Descriptors.owner_of_owner_close howner)
    intro j hj
    by_cases hij : j = i
    · subst hij
      rw [hpc] at hj
      exact hne (Option.some.inj hj).symm
    · apply hnobody j
      rwa [Function.update_of_ne hij]

theorem setCall (h : Calls ws d stack calls) (hpc : ws i = .serving fd)
    (hunique : ∀ j, (ws j).held = some fd → j = i) {c : ℕ} (howner : d.owner fd = some c)
    (v : Connection) :
    Calls ws d (Function.update stack i (some v)) (Function.update calls c (some v)) := by
  refine ⟨?_, ?_, ?_, ?_⟩
  · apply (Function.forall_update_iff stack (p := fun j v => (ws j).Stage v)).mpr
    refine ⟨?_, fun j _ => h.stage j⟩
    rw [hpc]
    trivial
  · intro j fd' c' hj howner'
    by_cases hij : j = i
    · subst hij
      rw [hpc] at hj
      cases hj
      cases howner'.symm.trans howner
      rw [Function.update_self, Function.update_self]
    · have hne : c' ≠ c := by
        rintro rfl
        have hfd := d.owner_inj howner' howner
        subst hfd
        exact hij (hunique j hj)
      rw [Function.update_of_ne hij, Function.update_of_ne hne]
      exact h.held hj howner'
  · intro fd' c' hnobody howner'
    have hne : c' ≠ c := by
      rintro rfl
      have hfd := d.owner_inj howner' howner
      subst hfd
      exact hnobody i (congrArg WorkerPc.held hpc)
    exact (Function.update_of_ne hne _ _).trans (h.waiting hnobody howner')
  · intro c' hc'
    have hne : c' ≠ c := by
      rintro rfl
      exact absurd (d.owner_lt howner) (Nat.not_lt.mpr hc')
    exact (Function.update_of_ne hne _ _).trans (h.fresh c' hc')

end Calls

/-! ## The steps of the pool -/

theorem acceptorStep_keeps {p p' : Pool cfg} (hs : acceptorStep p = some (.running p')) :
    p'.workers = p.workers ∧ p'.descriptors = p.descriptors := by
  unfold acceptorStep at hs
  split at hs <;> try split at hs
  all_goals
    cases hs
    try exact ⟨rfl, rfl⟩

theorem Pool.Handoff.live {p : Pool cfg} (h : p.Handoff) {i : Fin cfg.numWorkers} {fd : ℕ}
    (hheld : (p.workers i).held = some fd) : p.descriptors.owner fd ≠ none := by
  apply (h.live_iff fd).mp
  exact Multiset.mem_add.mpr (Or.inr (mem_tally.mpr ⟨i, mem_load hheld⟩))

theorem Pool.Handoff.unique {p : Pool cfg} (h : p.Handoff) {i j : Fin cfg.numWorkers} {fd : ℕ}
    (hi : (p.workers i).held = some fd) (hj : (p.workers j).held = some fd) : j = i := by
  have hload := (Multiset.nodup_add.mp h.nodup).2.1
  exact eq_of_nodup_tally hload (mem_load hj) (mem_load hi)

namespace Serving

variable {s s' : Serving cfg}

def Calls (s : Serving cfg) : Prop :=
  ThreadPool.Calls s.pool.workers s.pool.descriptors s.stack s.calls

theorem Calls.worker (h : s.Calls) {i : Fin cfg.numWorkers} {pc pc' : WorkerPc}
    (hpc : s.pool.workers i = pc) (hheld : pc'.held = pc.held)
    (hstage : pc.Stage (s.stack i) → pc'.Stage (s.stack i)) :
    ThreadPool.Calls (Function.update s.pool.workers i pc') s.pool.descriptors s.stack s.calls := by
  subst hpc
  exact ThreadPool.Calls.worker h hheld (hstage (h.stage i))

theorem Calls.acceptReturns (h : s.Calls) (hhandoff : s.pool.Handoff) {r : SysResult ℕ}
    {p : Pool cfg} (hp : ThreadPool.acceptReturns r s.pool = some (.running p)) :
    ThreadPool.Calls p.workers p.descriptors s.stack s.calls := by
  unfold ThreadPool.acceptReturns at hp
  cases r with
  | error e =>
      have hp := Option.some.inj hp
      unfold acceptFailed at hp
      split at hp
      · cases hp
        exact h
      · split at hp
        · cases hp
          exact h
        · cases hp
  | ok fd =>
      obtain ⟨hnone, hp⟩ := Option.ite_none_right_eq_some.mp hp
      cases hp
      exact ThreadPool.Calls.accept h fun j hj => hhandoff.live hj hnone

theorem Calls.workerStep (h : s.Calls) (hlocked : Locked s.pool.acceptor s.pool.workers
    s.pool.holder s.pool.queue) (hhandoff : s.pool.Handoff) {i : Fin cfg.numWorkers} {p : Pool cfg}
    (hready : s.ready (.worker i) = true)
    (hp : ThreadPool.workerStep s.pool i = some (.running p)) :
    ThreadPool.Calls p.workers p.descriptors (s.unwind (.worker i)) s.calls := by
  unfold ThreadPool.workerStep at hp
  cases hpc : s.pool.workers i with
  | lock | woken =>
      simp only [hpc] at hp
      obtain ⟨-, hp⟩ := Option.ite_none_right_eq_some.mp hp
      cases hp
      simp only [unwind, hpc]
      exact h.worker hpc rfl id
  | test =>
      simp only [hpc] at hp
      simp only [unwind, hpc]
      split at hp
      · cases hp
        exact h.worker hpc rfl id
      · cases hp
        exact h.worker hpc rfl id
  | asleep =>
      simp only [hpc] at hp
      cases hp
  | remove =>
      simp only [hpc] at hp
      cases hp
      simp only [unwind, hpc]
      have hcontents := FdQueue.contents_eq_front_cons (hlocked.item _ hpc)
      apply ThreadPool.Calls.remove h hpc
      intro j hj
      apply (hhandoff.held_apart hj).1
      rw [hcontents]
      exact List.mem_cons_self
  | serving fd =>
      simp only [hpc] at hp
      cases hp
      simp only [ready, hpc] at hready
      simp only [unwind, hpc]
      exact h.worker hpc rfl fun _ => hready
  | close fd =>
      simp only [hpc] at hp
      cases hp
      simp only [unwind, hpc]
      exact ThreadPool.Calls.close h hpc
  | busyUp fd =>
      simp only [hpc] at hp
      cases hp
      simp only [unwind, hpc]
      exact h.worker hpc rfl fun _ => trivial
  | unlock fd | signal fd | busyDown fd | countClosed =>
      simp only [hpc] at hp
      cases hp
      simp only [unwind, hpc]
      exact h.worker hpc rfl id

theorem Calls.pool (h : s.Calls) (hlocked : Locked s.pool.acceptor s.pool.workers
    s.pool.holder s.pool.queue) (hhandoff : s.pool.Handoff)
    {l : ThreadPool.Label cfg.numWorkers} {p : Pool cfg} (hready : s.ready l = true)
    (hp : s.pool.step l = some (.running p)) :
    ThreadPool.Calls p.workers p.descriptors (s.unwind l) s.calls := by
  cases l with
  | stopSignal =>
      cases hp
      exact h
  | acceptReturns r =>
      obtain ⟨-, hp⟩ := Option.ite_none_right_eq_some.mp hp
      exact h.acceptReturns hhandoff hp
  | acceptor =>
      obtain ⟨hworkers, hdescriptors⟩ := acceptorStep_keeps hp
      rw [hworkers, hdescriptors]
      exact h
  | signalNotEmpty sleeper =>
      cases sleeper with
      | none =>
          obtain ⟨-, hp⟩ := Option.ite_none_right_eq_some.mp hp
          cases hp
          exact h
      | some i =>
          obtain ⟨⟨-, hpc⟩, hp⟩ := Option.ite_none_right_eq_some.mp hp
          cases hp
          exact h.worker hpc rfl id
  | wakeAcceptor =>
      cases hp
      exact h
  | worker i => exact h.workerStep hlocked hhandoff hready hp
  | wakeWorker i =>
      obtain ⟨hpc, hp⟩ := Option.ite_none_right_eq_some.mp hp
      cases hp
      exact h.worker hpc rfl id

theorem Calls.setCall (h : s.Calls) (hhandoff : s.pool.Handoff) {i : Fin cfg.numWorkers} {fd : ℕ}
    (hpc : s.pool.workers i = .serving fd) (v : Connection) : (s.setCall i fd v).Calls := by
  have hheld : (s.pool.workers i).held = some fd := congrArg WorkerPc.held hpc
  obtain ⟨c, howner⟩ := Option.ne_none_iff_exists'.mp (hhandoff.live hheld)
  unfold Calls Serving.setCall
  rw [recordCall_of_owner howner]
  exact ThreadPool.Calls.setCall h hpc (fun j hj => hhandoff.unique hheld hj) howner v

theorem reachable_calls (h : (serving cfg).Reachable (.running s)) : s.Calls := by
  have hall : (Process.running s).All Calls := by
    refine Machine.Reachable.invariant (P := Process.All Calls) ?_ ?_ h
    · rintro _ ⟨_, rfl, memory, rfl⟩
      exact ⟨fun _ => rfl, nofun, nofun, fun _ _ => rfl⟩
    · intro p l q hreach hp hs
      cases p with
      | exited => cases hs
      | running s =>
          cases q with
          | exited => trivial
          | running s' =>
              have hpool := (serving_refines_pool cfg).reachable hreach
              obtain ⟨hlocked, hhandoff⟩ := reachable_handoff hpool
              cases moves_of_step hs with
              | pool hready hl => exact hp.pool hlocked hhandoff hready hl
              | enter state recvbuf hpc hstack => exact hp.setCall hhandoff hpc _
              | answer hpc hstack hv => exact hp.setCall hhandoff hpc _
  exact hall

/-! ## The service -/

/-- No connection that was accepted is refused. -/
def toService (s : Serving cfg) : Service := ⟨s.pool.descriptors, s.calls, []⟩

theorem toService_setCall {i : Fin cfg.numWorkers} {fd c : ℕ}
    (howner : s.pool.descriptors.owner fd = some c) (v : Connection) :
    (s.setCall i fd v).toService = s.toService.setCall c v := by
  unfold toService setCall Service.setCall
  rw [recordCall_of_owner howner]

theorem Calls.call (h : s.Calls) (hhandoff : s.pool.Handoff) {i : Fin cfg.numWorkers} {fd : ℕ}
    (hheld : (s.pool.workers i).held = some fd) :
    ∃ c, s.pool.descriptors.owner fd = some c ∧ s.calls c = s.stack i := by
  obtain ⟨c, howner⟩ := Option.ne_none_iff_exists'.mp (hhandoff.live hheld)
  exact ⟨c, howner, h.held hheld howner⟩

/-- Only two steps of the pool show in the service. -/
theorem service_of_pool (h : s.Calls) (hhandoff : s.pool.Handoff) {p : Pool cfg}
    (hm : ThreadPool.Moves s.pool p) (stack : Fin cfg.numWorkers → Option Connection) :
    ∃ bs, service.run (.running s.toService) bs =
      some (.running (toService ⟨p, stack, s.calls⟩)) := by
  cases hm with
  | @accepts fd hpc hnone => exact ⟨[.accept fd], Service.run_accept hnone⟩
  | @close i fd hpc =>
      have hheld : (s.pool.workers i).held = some fd := congrArg WorkerPc.held hpc
      obtain ⟨c, howner, hcall⟩ := h.call hhandoff hheld
      have hstage := h.stage i
      rw [hpc] at hstage
      obtain ⟨r, hr⟩ := Option.isSome_iff_exists.mp hstage
      obtain ⟨v, hv, hr⟩ := Option.bind_eq_some_iff.mp hr
      exact ⟨[.close fd], Service.run_close howner (hcall.trans hv) hr⟩
  | _ => exact ⟨[], rfl⟩

theorem Moves.service (hm : Moves s s') (h : s.Calls) (hhandoff : s.pool.Handoff) :
    ∃ bs, service.run (.running s.toService) bs = some (.running s'.toService) := by
  cases hm with
  | pool hready hp => exact service_of_pool h hhandoff (ThreadPool.moves_of_step hp) _
  | @enter i fd state recvbuf hpc hstack =>
      obtain ⟨c, howner, hcall⟩ := h.call hhandoff (congrArg WorkerPc.held hpc)
      refine ⟨[.enter fd state recvbuf], ?_⟩
      rw [toService_setCall howner]
      exact Service.run_enter howner (hcall.trans hstack) state recvbuf
  | @answer i fd v v' a hpc hstack hv =>
      obtain ⟨c, howner, hcall⟩ := h.call hhandoff (congrArg WorkerPc.held hpc)
      refine ⟨[.answer fd a], ?_⟩
      rw [toService_setCall howner]
      exact Service.run_answer howner (hcall.trans hstack) hv

end Serving

theorem pool_refines_service (cfg : Config) :
    Refines (serving cfg) service (Process.map Serving.toService) := by
  refine Process.refines ?_ ?_ ?_
  · rintro _ ⟨memory, rfl⟩
    rfl
  · intro s l s' hreach hs
    have hpool := (serving_refines_pool cfg).reachable hreach
    exact (Serving.moves_of_step hs).service (Serving.reachable_calls hreach)
      (reachable_handoff hpool).2
  · intro s l _
    exact ⟨.exit, rfl⟩

end ConcurrentServers.ThreadPool

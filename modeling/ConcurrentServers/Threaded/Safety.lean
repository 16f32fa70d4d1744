import ConcurrentServers.Threaded.Model

/-!
# Who holds what in the threaded server

A block of configuration and a descriptor each have one holder at any time, which
is `main` or one thread. `main` hands both over when `pthread_create` succeeds and
keeps both when it fails. From this it follows in every interleaving that no
memory is touched before it is allocated or after it is freed, that nothing is
freed or closed twice, and that nothing is left over when the threads are done.
-/

namespace ConcurrentServers.Threaded

open Systems Protocol

/-! ## Holders -/

/-- What a holder has, `none` being `main`. -/
def holding {β : Type*} (f : MainPc → Option β) (g : ThreadPc → Option β) (s : Server) :
    Option ℕ → Option β
  | none => f s.main
  | some t => (s.threads t).bind g

/-- The block that `main` will free or hand over. -/
def MainPc.config : MainPc → Option ℕ
  | .store _ p | .create _ p | .freeConfig _ p => some p
  | _ => none

def ThreadPc.config : ThreadPc → Option ℕ
  | .load p | .free p _ => some p
  | _ => none

def MainPc.fd : MainPc → Option ℕ
  | .malloc fd | .store fd _ | .create fd _ | .freeConfig fd _ | .drop fd => some fd
  | _ => none

/-- A thread that has not read its block yet holds the descriptor in it. -/
def ThreadPc.fd (heap : Heap ℕ) : ThreadPc → Option ℕ
  | .load p => heap.blocks p
  | .free _ fd | .serve fd | .serving fd _ => some fd
  | .done => none

def ThreadPc.call : ThreadPc → Option Connection
  | .serving _ v => some v
  | _ => none

abbrev Server.config (s : Server) : Option ℕ → Option ℕ := holding MainPc.config ThreadPc.config s

abbrev Server.fd (s : Server) : Option ℕ → Option ℕ := holding MainPc.fd (ThreadPc.fd s.heap) s

abbrev Server.call (s : Server) : Option ℕ → Option Connection :=
  holding (fun _ => none) ThreadPc.call s

section Holding

variable {β : Type*} {f : MainPc → Option β} {g g' : ThreadPc → Option β} {s s' : Server}

theorem holding_main (hthreads : s'.threads = s.threads) :
    holding f g s' = Function.update (holding f g s) none (f s'.main) := by
  funext i
  cases i with
  | none => rw [Function.update_self]; rfl
  | some t =>
      rw [Function.update_of_ne (Option.some_ne_none t)]
      exact congrArg (fun threads => (threads t).bind g) hthreads

theorem holding_both (t : ℕ) (pc : ThreadPc)
    (hthreads : s'.threads = Function.update s.threads t (some pc)) :
    holding f g s' =
      Function.update (Function.update (holding f g s) none (f s'.main)) (some t) (g pc) := by
  have hmain : holding f g { s with main := s'.main } = _ := holding_main (s := s) rfl
  rw [← hmain]
  funext i
  cases i with
  | none => rw [Function.update_of_ne (Option.some_ne_none t).symm]; rfl
  | some t' =>
      change (s'.threads t').bind g = _
      rw [hthreads]
      by_cases ht : t' = t
      · rw [ht, Function.update_self, Function.update_self]
        rfl
      · rw [Function.update_of_ne ht, Function.update_of_ne fun h => ht (Option.some.inj h)]
        rfl

theorem holding_setThread (hmain : s'.main = s.main) (t : ℕ) (pc : ThreadPc)
    (hthreads : s'.threads = Function.update s.threads t (some pc)) :
    holding f g s' = Function.update (holding f g s) (some t) (g pc) := by
  rw [holding_both t pc hthreads, hmain]
  congr
  exact Function.update_eq_self none (holding f g s)

theorem holding_main_keeps (hthreads : s'.threads = s.threads) (hf : f s'.main = f s.main) :
    holding f g s' = holding f g s := by
  rw [holding_main hthreads, hf]
  exact Function.update_eq_self none (holding f g s)

theorem holding_setThread_keeps (hmain : s'.main = s.main) {t : ℕ} {pc pc' : ThreadPc}
    (hpc : s.threads t = some pc)
    (hthreads : s'.threads = Function.update s.threads t (some pc')) (hg : g pc' = g pc) :
    holding f g s' = holding f g s := by
  have hsame : holding f g s (some t) = g pc := by
    change (s.threads t).bind g = _
    rw [hpc]
    rfl
  rw [holding_setThread hmain t pc' hthreads, hg, ← hsame]
  exact Function.update_eq_self (some t) (holding f g s)

theorem holding_congr (hg : ∀ t pc, s.threads t = some pc → g' pc = g pc) :
    holding f g' s = holding f g s := by
  funext i
  cases i with
  | none => rfl
  | some t => exact Option.bind_congr fun pc hpc => hg t pc hpc

end Holding

variable {s s' : Server}

theorem config_thread {t : ℕ} {pc : ThreadPc} (hpc : s.threads t = some pc) :
    s.config (some t) = pc.config := by
  change (s.threads t).bind _ = _
  rw [hpc]
  rfl

theorem fd_thread {t : ℕ} {pc : ThreadPc} (hpc : s.threads t = some pc) :
    s.fd (some t) = pc.fd s.heap := by
  change (s.threads t).bind _ = _
  rw [hpc]
  rfl

theorem call_thread {t : ℕ} {pc : ThreadPc} (hpc : s.threads t = some pc) :
    s.call (some t) = pc.call := by
  change (s.threads t).bind _ = _
  rw [hpc]
  rfl

/-- Threads that have not read their block do not see a change to other blocks. -/
theorem fd_heap {heap : Heap ℕ}
    (h : ∀ t p, s.threads t = some (.load p) → heap.blocks p = s.heap.blocks p) :
    holding MainPc.fd (ThreadPc.fd heap) s = s.fd := by
  apply holding_congr
  intro t pc hpc
  cases pc with
  | load p => exact h t p hpc
  | _ => rfl

/-! ## The blocks -/

/-- The state of the heap, and the threads there are. -/
structure Server.Blocks (s : Server) : Prop where
  owned : Owned (fun p => s.heap.blocks p ≠ none) s.config
  stored : ∀ fd p, s.main = .create fd p → s.heap.blocks p = some fd
  faultless : s.heap.faults = 0
  spawned : ∀ t, s.spawned ≤ t → s.threads t = none

theorem Server.Blocks.config_spawned (h : s.Blocks) : s.config (some s.spawned) = none := by
  change (s.threads s.spawned).bind _ = _
  rw [h.spawned _ le_rfl]
  rfl

/-- What `main` or a thread has in its hand is allocated. -/
theorem Server.Blocks.live_main (h : s.Blocks) {p : ℕ} (hp : s.main.config = some p) :
    s.heap.blocks p ≠ none :=
  h.owned.isLive (i := none) hp

theorem Server.Blocks.live_thread (h : s.Blocks) {t p : ℕ} {pc : ThreadPc}
    (hpc : s.threads t = some pc) (hp : pc.config = some p) : s.heap.blocks p ≠ none :=
  h.owned.isLive ((config_thread hpc).trans hp)

theorem spawned_setThread (h : s.Blocks) {t : ℕ} {pc pc' : ThreadPc} (hpc : s.threads t = some pc)
    {t' : ℕ} (ht' : s.spawned ≤ t') : Function.update s.threads t (some pc') t' = none := by
  have hne : t' ≠ t := by
    rintro rfl
    exact absurd ((h.spawned t' ht').symm.trans hpc) nofun
  exact (Function.update_of_ne hne _ _).trans (h.spawned t' ht')

/-- A step of `main` that leaves the heap alone. -/
theorem Server.Blocks.main_keeps (h : s.Blocks) (hthreads : s'.threads = s.threads)
    (hspawned : s'.spawned = s.spawned) (hheap : s'.heap = s.heap)
    (hconfig : s'.main.config = s.main.config) (hmain : ∀ fd p, s'.main ≠ .create fd p) :
    s'.Blocks := by
  refine ⟨?_, fun fd p hpc => absurd hpc (hmain fd p), ?_, ?_⟩
  · rw [hheap]
    exact h.owned.congr (fun _ => Iff.rfl) (holding_main_keeps hthreads hconfig)
  · rw [hheap]
    exact h.faultless
  · rw [hthreads, hspawned]
    exact h.spawned

/-- A step of a thread that leaves the heap alone. -/
theorem Server.Blocks.thread_keeps (h : s.Blocks) {t : ℕ} {pc pc' : ThreadPc}
    (hpc : s.threads t = some pc)
    (hthreads : s'.threads = Function.update s.threads t (some pc')) (hmain : s'.main = s.main)
    (hspawned : s'.spawned = s.spawned) (hheap : s'.heap = s.heap)
    (hconfig : pc'.config = pc.config) : s'.Blocks := by
  refine ⟨?_, ?_, ?_, ?_⟩
  · rw [hheap]
    exact h.owned.congr (fun _ => Iff.rfl) (holding_setThread_keeps hmain hpc hthreads hconfig)
  · rw [hmain, hheap]
    exact h.stored
  · rw [hheap]
    exact h.faultless
  · intro t' ht'
    rw [hspawned] at ht'
    rw [hthreads]
    exact spawned_setThread h hpc ht'

theorem Server.Blocks.malloc (h : s.Blocks) {fd p : ℕ} (content : ℕ) (hpc : s.main = .malloc fd)
    (hnone : s.heap.blocks p = none) :
    Server.Blocks { s with main := .store fd p, heap := s.heap.alloc p content } := by
  have hfree : s.config none = none := congrArg MainPc.config hpc
  refine ⟨?_, nofun, h.faultless, h.spawned⟩
  refine (h.owned.acquire hfree fun hlive => hlive hnone).congr ?_ (holding_main rfl)
  intro p'
  exact s.heap.live_alloc p content

theorem Server.Blocks.store (h : s.Blocks) {fd p : ℕ} (hpc : s.main = .store fd p) :
    Server.Blocks { s with main := .create fd p, heap := s.heap.store p fd } := by
  have hconfig : s.main.config = some p := congrArg MainPc.config hpc
  have hlive := h.live_main hconfig
  rw [Heap.store_of_live hlive]
  refine ⟨?_, ?_, h.faultless, h.spawned⟩
  · refine h.owned.congr ?_ (holding_main_keeps rfl hconfig.symm)
    intro p'
    rw [Heap.live_alloc]
    exact ⟨fun hp' => hp'.elim (fun heq => heq ▸ hlive) id, Or.inr⟩
  · rintro _ _ ⟨⟩
    exact Function.update_self ..

theorem Server.Blocks.created (h : s.Blocks) {fd p : ℕ} (hpc : s.main = .create fd p) :
    Server.Blocks ({ s with main := .detach s.spawned, spawned := s.spawned + 1 }.setThread
      s.spawned (.load p)) := by
  have hconfig : s.config none = some p := congrArg MainPc.config hpc
  refine ⟨?_, nofun, h.faultless, ?_⟩
  · exact (h.owned.transfer hconfig h.config_spawned).congr (fun _ => Iff.rfl)
      (holding_both s.spawned (.load p) rfl)
  · intro t ht
    have hne : t ≠ s.spawned := Nat.ne_of_gt ht
    exact (Function.update_of_ne hne _ _).trans (h.spawned t (Nat.le_of_succ_le ht))

theorem Server.Blocks.freeConfig (h : s.Blocks) {fd p : ℕ} (hpc : s.main = .freeConfig fd p) :
    Server.Blocks { s with main := .drop fd, heap := s.heap.free p } := by
  have hconfig : s.config none = some p := congrArg MainPc.config hpc
  have hlive := h.owned.isLive hconfig
  refine ⟨?_, nofun, ?_, h.spawned⟩
  · refine (h.owned.release hconfig).congr ?_ (holding_main rfl)
    intro p'
    exact Heap.live_free hlive
  · rw [Heap.free_of_live hlive]
    exact h.faultless

theorem Server.Blocks.free (h : s.Blocks) {t fd p : ℕ} (hpc : s.threads t = some (.free p fd)) :
    Server.Blocks ({ s with heap := s.heap.free p }.setThread t (.serve fd)) := by
  have hconfig : s.config (some t) = some p := config_thread hpc
  have hlive := h.owned.isLive hconfig
  refine ⟨?_, ?_, ?_, fun t' ht' => spawned_setThread h hpc ht'⟩
  · apply (h.owned.release hconfig).congr
    · intro p'
      exact Heap.live_free hlive
    · exact holding_setThread (by rfl) t (.serve fd) (by rfl)
  · -- The block that `main` is about to hand over is not the one of this thread.
    intro fd' p' hmain
    have hne : p' ≠ p := by
      rintro rfl
      have hconfig' : s.config none = some p' := congrArg MainPc.config hmain
      exact absurd (h.owned.unique hconfig' hconfig).symm (Option.some_ne_none t)
    change (s.heap.free p).blocks p' = some fd'
    rw [Heap.free_of_live hlive]
    exact (Function.update_of_ne hne _ _).trans (h.stored fd' p' hmain)
  · change (s.heap.free p).faults = 0
    rw [Heap.free_of_live hlive]
    exact h.faultless

theorem Server.Blocks.moves (h : s.Blocks) (hm : Moves s s') : s'.Blocks := by
  cases hm with
  | interrupted => exact h
  | accept hpc hnone => exact h.main_keeps rfl rfl rfl (congrArg MainPc.config hpc).symm nofun
  | malloc content hpc hnone => exact h.malloc content hpc hnone
  | store hpc => exact h.store hpc
  | created hpc => exact h.created hpc
  | notCreated hpc => exact h.main_keeps rfl rfl rfl (congrArg MainPc.config hpc).symm nofun
  | freeConfig hpc => exact h.freeConfig hpc
  | drop hpc => exact h.main_keeps rfl rfl rfl (congrArg MainPc.config hpc).symm nofun
  | detach hpc => exact h.main_keeps rfl rfl rfl (congrArg MainPc.config hpc).symm nofun
  | load hpc hp => exact h.thread_keeps hpc rfl rfl rfl rfl rfl
  | loadFault hpc hp => exact absurd hp (h.live_thread hpc rfl)
  | free hpc => exact h.free hpc
  | enter state recvbuf hpc => exact h.thread_keeps hpc rfl rfl rfl rfl rfl
  | answer hpc hv => exact h.thread_keeps hpc rfl rfl rfl rfl rfl
  | close hpc hr => exact h.thread_keeps hpc rfl rfl rfl rfl rfl

/-! ## The descriptors and the calls -/

theorem fd_main_keeps (hthreads : s'.threads = s.threads) (hfd : s'.main.fd = s.main.fd)
    (hheap : ∀ t p, s.threads t = some (.load p) → s'.heap.blocks p = s.heap.blocks p) :
    s'.fd = s.fd := by
  rw [Server.fd, holding_main_keeps hthreads hfd]
  exact fd_heap hheap

theorem fd_thread_keeps {t : ℕ} {pc pc' : ThreadPc} (hpc : s.threads t = some pc)
    (hthreads : s'.threads = Function.update s.threads t (some pc')) (hmain : s'.main = s.main)
    (hfd : pc'.fd s'.heap = pc.fd s.heap)
    (hheap : ∀ t' p, t' ≠ t → s.threads t' = some (.load p) →
      s'.heap.blocks p = s.heap.blocks p) : s'.fd = s.fd := by
  funext i
  cases i with
  | none => exact congrArg MainPc.fd hmain
  | some t' =>
      change (s'.threads t').bind _ = (s.threads t').bind _
      rw [hthreads]
      by_cases ht : t' = t
      · rw [ht, Function.update_self, hpc]
        exact hfd
      · rw [Function.update_of_ne ht]
        apply Option.bind_congr
        intro pc'' hpc''
        cases pc'' with
        | load p => exact hheap t' p ht hpc''
        | _ => rfl

/-- A thread at its first step does not hold the block of another holder. -/
theorem Server.Blocks.load_ne (h : s.Blocks) {i : Option ℕ} {p : ℕ} (hi : s.config i = some p)
    {t p' : ℕ} (hne : some t ≠ i) (hload : s.threads t = some (.load p')) : p' ≠ p := by
  rintro rfl
  exact hne (h.owned.unique (config_thread hload) hi)

theorem fd_malloc (h : s.Blocks) {fd p : ℕ} (content : ℕ) (hpc : s.main = .malloc fd)
    (hnone : s.heap.blocks p = none) :
    Server.fd { s with main := .store fd p, heap := s.heap.alloc p content } = s.fd := by
  refine fd_main_keeps rfl (congrArg MainPc.fd hpc).symm ?_
  intro t p' hload
  have hne : p' ≠ p := by
    rintro rfl
    exact h.live_thread hload rfl hnone
  exact Function.update_of_ne hne _ _

theorem fd_store (h : s.Blocks) {fd p : ℕ} (hpc : s.main = .store fd p) :
    Server.fd { s with main := .create fd p, heap := s.heap.store p fd } = s.fd := by
  have hconfig : s.config none = some p := congrArg MainPc.config hpc
  refine fd_main_keeps rfl (congrArg MainPc.fd hpc).symm ?_
  intro t p' hload
  change (s.heap.store p fd).blocks p' = _
  rw [Heap.store_of_live (h.owned.isLive hconfig)]
  exact Function.update_of_ne (h.load_ne hconfig nofun hload) _ _

theorem fd_freeConfig (h : s.Blocks) {fd p : ℕ} (hpc : s.main = .freeConfig fd p) :
    Server.fd { s with main := .drop fd, heap := s.heap.free p } = s.fd := by
  have hconfig : s.config none = some p := congrArg MainPc.config hpc
  refine fd_main_keeps rfl (congrArg MainPc.fd hpc).symm ?_
  intro t p' hload
  change (s.heap.free p).blocks p' = _
  rw [Heap.free_of_live (h.owned.isLive hconfig)]
  exact Function.update_of_ne (h.load_ne hconfig nofun hload) _ _

theorem fd_free (h : s.Blocks) {t fd p : ℕ} (hpc : s.threads t = some (.free p fd)) :
    Server.fd ({ s with heap := s.heap.free p }.setThread t (.serve fd)) = s.fd := by
  have hconfig : s.config (some t) = some p := config_thread hpc
  refine fd_thread_keeps hpc rfl rfl rfl ?_
  intro t' p' ht' hload
  have hne : some t' ≠ some t := fun heq => ht' (Option.some.inj heq)
  change (s.heap.free p).blocks p' = _
  rw [Heap.free_of_live (h.owned.isLive hconfig)]
  exact Function.update_of_ne (h.load_ne hconfig hne hload) _ _

def Server.Custody (s : Server) : Prop :=
  Protocol.Custody s.descriptors s.calls s.fd s.call

theorem Server.Custody.created (h : s.Custody) (hblocks : s.Blocks) {fd p : ℕ}
    (hpc : s.main = .create fd p) :
    Server.Custody ({ s with main := .detach s.spawned, spawned := s.spawned + 1 }.setThread
      s.spawned (.load p)) := by
  have hfd : s.fd none = some fd := congrArg MainPc.fd hpc
  have hnew : s.fd (some s.spawned) = none := by
    change (s.threads s.spawned).bind _ = _
    rw [hblocks.spawned _ le_rfl]
    rfl
  have hblock : (ThreadPc.load p).fd s.heap = some fd := hblocks.stored fd p hpc
  apply (Protocol.Custody.transfer h hfd hnew rfl).congr
  · rw [← hblock]
    exact holding_both s.spawned (.load p) rfl
  · exact holding_both s.spawned (.load p) rfl

theorem Server.Custody.setCall (h : s.Custody) {t fd : ℕ} {pc : ThreadPc}
    (hpc : s.threads t = some pc) (hfd : pc.fd s.heap = some fd) (v : Connection) :
    (s.setCall t fd v).Custody := by
  have hheld : s.fd (some t) = some fd := (fd_thread hpc).trans hfd
  apply (Protocol.Custody.setCall h hheld v).congr
  · exact fd_thread_keeps hpc rfl rfl hfd.symm fun _ _ _ _ => rfl
  · exact holding_setThread (by rfl) t (.serving fd v) (by rfl)

theorem Server.Custody.moves (h : s.Custody) (hblocks : s.Blocks) (hm : Moves s s') :
    s'.Custody := by
  cases hm with
  | interrupted => exact h
  | @accept fd hpc hnone =>
      have hfree : s.fd none = none := congrArg MainPc.fd hpc
      apply (Protocol.Custody.accept h hfree hnone).congr
      · exact holding_main (by rfl)
      · exact holding_main (by rfl)
  | malloc content hpc hnone =>
      exact h.congr (fd_malloc hblocks content hpc hnone) (holding_main_keeps rfl rfl)
  | store hpc => exact h.congr (fd_store hblocks hpc) (holding_main_keeps rfl rfl)
  | created hpc => exact h.created hblocks hpc
  | notCreated hpc =>
      refine h.congr ?_ (holding_main_keeps rfl rfl)
      exact holding_main_keeps rfl (congrArg MainPc.fd hpc).symm
  | freeConfig hpc => exact h.congr (fd_freeConfig hblocks hpc) (holding_main_keeps rfl rfl)
  | @drop fd hpc =>
      have hfd : s.fd none = some fd := congrArg MainPc.fd hpc
      apply (Protocol.Custody.close h hfd).congr
      · exact holding_main (by rfl)
      · exact holding_main (by rfl)
  | detach hpc =>
      refine h.congr ?_ (holding_main_keeps rfl rfl)
      exact holding_main_keeps rfl (congrArg MainPc.fd hpc).symm
  | load hpc hp =>
      refine h.congr ?_ (holding_setThread_keeps rfl hpc rfl rfl)
      exact fd_thread_keeps hpc rfl rfl hp.symm fun _ _ _ _ => rfl
  | loadFault hpc hp => exact absurd hp (hblocks.live_thread hpc rfl)
  | free hpc => exact h.congr (fd_free hblocks hpc) (holding_setThread_keeps rfl hpc rfl rfl)
  | enter state recvbuf hpc => exact h.setCall hpc rfl _
  | answer hpc hv => exact h.setCall hpc rfl _
  | @close t fd v r hpc hr =>
      have hfd : s.fd (some t) = some fd := fd_thread hpc
      apply (Protocol.Custody.close h hfd).congr
      · exact holding_setThread (by rfl) t .done (by rfl)
      · exact holding_setThread (by rfl) t .done (by rfl)

/-! ## The threads -/

/-- The thread that has been created but not detached. -/
def MainPc.joinable : MainPc → Option ℕ
  | .detach t => some t
  | _ => none

def Server.Detached (s : Server) : Prop :=
  s.detached ++ s.main.joinable.toList = List.range s.spawned

theorem Server.Detached.moves (h : s.Detached) (hm : Moves s s') : s'.Detached := by
  unfold Server.Detached at h ⊢
  cases hm with
  | created hpc =>
      rw [hpc] at h
      have hrange : s.detached = List.range s.spawned := (List.append_nil _).symm.trans h
      change s.detached ++ [s.spawned] = List.range (s.spawned + 1)
      rw [List.range_succ, hrange]
  | detach hpc =>
      rw [hpc] at h
      exact (List.append_nil _).trans h
  | accept hpc | malloc _ hpc | store hpc | notCreated hpc | freeConfig hpc | drop hpc =>
      rwa [hpc] at h
  | _ => exact h

/-! ## Whole runs -/

structure Server.Safe (s : Server) : Prop where
  blocks : s.Blocks
  custody : s.Custody
  detached : s.Detached

theorem Server.Safe.moves (h : s.Safe) (hm : Moves s s') : s'.Safe :=
  ⟨h.blocks.moves hm, h.custody.moves h.blocks hm, h.detached.moves hm⟩

theorem safe_start : Server.start.Safe := by
  have hnobody : holding MainPc.config ThreadPc.config Server.start = fun _ => none := by
    funext i
    cases i <;> rfl
  have hnofd : Server.start.fd = fun _ => none := by
    funext i
    cases i <;> rfl
  refine ⟨⟨?_, nofun, rfl, fun _ _ => rfl⟩, ?_, rfl⟩
  · exact (Owned.empty fun p hp => hp rfl).congr (fun _ => Iff.rfl) hnobody
  · exact Protocol.Custody.empty.congr hnofd rfl

theorem reachable_safe (h : threaded.Reachable (.running s)) : s.Safe := by
  apply Process.machine_invariant _ _ h
  · rintro _ rfl
    exact safe_start
  · intro s l s' hsafe hs
    exact hsafe.moves (moves_of_step hs)

/-- When `main` waits for the next peer and every thread is done, nobody holds anything. -/
theorem holding_idle {β : Type*} {f : MainPc → Option β} {g : ThreadPc → Option β}
    (hmain : f s.main = none) (hdone : ∀ t pc, s.threads t = some pc → g pc = none)
    (i : Option ℕ) : holding f g s i = none := by
  cases i with
  | none => exact hmain
  | some t => exact Option.bind_eq_none_iff.mpr (hdone t)

/-- No interleaving touches memory that is not allocated. Every block and every open
descriptor is in one hand, and none is left when the threads are done. -/
theorem threaded_owns (h : threaded.Reachable (.running s)) :
    s.heap.faults = 0 ∧
      (∀ p, s.heap.blocks p ≠ none → ∃! i, s.config i = some p) ∧
      (∀ i p, s.config i = some p → s.heap.blocks p ≠ none) ∧
      (∀ fd, s.descriptors.owner fd ≠ none → ∃! i, s.fd i = some fd) ∧
      (∀ i fd, s.fd i = some fd → s.descriptors.owner fd ≠ none) ∧
      (s.main = .accept → (∀ t pc, s.threads t = some pc → pc = .done) →
        (∀ p, s.heap.blocks p = none) ∧ (∀ fd, s.descriptors.owner fd = none) ∧
          s.detached = List.range s.spawned) := by
  obtain ⟨hblocks, hcustody, hdetached⟩ := reachable_safe h
  refine ⟨hblocks.faultless, fun p hp => hblocks.owned.existsUnique hp,
    fun i p hi => hblocks.owned.isLive hi, fun fd hfd => hcustody.owned.existsUnique hfd,
    fun i fd hi => hcustody.owned.isLive hi, ?_⟩
  intro hmain hdone
  refine ⟨?_, ?_, ?_⟩
  · intro p
    by_contra hp
    refine hblocks.owned.not_live (holding_idle ?_ ?_) p hp
    · exact congrArg MainPc.config hmain
    · intro t pc hpc
      exact congrArg ThreadPc.config (hdone t pc hpc)
  · intro fd
    by_contra hfd
    refine hcustody.owned.not_live (holding_idle ?_ ?_) fd hfd
    · exact congrArg MainPc.fd hmain
    · intro t pc hpc
      exact congrArg (ThreadPc.fd s.heap) (hdone t pc hpc)
  · unfold Server.Detached at hdetached
    rw [hmain] at hdetached
    exact (List.append_nil _).symm.trans hdetached

theorem reachable_of_labels {p : Process Server} (labels : List Label)
    (h : threaded.run (.running .start) labels = some p) : threaded.Reachable p :=
  Machine.reachable_of_run labels ⟨_, rfl, rfl⟩ h

/-- The first thread is done before it is detached. The second one is not created. The
allocator and the kernel return the same numbers again. -/
def secondDropped : List Label :=
  [.accept (.ok 5), .malloc (some (8, 0)), .main, .create true, .thread 0, .thread 0,
    .enter 0 .waitForMsg (.replicate _ 0), .answer 0 (.send (.error .epipe)), .thread 0, .main,
    .accept (.ok 5), .malloc (some (8, 0)), .main, .create false, .main, .main]

theorem run_secondDropped :
    ∃ s, threaded.run (.running .start) secondDropped = some (.running s) ∧
      s.descriptors.closed = [0, 1] ∧ s.refused = [1] ∧ s.main = .accept ∧ s.spawned = 1 ∧
      s.threads 0 = some .done :=
  ⟨_, rfl, rfl, rfl, rfl, rfl, rfl⟩

theorem threaded_owns_secondDropped :
    ∃ s, threaded.run (.running .start) secondDropped = some (.running s) ∧
      s.descriptors.closed = [0, 1] ∧ s.refused = [1] ∧
      (∀ p, s.heap.blocks p = none) ∧ s.detached = [0] := by
  obtain ⟨s, hrun, hclosed, hrefused, hmain, hspawned, hdone⟩ := run_secondDropped
  have hreach := reachable_of_labels secondDropped hrun
  have hthreads : ∀ t pc, s.threads t = some pc → pc = .done := by
    intro t pc hpc
    rcases Nat.eq_zero_or_pos t with rfl | hpos
    · exact Option.some.inj (hpc.symm.trans hdone)
    · have hnone := (reachable_safe hreach).blocks.spawned t (hspawned ▸ hpos)
      exact absurd (hnone.symm.trans hpc) nofun
  obtain ⟨hblocks, -, hdetached⟩ := (threaded_owns hreach).2.2.2.2.2 hmain hthreads
  rw [hspawned] at hdetached
  exact ⟨s, hrun, hclosed, hrefused, hblocks, hdetached⟩

end ConcurrentServers.Threaded

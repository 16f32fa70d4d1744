import ConcurrentServers.Select.Model
import ConcurrentServers.EventLoop

/-!
# The master sets of the select server

The two master sets together are what the abstract loop watches. Every action
of the server is a step of that loop, leaves the listener's bits alone and keeps
`fdset_max` above every bit, so a descriptor is in one set at most and the sets
hold the open connections.
-/

namespace ConcurrentServers.Select

open Systems

/-! ## The server follows the loop -/

/-- What two sets of descriptors ask for. -/
def watchedFor (readfds writefds : Finset ℕ) (fd : ℕ) : Option FdStatus :=
  if fd ∈ readfds ∨ fd ∈ writefds then some ⟨fd ∈ readfds, fd ∈ writefds⟩ else none

def Server.toLoop (cfg : Config) (s : Server) : EventLoop where
  table := s.table
  interest fd :=
    if fd = cfg.listener then none else watchedFor s.readfdsMaster s.writefdsMaster fd
  descriptors := s.descriptors
  closes := s.closes

variable {cfg : Config} {s s' : Server} {fd : ℕ}

theorem mem_setBit_same (fds : Finset ℕ) (fd : ℕ) (b : Bool) :
    fd ∈ setBit fds fd b ↔ b = true := by
  cases b <;> simp [setBit]

theorem mem_setBit_ne (fds : Finset ℕ) {fd fd' : ℕ} (b : Bool) (hne : fd' ≠ fd) :
    fd' ∈ setBit fds fd b ↔ fd' ∈ fds := by
  cases b <;> simp [setBit, hne]

theorem watchedFor_setBit_same (readfds writefds : Finset ℕ) (fd : ℕ) (status : FdStatus) :
    watchedFor (setBit readfds fd status.wantRead) (setBit writefds fd status.wantWrite) fd =
      if status = fdStatusNORW then none else some status := by
  cases status with
  | mk r w => cases r <;> cases w <;> simp [watchedFor, mem_setBit_same, fdStatusNORW]

theorem watchedFor_setBit_ne (readfds writefds : Finset ℕ) {fd fd' : ℕ} (a b : Bool)
    (hne : fd' ≠ fd) :
    watchedFor (setBit readfds fd a) (setBit writefds fd b) fd' =
      watchedFor readfds writefds fd' := by
  simp only [watchedFor, mem_setBit_ne _ _ hne]

theorem mem_iff_of_watchedFor_eq {readfds writefds readfds' writefds' : Finset ℕ}
    (h : watchedFor readfds' writefds' fd = watchedFor readfds writefds fd) :
    (fd ∈ readfds' ↔ fd ∈ readfds) ∧ (fd ∈ writefds' ↔ fd ∈ writefds) := by
  unfold watchedFor at h
  split at h
  · split at h
    · simpa using h
    · cases h
  · split at h
    · cases h
    · simp_all

theorem toLoop_interest (hne : fd ≠ cfg.listener) :
    (s.toLoop cfg).interest fd = watchedFor s.readfdsMaster s.writefdsMaster fd :=
  if_neg hne

/-- The master sets after `apply_status`, seen by the loop. -/
theorem interest_setBits (hne : fd ≠ cfg.listener) (status : FdStatus) :
    (fun fd' => if fd' = cfg.listener then none else
      watchedFor (setBit s.readfdsMaster fd status.wantRead)
        (setBit s.writefdsMaster fd status.wantWrite) fd') =
    Function.update (s.toLoop cfg).interest fd
      (if status = fdStatusNORW then none else some status) := by
  funext fd'
  by_cases hfd : fd' = fd
  · rw [hfd, Function.update_self, if_neg hne, watchedFor_setBit_same]
  · rw [Function.update_of_ne hfd, watchedFor_setBit_ne _ _ _ _ hfd]
    rfl

theorem toLoop_applyStatus (hne : fd ≠ cfg.listener) (v : PeerTable × FdStatus) :
    (applyStatus fd v s).toLoop cfg = (s.toLoop cfg).apply fd v := by
  have hbits := interest_setBits (s := s) hne v.2
  unfold applyStatus EventLoop.apply
  by_cases hnorw : v.2 = fdStatusNORW
  · rw [if_pos ((wants_nothing_iff _).mpr hnorw), if_pos hnorw]
    rw [if_pos hnorw] at hbits
    simp only [Server.toLoop, Server.close, EventLoop.close] at hbits ⊢
    rw [hbits]
  · rw [if_neg (fun h => hnorw ((wants_nothing_iff _).mp h)), if_neg hnorw]
    rw [if_neg hnorw] at hbits
    simp only [Server.toLoop, EventLoop.watch] at hbits ⊢
    rw [hbits]

/-! ## Actions between two points of a sweep -/

/-- The master set for reading or for writing. -/
def Server.master (s : Server) (write : Bool) : Finset ℕ :=
  if write then s.writefdsMaster else s.readfdsMaster

/-- What an action of the server on behalf of `t` does to the variables outside
the sweep. -/
structure Follows (cfg : Config) (t : Option ℕ) (s s' : Server) : Prop where
  loop : (s.toLoop cfg).Step cfg.reserved t (s'.toLoop cfg)
  listener : ∀ write, cfg.listener ∈ s'.master write ↔ cfg.listener ∈ s.master write
  fdsetMax_le : s.fdsetMax ≤ s'.fdsetMax
  master_le : ∀ write fd, fd ∈ s'.master write → fd ∈ s.master write ∨ fd ≤ s'.fdsetMax

theorem Follows.idle (cfg : Config) (t : Option ℕ) (s : Server) : Follows cfg t s s :=
  ⟨.idle t, fun _ => Iff.rfl, le_rfl, fun _ _ h => Or.inl h⟩

theorem fdsetMax_applyStatus (fd : ℕ) (v : PeerTable × FdStatus) (s : Server) :
    (applyStatus fd v s).fdsetMax = s.fdsetMax := by
  unfold applyStatus
  split <;> rfl

theorem mem_master_applyStatus_ne {fd fd' : ℕ} (v : PeerTable × FdStatus) (write : Bool)
    (hne : fd' ≠ fd) : fd' ∈ (applyStatus fd v s).master write ↔ fd' ∈ s.master write := by
  have hmaster : (applyStatus fd v s).master write =
      setBit (s.master write) fd (if write then v.2.wantWrite else v.2.wantRead) := by
    unfold applyStatus
    cases write <;> split <;> rfl
  rw [hmaster, mem_setBit_ne _ _ hne]

/-- `apply_status` after the loop may have raised `fdset_max`. -/
theorem Follows.applyStatus {t : Option ℕ} {s₁ : Server} {v : PeerTable × FdStatus}
    (hne : fd ≠ cfg.listener) (hmaster : s₁.master = s.master)
    (hmax : s.fdsetMax ≤ s₁.fdsetMax) (hle : fd ≤ s₁.fdsetMax)
    (hstep : (s.toLoop cfg).Step cfg.reserved t ((s₁.toLoop cfg).apply fd v)) :
    Follows cfg t s (applyStatus fd v s₁) := by
  refine ⟨?_, ?_, ?_, ?_⟩
  · rw [toLoop_applyStatus hne]
    exact hstep
  · intro write
    rw [mem_master_applyStatus_ne v write (Ne.symm hne), hmaster]
  · rw [fdsetMax_applyStatus]
    exact hmax
  · intro write fd' hmem
    by_cases hfd : fd' = fd
    · right
      rw [fdsetMax_applyStatus, hfd]
      exact hle
    · left
      rw [mem_master_applyStatus_ne v write hfd, hmaster] at hmem
      exact hmem

/-! ## The invariant outside a sweep -/

structure Valid (cfg : Config) (s : Server) : Prop where
  sound : EventLoop.Sound cfg.reserved none (s.toLoop cfg)
  capacity : s.table.peerCapacity = maxFds
  listener_mem : ∀ write, cfg.listener ∈ s.master write ↔ write = false
  master_le : ∀ write fd, fd ∈ s.master write → fd ≤ s.fdsetMax

theorem Valid.follows (h : Valid cfg s) {t : Option ℕ} (hs : Follows cfg t s s') :
    Valid cfg s' := by
  refine ⟨h.sound.step hs.loop, hs.loop.capacity.trans h.capacity, ?_, ?_⟩
  · intro write
    rw [hs.listener, h.listener_mem]
  · intro write fd hmem
    rcases hs.master_le write fd hmem with hmem | hle
    · exact (h.master_le write fd hmem).trans hs.fdsetMax_le
    · exact hle

theorem Valid.owner_listener (h : Valid cfg s) : s.descriptors.owner cfg.listener = none :=
  h.sound.unwatched cfg.listener (by simp) (if_pos rfl)

theorem toLoop_interest_mem (hne : fd ≠ cfg.listener) {write : Bool}
    (hmem : fd ∈ s.master write) :
    (s.toLoop cfg).interest fd = some ⟨fd ∈ s.master false, fd ∈ s.master true⟩ := by
  rw [toLoop_interest hne]
  apply if_pos
  cases write with
  | false => exact Or.inl hmem
  | true => exact Or.inr hmem

/-- A descriptor is in one of the master sets at most. -/
theorem Valid.notMem_other (h : Valid cfg s) {write : Bool} (hmem : fd ∈ s.master write) :
    fd ∉ s.master !write := by
  by_cases hne : fd = cfg.listener
  · subst hne
    rw [h.listener_mem] at hmem ⊢
    simp [hmem]
  · have hagrees := (h.sound.watched fd _ (by simp) (toLoop_interest_mem hne hmem)).agrees
    intro hother
    have hboth : fd ∈ s.master false ∧ fd ∈ s.master true := by
      cases write with
      | false => exact ⟨hmem, hother⟩
      | true => exact ⟨hother, hmem⟩
    rcases hagrees with ⟨hstatus, _⟩ | ⟨hstatus, _⟩
    · simp [hboth.1, fdStatusW] at hstatus
    · simp [hboth.2, fdStatusR] at hstatus

theorem Valid.owner_ne_none (h : Valid cfg s) (hne : fd ≠ cfg.listener) {write : Bool}
    (hmem : fd ∈ s.master write) : s.descriptors.owner fd ≠ none :=
  h.sound.owner_ne_none (toLoop_interest_mem hne hmem)

/-- An action leaves the bits of the other open connections alone. -/
theorem Follows.mem_master_iff {t : Option ℕ} (hs : Follows cfg t s s')
    (hne : fd ≠ cfg.listener) (hopen : s.descriptors.owner fd ≠ none) (ht : t ≠ some fd)
    (write : Bool) : fd ∈ s'.master write ↔ fd ∈ s.master write := by
  obtain ⟨_, hinterest⟩ := hs.loop.frame hopen ht
  rw [toLoop_interest hne, toLoop_interest hne] at hinterest
  obtain ⟨hread, hwrite⟩ := mem_iff_of_watchedFor_eq hinterest
  cases write with
  | false => exact hread
  | true => exact hwrite

/-! ## Accepting a connection -/

/-- A refused connection was in neither set. -/
theorem toLoop_reject (h : Valid cfg s) (hnone : s.descriptors.owner fd = none) :
    (({ s with descriptors := s.descriptors.accept fd } : Server).close fd).toLoop cfg =
      ((s.toLoop cfg).accept fd).close fd := by
  have hinterest : (s.toLoop cfg).interest fd = none := h.sound.interest_eq_none hnone
  have hupdate : Function.update (s.toLoop cfg).interest fd none = (s.toLoop cfg).interest := by
    rw [← hinterest, Function.update_eq_self]
  unfold EventLoop.accept EventLoop.close
  simp only
  rw [hupdate]
  rfl

theorem acceptPeer_follows (h : Valid cfg s) {o : Outcome}
    (hs : acceptPeer cfg o s = some (.running s')) : Follows cfg none s s' := by
  unfold acceptPeer at hs
  cases haccept : o.accept with
  | error e =>
      simp only [haccept] at hs
      split at hs
      · cases hs
        exact .idle cfg none s
      · cases hs
  | ok fd =>
      simp only [haccept, Option.ite_none_right_eq_some] at hs
      obtain ⟨⟨hnone, hres⟩, hs⟩ := hs
      have hne : fd ≠ cfg.listener := fun heq => hres (heq ▸ cfg.listener_mem)
      split at hs
      · cases hs
        refine ⟨?_, fun _ => Iff.rfl, le_rfl, fun _ _ hmem => Or.inl hmem⟩
        rw [toLoop_reject h hnone]
        exact .reject hnone
      · next hrange =>
          simp only [Bool.or_eq_true, not_or, Bool.not_eq_true', Bool.not_eq_false] at hrange
          have hlt := lt_capacity_of_inRange hrange.2
          cases hfcntl : o.fcntl with
          | error e => simp [hfcntl] at hs
          | ok u =>
              simp only [hfcntl, Option.some.injEq, Process.running.injEq] at hs
              subst hs
              refine .applyStatus hne rfl ?_ ?_ (.connect hnone hres hlt)
              · simp only
                split <;> omega
              · simp only
                split <;> omega

end ConcurrentServers.Select

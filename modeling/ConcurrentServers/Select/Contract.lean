import ConcurrentServers.Select.Sweep

/-!
# The master sets against the open connections

Read at the head of the outer loop, the invariant says which descriptors the
next `select` is asked about. The listener may have any number that fits into
an `fd_set`, also one beyond the peer table, which it never indexes.
-/

namespace ConcurrentServers.Select

open Systems

variable {cfg : Config} {s : Server} {fd : ℕ}

theorem Valid.mem_master_of_owner (h : Valid cfg s) {c : ℕ}
    (howner : s.descriptors.owner fd = some c) : fd ≠ cfg.listener ∧
      (fd ∈ s.readfdsMaster ∨ fd ∈ s.writefdsMaster) := by
  have hne : fd ≠ cfg.listener := by
    rintro rfl
    rw [h.owner_listener] at howner
    cases howner
  refine ⟨hne, ?_⟩
  by_contra hout
  have hnone : (s.toLoop cfg).interest fd = none := by
    rw [toLoop_interest hne]
    exact if_neg hout
  have hclosed : s.descriptors.owner fd = none := h.sound.unwatched fd (by simp) hnone
  rw [howner] at hclosed
  cases hclosed

theorem Valid.watched (h : Valid cfg s) (hne : fd ≠ cfg.listener)
    (hmem : fd ∈ s.readfdsMaster ∨ fd ∈ s.writefdsMaster) :
    EventLoop.Watched cfg.reserved (s.toLoop cfg) fd
      ⟨fd ∈ s.readfdsMaster, fd ∈ s.writefdsMaster⟩ := by
  apply h.sound.watched fd _ (by simp)
  rw [toLoop_interest hne]
  exact if_pos hmem

/-- The listener is watched for reading only. Every other descriptor is in one of
the master sets exactly when a connection is behind it, and then in one only: in
the one for writing while output is pending, and else in the one for reading,
with room. No bit is beyond `fdset_max` or `FD_SETSIZE`, and no connection is
beyond the peer table. -/
theorem master_sets (h : (server cfg).Reachable (.running s)) :
    (cfg.listener ∈ s.readfdsMaster ∧ cfg.listener ∉ s.writefdsMaster) ∧
    (∀ fd, fd ≠ cfg.listener → (fd ∈ s.readfdsMaster ∨ fd ∈ s.writefdsMaster ↔
      ∃ c, s.descriptors.owner fd = some c)) ∧
    (∀ fd, fd ≠ cfg.listener → fd ∈ s.readfdsMaster ∨ fd ∈ s.writefdsMaster →
      (peerPending s.table fd ≠ [] → fd ∈ s.writefdsMaster ∧ fd ∉ s.readfdsMaster) ∧
      (peerPending s.table fd = [] → fd ∈ s.readfdsMaster ∧ fd ∉ s.writefdsMaster ∧
        0 < peerRecvRoom s.table fd) ∧
      s.table.peerCapacity = maxFds ∧ fd < maxFds) ∧
    ∀ fd, fd ∈ s.readfdsMaster ∨ fd ∈ s.writefdsMaster → fd ≤ s.fdsetMax ∧ fd < fdSetsize := by
  have hvalid := (reachable_invariant h).valid
  have hlt : ∀ fd, fd ≠ cfg.listener → fd ∈ s.readfdsMaster ∨ fd ∈ s.writefdsMaster →
      fd < maxFds := fun fd hne hmem => hvalid.capacity ▸ (hvalid.watched hne hmem).fd_lt
  refine ⟨⟨(hvalid.listener_mem false).mpr rfl, fun hmem => ?_⟩, ?_, ?_, ?_⟩
  · cases (hvalid.listener_mem true).mp hmem
  · intro fd hne
    constructor
    · exact fun hmem => (hvalid.watched hne hmem).isOpen
    · rintro ⟨c, howner⟩
      exact (hvalid.mem_master_of_owner howner).2
  · intro fd hne hmem
    have hagrees := (hvalid.watched hne hmem).agrees
    refine ⟨?_, ?_, hvalid.capacity, hlt fd hne hmem⟩
    · intro hpending
      rcases hagrees with ⟨⟨hstatus, _⟩ | ⟨_, hnil, _⟩⟩
      · simp only [fdStatusW, FdStatus.mk.injEq, decide_eq_false_iff_not,
          decide_eq_true_eq] at hstatus
        exact ⟨hstatus.2, hstatus.1⟩
      · exact absurd hnil hpending
    · intro hpending
      rcases hagrees with ⟨⟨_, hne'⟩ | ⟨hstatus, _, hroom⟩⟩
      · exact absurd hpending hne'
      · simp only [fdStatusR, FdStatus.mk.injEq, decide_eq_false_iff_not,
          decide_eq_true_eq] at hstatus
        exact ⟨hstatus.1, hstatus.2, hroom⟩
  · intro fd hmem
    have hle : fd ≤ s.fdsetMax := hmem.elim (hvalid.master_le false fd) (hvalid.master_le true fd)
    refine ⟨hle, ?_⟩
    by_cases hne : fd = cfg.listener
    · rw [hne]
      exact cfg.listener_lt
    · exact (hlt fd hne hmem).trans (by decide)

theorem master_sets_reusedNumber :
    ∃ s, (server smallConfig).run (.running (.start smallConfig)) reusedNumber =
        some (.running s) ∧
      s.writefdsMaster = {0} ∧ ∃ c, s.descriptors.owner 0 = some c := by
  refine ⟨_, rfl, by decide, ?_⟩
  have hsets := master_sets (reachable_of_labels smallConfig reusedNumber rfl)
  exact (hsets.2.1 0 (by decide)).mp (by decide)

/-- The descriptors up to 999 were taken when the server was started. -/
def highListener : Config := ⟨maxFds, [maxFds], by decide, by decide⟩

/-- The listener's own bit need not be below the size of the peer table. -/
theorem listener_beyond_peer_table :
    ∃ s, (server highListener).Reachable (.running s) ∧ s.sweep = none ∧
      maxFds ∈ s.readfdsMaster ∧ ¬maxFds < s.table.peerCapacity :=
  ⟨_, reachable_of_labels highListener [] rfl, rfl, by decide, by decide⟩

end ConcurrentServers.Select

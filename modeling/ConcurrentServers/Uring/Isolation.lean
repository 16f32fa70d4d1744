import ConcurrentServers.Uring.Echo

/-!
# What remote peers can do to the completion loop

The loop takes every result of an operation, also of `accept` when descriptors
have run out. It ends only if waiting for completions fails, or if a full ring
stays full after `io_uring_submit`.
-/

namespace ConcurrentServers.Uring

open Systems

variable {cfg : Config} {s s' : Server} {k k₁ k₂ fd : ℕ}

/-! ## A slot is found -/

section Slots

variable (hdepth : 0 < cfg.queueDepth)

include hdepth

theorem getSqe_survives (hk : 0 < k) (hfits : s.sq.length ≤ cfg.queueDepth) :
    ∃ t, getSqe cfg k s = .running t := by
  unfold getSqe
  split
  · exact ⟨_, rfl⟩
  · have hroom : (s.submit k).sq.length < cfg.queueDepth := by
      change (s.sq.drop k).length < _
      rw [List.length_drop]
      omega
    rw [if_pos hroom]
    exact ⟨_, rfl⟩

theorem queueAccept_survives (hk : 0 < k) (hfits : s.sq.length ≤ cfg.queueDepth) :
    ∃ t, queueAccept cfg k s = .running t := by
  obtain ⟨t, ht⟩ := getSqe_survives hdepth hk hfits
  unfold queueAccept
  rw [ht]
  exact ⟨_, rfl⟩

theorem queueRecv_survives (hk : 0 < k) (fd : ℕ) (hfits : s.sq.length ≤ cfg.queueDepth) :
    ∃ t, queueRecv cfg k fd s = .running t := by
  obtain ⟨t, ht⟩ := getSqe_survives hdepth hk hfits
  unfold queueRecv
  rw [ht]
  exact ⟨_, rfl⟩

theorem queueSend_survives (hk : 0 < k) (fd : ℕ) (hfits : s.sq.length ≤ cfg.queueDepth) :
    ∃ t, queueSend cfg k fd s = .running t := by
  unfold queueSend
  split
  · exact queueRecv_survives hdepth hk fd hfits
  · obtain ⟨t, ht⟩ := getSqe_survives (s := copyOut s fd) hdepth hk hfits
    rw [ht]
    exact ⟨_, rfl⟩

theorem armNext_survives (hk : 0 < k) (fd : ℕ) (v : PeerTable × FdStatus)
    (hfits : s.sq.length ≤ cfg.queueDepth) : ∃ t, armNext cfg k fd v s = .running t := by
  unfold armNext
  dsimp only
  split
  · exact ⟨_, rfl⟩
  · split
    · exact queueSend_survives hdepth hk fd hfits
    · exact queueRecv_survives hdepth hk fd hfits

theorem handleAccept_survives (hk₁ : 0 < k₁) (hk₂ : 0 < k₂) (res : SysResult ℕ)
    (hfits : s.sq.length ≤ cfg.queueDepth) : ∃ t, handleAccept cfg k₁ k₂ res s = .running t := by
  obtain ⟨t, ht⟩ := queueAccept_survives hdepth hk₁ hfits
  unfold handleAccept
  rw [ht, Process.andThen]
  cases res with
  | error e => exact ⟨_, rfl⟩
  | ok fd =>
      dsimp only
      split
      · exact ⟨_, rfl⟩
      · exact armNext_survives hdepth hk₂ fd _ ((queueAccept_kept ht).fits hfits)

theorem handleRecv_survives (hk : 0 < k) (fd : ℕ) (res : SysResult ℕ)
    (hfits : s.sq.length ≤ cfg.queueDepth) : ∃ t, handleRecv cfg k fd res s = .running t := by
  unfold handleRecv
  split
  · split
    · exact queueRecv_survives hdepth hk fd hfits
    · exact armNext_survives hdepth hk fd _ hfits
  · exact armNext_survives hdepth hk fd _ hfits
  · exact armNext_survives hdepth hk fd _ hfits

theorem handleSend_survives (hk : 0 < k) (fd : ℕ) (res : SysResult ℕ)
    (hfits : s.sq.length ≤ cfg.queueDepth) : ∃ t, handleSend cfg k fd res s = .running t := by
  unfold handleSend
  split
  · split
    · exact queueSend_survives hdepth hk fd hfits
    · exact armNext_survives hdepth hk fd _ hfits
  · exact armNext_survives hdepth hk fd _ hfits

theorem handle_survives (hk₁ : 0 < k₁) (hk₂ : 0 < k₂) (c : Cqe)
    (hfits : s.sq.length ≤ cfg.queueDepth) : ∃ t, handle cfg k₁ k₂ c s = .running t := by
  unfold handle
  dsimp only
  split
  · exact handleAccept_survives hdepth hk₁ hk₂ c.res hfits
  · exact handleRecv_survives hdepth hk₁ _ c.res hfits
  · exact handleSend_survives hdepth hk₁ _ c.res hfits
  · exact ⟨s, rfl⟩

end Slots

/-! ## One step -/

/-- The outcomes that peers can bring about. Any operation may fail with any error. The
wait is at most interrupted, and the kernel takes an entry from a full ring. -/
def Provoked : Label → Prop
  | .wait (.error e) => e = .eintr
  | .handle k₁ k₂ => 0 < k₁ ∧ 0 < k₂
  | _ => True

/-- The descriptor that a step is about. -/
def concerned (s : Server) : Label → Option ℕ
  | .handle _ _ => s.cq.head?.map Cqe.about
  | _ => none

theorem survives_of_step {l : Label} (hdepth : 0 < cfg.queueDepth) (hl : Provoked l)
    (hfits : s.sq.length ≤ cfg.queueDepth) {p : Process Server} (hs : s.step cfg l = some p) :
    ∃ t, p = .running t := by
  cases l with
  | submit k =>
      obtain ⟨-, hs⟩ := Option.ite_none_right_eq_some.mp hs
      exact ⟨_, (Option.some.inj hs).symm⟩
  | wait r =>
      obtain ⟨-, hs⟩ := Option.ite_none_right_eq_some.mp hs
      cases r with
      | ok _ =>
          obtain ⟨-, hs⟩ := Option.ite_none_left_eq_some.mp hs
          exact ⟨_, (Option.some.inj hs).symm⟩
      | error e =>
          have he : e = .eintr := hl
          dsimp only at hs
          rw [if_pos he] at hs
          exact ⟨_, (Option.some.inj hs).symm⟩
  | post i c =>
      simp only [Server.step] at hs
      split at hs
      · obtain ⟨t, -, heq⟩ := Option.map_eq_some_iff.mp hs
        exact ⟨t, heq.symm⟩
      · cases hs
  | handle k₁ k₂ =>
      obtain ⟨-, hs⟩ := Option.ite_none_right_eq_some.mp hs
      cases hcq : s.cq with
      | nil =>
          rw [hcq] at hs
          cases hs
      | cons c cq =>
          rw [hcq] at hs
          obtain ⟨t, ht⟩ := handle_survives (s := { s with cq := cq }) hdepth hl.1 hl.2 c hfits
          exact ⟨t, (Option.some.inj hs).symm.trans ht⟩
  | advance =>
      obtain ⟨-, hs⟩ := Option.ite_none_right_eq_some.mp hs
      exact ⟨_, (Option.some.inj hs).symm⟩

theorem complete_keeps {e : Sqe} {c : Completion} (hs : complete cfg s e c = some s') :
    s'.sq = s.sq ∧ ∀ fd c, s.descriptors.owner fd = some c →
      s'.descriptors.owner fd = some c := by
  unfold complete at hs
  split at hs
  · next fd =>
      obtain ⟨⟨-, hnone, -⟩, hs⟩ := Option.ite_none_right_eq_some.mp hs
      cases hs
      refine ⟨rfl, ?_⟩
      intro fd' c howner
      have hne : fd' ≠ fd := by
        rintro rfl
        exact absurd (howner.symm.trans hnone) (Option.some_ne_none c)
      exact (Descriptors.owner_accept_ne _ hne).trans howner
  · obtain ⟨-, hs⟩ := Option.ite_none_right_eq_some.mp hs
    cases hs
    exact ⟨rfl, fun _ _ h => h⟩
  · obtain ⟨-, hs⟩ := Option.ite_none_right_eq_some.mp hs
    cases hs
    exact ⟨rfl, fun _ _ h => h⟩
  all_goals
    cases hs
    exact ⟨rfl, fun _ _ h => h⟩

/-- A step keeps the ring within its size and closes nothing but what it is about. -/
theorem fits_of_step {l : Label} (hfits : s.sq.length ≤ cfg.queueDepth)
    (hs : s.step cfg l = some (.running s')) :
    s'.sq.length ≤ cfg.queueDepth ∧ s.descriptors.Spares s'.descriptors (concerned s l) := by
  cases l with
  | submit k =>
      obtain ⟨-, hs⟩ := Option.ite_none_right_eq_some.mp hs
      cases hs
      refine ⟨?_, fun _ _ howner _ => howner⟩
      change (s.sq.drop k).length ≤ _
      rw [List.length_drop]
      exact (Nat.sub_le _ _).trans hfits
  | wait r =>
      obtain ⟨-, hs⟩ := Option.ite_none_right_eq_some.mp hs
      cases r with
      | ok _ =>
          obtain ⟨-, hs⟩ := Option.ite_none_left_eq_some.mp hs
          cases hs
          exact ⟨hfits, fun _ _ howner _ => howner⟩
      | error e =>
          dsimp only at hs
          split at hs
          · cases hs
            exact ⟨hfits, fun _ _ howner _ => howner⟩
          · cases hs
  | post i c =>
      simp only [Server.step] at hs
      split at hs
      · obtain ⟨t, ht, heq⟩ := Option.map_eq_some_iff.mp hs
        cases heq
        obtain ⟨hsq, hopen⟩ := complete_keeps ht
        refine ⟨?_, fun fd c howner _ => hopen fd c howner⟩
        rw [hsq]
        exact hfits
      · cases hs
  | handle k₁ k₂ =>
      obtain ⟨-, hs⟩ := Option.ite_none_right_eq_some.mp hs
      cases hcq : s.cq with
      | nil =>
          rw [hcq] at hs
          cases hs
      | cons c cq =>
          rw [hcq] at hs
          have hhandled := handle_handled (Option.some.inj hs)
          refine ⟨hhandled.fits hfits, ?_⟩
          intro fd c' howner hother
          have hne : fd ≠ c.about := by
            rintro rfl
            apply hother
            rw [concerned, hcq]
            rfl
          rcases hhandled.descriptors with hsame | hclose
          · rw [hsame]
            exact howner
          · rw [hclose]
            exact (Descriptors.owner_close_ne _ hne).trans howner
  | advance =>
      obtain ⟨-, hs⟩ := Option.ite_none_right_eq_some.mp hs
      cases hs
      exact ⟨hfits, fun _ _ howner _ => howner⟩

/-! ## Whole runs -/

/-- No run that peers can bring about ends the process, however the kernel orders the
completions and whatever the operations return, an `accept` without descriptors
included. Every step spares the connections that it is not about. -/
theorem uring_survives (hdepth : 0 < cfg.queueDepth) {labels : List Label}
    (hlabels : ∀ l ∈ labels, Provoked l) {p : Process Server}
    (hrun : (server cfg).run (.running (.start cfg)) labels = some p) :
    ∃ s, p = .running s ∧ s.sq.length ≤ cfg.queueDepth ∧
      ∀ l s', s.step cfg l = some (.running s') →
        s.descriptors.Spares s'.descriptors (concerned s l) := by
  have hfits : ∃ s, p = .running s ∧ s.sq.length ≤ cfg.queueDepth := by
    refine Machine.run_invariant_of_mem (M := server cfg)
      (P := fun p => ∃ s, p = .running s ∧ s.sq.length ≤ cfg.queueDepth) ?_ ?_ hrun
    · rintro l hl _ q ⟨s, rfl, hfits⟩ hs
      obtain ⟨t, rfl⟩ := survives_of_step hdepth (hlabels l hl) hfits hs
      exact ⟨t, rfl, (fits_of_step hfits hs).1⟩
    · exact ⟨.start cfg, rfl, hdepth⟩
  obtain ⟨s, rfl, hfits⟩ := hfits
  exact ⟨s, rfl, hfits, fun l s' hs => (fits_of_step hfits hs).2⟩

/-- A client connects, descriptors run out for the next one, and the first is reset. -/
def outOfDescriptors : List Label :=
  [.submit 8, .post 0 (.accept (.ok 5)), .wait (.ok ()), .handle 1 1, .advance,
    .submit 8, .post 0 (.accept (.error .emfile)), .post 0 (.send (.error .econnreset)),
    .wait (.ok ()), .handle 1 1, .handle 1 1]

theorem uring_survives_outOfDescriptors :
    ∃ s, (server smallConfig).run (.running (.start smallConfig)) outOfDescriptors =
        some (.running s) ∧
      s.descriptors.closed = [0] ∧
      ∀ l s', s.step smallConfig l = some (.running s') →
        s.descriptors.Spares s'.descriptors (concerned s l) := by
  have hlabels : ∀ l ∈ outOfDescriptors, Provoked l := by simp [outOfDescriptors, Provoked]
  have hclosed : ∃ s, (server smallConfig).run (.running (.start smallConfig)) outOfDescriptors =
      some (.running s) ∧ s.descriptors.closed = [0] := ⟨_, rfl, rfl⟩
  obtain ⟨s, hrun, hclosed⟩ := hclosed
  obtain ⟨s', heq, -, hspares⟩ := uring_survives (by decide) hlabels hrun
  cases heq
  exact ⟨s, hrun, hclosed, hspares⟩

end ConcurrentServers.Uring

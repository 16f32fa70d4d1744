import ConcurrentServers.Library.Ownership
import ConcurrentServers.Protocol.Service

/-!
# Connections in the hands of threads

In a server that calls `serve_connection` on several threads, every open
descriptor is in the hands of one holder, and the call on its connection is the
one that this holder has made. `Custody` describes a moment of that.
-/

namespace ConcurrentServers.Protocol

open Systems

variable {ι : Type*}

structure Custody (d : Descriptors) (calls : ℕ → Option Connection) (held : ι → Option ℕ)
    (call : ι → Option Connection) : Prop where
  owned : Owned (fun fd => d.owner fd ≠ none) held
  made : ∀ {i fd c}, held i = some fd → d.owner fd = some c → calls c = call i
  fresh : ∀ c, d.fresh ≤ c → calls c = none

namespace Custody

variable {d : Descriptors} {calls : ℕ → Option Connection} {held held' : ι → Option ℕ}
  {call call' : ι → Option Connection} {i j : ι} {fd c : ℕ}

theorem empty : Custody .empty (fun _ => none) (fun _ : ι => none) call where
  owned := Owned.empty fun _ hfd => hfd rfl
  made := nofun
  fresh _ _ := rfl

theorem congr (h : Custody d calls held call) (hheld : held' = held) (hcall : call' = call) :
    Custody d calls held' call' := by
  subst hheld hcall
  exact h

theorem exists_owner (h : Custody d calls held call) (hi : held i = some fd) :
    ∃ c, d.owner fd = some c :=
  Option.ne_none_iff_exists'.mp (h.owned.isLive hi)

variable [DecidableEq ι]

theorem accept (h : Custody d calls held call) (hi : held i = none)
    (hnone : d.owner fd = none) :
    Custody (d.accept fd) calls (Function.update held i (some fd))
      (Function.update call i none) where
  owned :=
    (h.owned.acquire hi fun hlive => hlive hnone).congr (fun _ => d.live_accept) rfl
  made := by
    intro j fd' c hj howner
    by_cases hij : j = i
    · subst hij
      rw [Function.update_self] at hj
      cases hj
      rw [Descriptors.owner_accept_same] at howner
      cases howner
      rw [Function.update_self]
      exact h.fresh _ le_rfl
    · rw [Function.update_of_ne hij] at hj ⊢
      have hfd : fd' ≠ fd := by
        rintro rfl
        exact h.owned.isLive hj hnone
      rw [Descriptors.owner_accept_ne _ hfd] at howner
      exact h.made hj howner
  fresh c hc := h.fresh c (Nat.le_of_succ_le hc)

/-- A descriptor on which no call has been made changes hands. -/
theorem transfer (h : Custody d calls held call) (hi : held i = some fd) (hj : held j = none)
    (hcall : call i = none) :
    Custody d calls (Function.update (Function.update held i none) j (some fd))
      (Function.update (Function.update call i none) j none) where
  owned := h.owned.transfer hi hj
  made := by
    intro l fd' c hl howner
    by_cases hlj : l = j
    · subst hlj
      rw [Function.update_self] at hl ⊢
      cases hl
      rw [h.made hi howner, hcall]
    · rw [Function.update_of_ne hlj] at hl ⊢
      by_cases hli : l = i
      · rw [hli, Function.update_self] at hl
        cases hl
      · rw [Function.update_of_ne hli] at hl ⊢
        exact h.made hl howner
  fresh := h.fresh

theorem close (h : Custody d calls held call) (hi : held i = some fd) :
    Custody (d.close fd) calls (Function.update held i none) (Function.update call i none) where
  owned := (h.owned.release hi).congr (fun _ => d.live_close) rfl
  made := by
    intro j fd' c hj howner
    have hij : j ≠ i := by
      rintro rfl
      rw [Function.update_self] at hj
      cases hj
    rw [Function.update_of_ne hij] at hj ⊢
    exact h.made hj (Descriptors.owner_of_owner_close howner)
  fresh := h.fresh

/-- A holder makes a call, or the call goes on. -/
theorem setCall (h : Custody d calls held call) (hi : held i = some fd) (v : Connection) :
    Custody d (recordCall d calls fd v) held (Function.update call i (some v)) := by
  obtain ⟨c, howner⟩ := h.exists_owner hi
  rw [recordCall_of_owner howner]
  refine ⟨h.owned, ?_, ?_⟩
  · intro j fd' c' hj howner'
    by_cases hij : j = i
    · subst hij
      cases hj.symm.trans hi
      cases howner'.symm.trans howner
      rw [Function.update_self, Function.update_self]
    · have hne : c' ≠ c := by
        rintro rfl
        have hfd := d.owner_inj howner' howner
        subst hfd
        exact hij (h.owned.unique hj hi)
      rw [Function.update_of_ne hij, Function.update_of_ne hne]
      exact h.made hj howner'
  · intro c' hc'
    have hne : c' ≠ c := by
      rintro rfl
      exact absurd (d.owner_lt howner) (Nat.not_lt.mpr hc')
    exact (Function.update_of_ne hne _ _).trans (h.fresh c' hc')

end Custody

end ConcurrentServers.Protocol

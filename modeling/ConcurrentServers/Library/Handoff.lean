import ConcurrentServers.Library.Descriptors
import Mathlib.Data.Multiset.AddSub
import Mathlib.Data.Multiset.UnionInter

/-!
# Handing descriptors from one thread to others

A producer accepts descriptors one at a time, holds at most one in its hand,
and puts it at the end of a queue. Consumers take from the front, hold what
they took, and close it. `Handoff` describes a moment of that: who has which
descriptor, and the order in which they were accepted, put into the queue and
taken out.
-/

namespace Systems

structure Handoff (hand : Option ℕ) (queued : List ℕ) (held : Multiset ℕ) (d : Descriptors)
    (accepted pushed popped : List ℕ) : Prop where
  fifo : popped ++ queued = pushed
  order : pushed ++ hand.toList = accepted
  nodup : (hand.toList + queued + held : Multiset ℕ).Nodup
  live_iff : ∀ fd, fd ∈ (hand.toList + queued + held : Multiset ℕ) ↔ d.owner fd ≠ none

namespace Handoff

variable {hand : Option ℕ} {queued : List ℕ} {held : Multiset ℕ} {d : Descriptors}
  {accepted pushed popped : List ℕ} {fd : ℕ}

theorem empty : Handoff none [] 0 .empty [] [] [] where
  fifo := rfl
  order := rfl
  nodup := by simp
  live_iff := by simp

theorem accept (h : Handoff none queued held d accepted pushed popped)
    (hnone : d.owner fd = none) :
    Handoff (some fd) queued held (d.accept fd) (accepted ++ [fd]) pushed popped where
  fifo := h.fifo
  order := by
    rw [← h.order]
    simp
  nodup := by
    have hnew : fd ∉ (queued + held : Multiset ℕ) := by
      intro hmem
      exact (h.live_iff fd).mp (by simpa using hmem) hnone
    have hrest : (queued + held : Multiset ℕ).Nodup := by simpa using h.nodup
    rw [Option.toList_some, Multiset.coe_singleton, Multiset.singleton_add, Multiset.cons_add]
    exact Multiset.nodup_cons.mpr ⟨hnew, hrest⟩
  live_iff := by
    intro fd'
    by_cases hfd : fd' = fd
    · simp [hfd]
    · rw [Descriptors.owner_accept_ne _ hfd, ← h.live_iff]
      simp [hfd]

theorem push (h : Handoff (some fd) queued held d accepted pushed popped) :
    Handoff none (queued ++ [fd]) held d accepted (pushed ++ [fd]) popped where
  fifo := by rw [← h.fifo, List.append_assoc]
  order := by
    rw [← h.order]
    simp
  nodup := by
    have hnodup := h.nodup
    rw [Option.toList_some, add_comm (([fd] : List ℕ) : Multiset ℕ), Multiset.coe_add] at hnodup
    simpa using hnodup
  live_iff := by
    intro fd'
    rw [← h.live_iff fd']
    simp only [Option.toList_none, Option.toList_some, Multiset.mem_add, Multiset.mem_coe,
      List.mem_append, List.not_mem_nil, List.mem_singleton]
    tauto

theorem pop (h : Handoff hand (fd :: queued) held d accepted pushed popped) :
    Handoff hand queued (fd ::ₘ held) d accepted pushed (popped ++ [fd]) where
  fifo := by
    rw [← h.fifo, List.append_assoc]
    rfl
  order := h.order
  nodup := by
    have hnodup := h.nodup
    rwa [← Multiset.cons_coe, Multiset.add_cons, Multiset.cons_add, ← Multiset.add_cons] at hnodup
  live_iff := by
    intro fd'
    rw [← h.live_iff fd']
    simp only [Multiset.mem_add, Multiset.mem_coe, List.mem_cons, Multiset.mem_cons]
    tauto

theorem close (h : Handoff hand queued (fd ::ₘ held) d accepted pushed popped) :
    Handoff hand queued held (d.close fd) accepted pushed popped where
  fifo := h.fifo
  order := h.order
  nodup := by
    have hnodup := h.nodup
    rw [Multiset.add_cons, Multiset.nodup_cons] at hnodup
    exact hnodup.2
  live_iff := by
    intro fd'
    have hnodup := h.nodup
    rw [Multiset.add_cons, Multiset.nodup_cons] at hnodup
    by_cases hfd : fd' = fd
    · rw [hfd, Descriptors.owner_close_same]
      exact iff_of_false hnodup.1 (fun hne => hne rfl)
    · rw [Descriptors.owner_close_ne _ hfd, ← h.live_iff fd', Multiset.add_cons,
        Multiset.mem_cons]
      simp [hfd]

theorem popped_prefix (h : Handoff hand queued held d accepted pushed popped) :
    popped <+: accepted := by
  rw [← h.order, ← h.fifo, List.append_assoc]
  exact List.prefix_append _ _

end Handoff

end Systems

import Mathlib.Tactic

/-!
# Resources and their holders

Blocks of memory, descriptors and the like are acquired, handed from one holder
to another, and released. `Owned` says that nothing dangles, nothing is shared
and nothing leaks: every resource that is live has one holder, and nobody holds
anything else.
-/

namespace Systems

variable {ι κ : Type*}

structure Owned (live : κ → Prop) (held : ι → Option κ) : Prop where
  isLive : ∀ {i k}, held i = some k → live k
  unique : ∀ {i j k}, held i = some k → held j = some k → i = j
  covered : ∀ {k}, live k → ∃ i, held i = some k

namespace Owned

variable {live live' : κ → Prop} {held held' : ι → Option κ} {i j : ι} {k : κ}

theorem empty (hlive : ∀ k, ¬live k) : Owned live fun _ : ι => none where
  isLive := nofun
  unique := nofun
  covered hk := absurd hk (hlive _)

theorem congr (h : Owned live held) (hlive : ∀ k, live' k ↔ live k) (hheld : held' = held) :
    Owned live' held' := by
  subst hheld
  exact ⟨fun hi => (hlive _).mpr (h.isLive hi), h.unique, fun hk => h.covered ((hlive _).mp hk)⟩

theorem existsUnique (h : Owned live held) (hk : live k) : ∃! i, held i = some k := by
  obtain ⟨i, hi⟩ := h.covered hk
  exact ⟨i, hi, fun j hj => h.unique hj hi⟩

/-- When nobody holds anything, nothing has leaked. -/
theorem not_live (h : Owned live held) (hnone : ∀ i, held i = none) (k : κ) : ¬live k := by
  intro hk
  obtain ⟨i, hi⟩ := h.covered hk
  exact absurd ((hnone i).symm.trans hi) nofun

variable [DecidableEq ι]

theorem acquire (h : Owned live held) (hi : held i = none) (hk : ¬live k) :
    Owned (fun k' => k' = k ∨ live k') (Function.update held i (some k)) where
  isLive := by
    intro j k' hj
    by_cases hij : j = i
    · subst hij
      rw [Function.update_self] at hj
      exact Or.inl (Option.some.inj hj).symm
    · rw [Function.update_of_ne hij] at hj
      exact Or.inr (h.isLive hj)
  unique := by
    -- Nobody else can hold what was not live before.
    have hother : ∀ {j k'}, held j = some k' → k' ≠ k := by
      rintro j k' hj rfl
      exact hk (h.isLive hj)
    intro j j' k' hj hj'
    by_cases hij : j = i <;> by_cases hij' : j' = i
    · exact hij.trans hij'.symm
    · rw [hij, Function.update_self] at hj
      rw [Function.update_of_ne hij'] at hj'
      exact absurd (Option.some.inj hj).symm (hother hj')
    · rw [Function.update_of_ne hij] at hj
      rw [hij', Function.update_self] at hj'
      exact absurd (Option.some.inj hj').symm (hother hj)
    · rw [Function.update_of_ne hij] at hj
      rw [Function.update_of_ne hij'] at hj'
      exact h.unique hj hj'
  covered := by
    rintro k' (rfl | hlive)
    · exact ⟨i, Function.update_self ..⟩
    · obtain ⟨j, hj⟩ := h.covered hlive
      have hij : j ≠ i := by
        rintro rfl
        exact absurd (hi.symm.trans hj) nofun
      exact ⟨j, (Function.update_of_ne hij _ _).trans hj⟩

theorem release (h : Owned live held) (hi : held i = some k) :
    Owned (fun k' => k' ≠ k ∧ live k') (Function.update held i none) where
  isLive := by
    intro j k' hj
    have hij : j ≠ i := by
      rintro rfl
      rw [Function.update_self] at hj
      cases hj
    rw [Function.update_of_ne hij] at hj
    refine ⟨?_, h.isLive hj⟩
    rintro rfl
    exact hij (h.unique hj hi)
  unique := by
    intro j j' k' hj hj'
    have hne : ∀ {l}, Function.update held i none l = some k' → l ≠ i := by
      rintro l hl rfl
      rw [Function.update_self] at hl
      cases hl
    rw [Function.update_of_ne (hne hj)] at hj
    rw [Function.update_of_ne (hne hj')] at hj'
    exact h.unique hj hj'
  covered := by
    rintro k' ⟨hne, hlive⟩
    obtain ⟨j, hj⟩ := h.covered hlive
    have hij : j ≠ i := by
      rintro rfl
      exact hne (Option.some.inj (hj.symm.trans hi))
    exact ⟨j, (Function.update_of_ne hij _ _).trans hj⟩

/-- A transfer is a release of which the new holder takes the place at once. -/
theorem transfer (h : Owned live held) (hi : held i = some k) (hj : held j = none) :
    Owned live (Function.update (Function.update held i none) j (some k)) := by
  have hij : j ≠ i := by
    rintro rfl
    exact absurd (hj.symm.trans hi) nofun
  have hfree : Function.update held i none j = none := (Function.update_of_ne hij _ _).trans hj
  refine ((h.release hi).acquire hfree fun hk => hk.1 rfl).congr ?_ rfl
  intro k'
  by_cases hk : k' = k
  · exact iff_of_true (hk ▸ h.isLive hi) (Or.inl hk)
  · exact ⟨fun hlive => Or.inr ⟨hk, hlive⟩, fun hlive => (hlive.resolve_left hk).2⟩

end Owned

/-! ## Memory -/

/-- The blocks that are allocated, with what is in them, and the number of accesses to
memory that is not allocated. The allocator may return any address that is free. -/
structure Heap (α : Type*) where
  blocks : ℕ → Option α
  faults : ℕ

namespace Heap

variable {α : Type*}

def empty : Heap α := ⟨fun _ => none, 0⟩

def alloc (h : Heap α) (p : ℕ) (a : α) : Heap α :=
  { h with blocks := Function.update h.blocks p (some a) }

def fault (h : Heap α) : Heap α := { h with faults := h.faults + 1 }

def store (h : Heap α) (p : ℕ) (a : α) : Heap α :=
  if h.blocks p = none then h.fault else h.alloc p a

def free (h : Heap α) (p : ℕ) : Heap α :=
  if h.blocks p = none then h.fault else { h with blocks := Function.update h.blocks p none }

variable {h : Heap α} {p p' : ℕ}

theorem store_of_live (hp : h.blocks p ≠ none) (a : α) : h.store p a = h.alloc p a := if_neg hp

theorem free_of_live (hp : h.blocks p ≠ none) :
    h.free p = { h with blocks := Function.update h.blocks p none } := if_neg hp

theorem live_alloc (h : Heap α) (p : ℕ) (a : α) :
    (h.alloc p a).blocks p' ≠ none ↔ p' = p ∨ h.blocks p' ≠ none := by
  by_cases heq : p' = p
  · simp [alloc, heq]
  · simp [alloc, heq]

theorem live_free (hp : h.blocks p ≠ none) :
    (h.free p).blocks p' ≠ none ↔ p' ≠ p ∧ h.blocks p' ≠ none := by
  rw [free_of_live hp]
  by_cases heq : p' = p
  · simp [heq]
  · simp [heq]

end Heap

end Systems

import Mathlib.Algebra.BigOperators.Group.Finset.Basic
import Mathlib.Algebra.BigOperators.Fin
import Mathlib.Algebra.Order.Group.Multiset
import Mathlib.Algebra.BigOperators.Group.Multiset.Basic
import Mathlib.Tactic

/-!
# Sums over the threads of a system

A family of threads is a function from a finite index type to their states. A
step changes one of them. `tally` adds up what every thread contributes, in any
commutative monoid, and `tally_update` says how one step changes the sum.
`headcount` is the number of threads with a property.
-/

namespace Systems

variable {ι β M : Type*} [Fintype ι]

def tally [AddCommMonoid M] (f : β → M) (g : ι → β) : M := ∑ i, f (g i)

theorem tally_update [DecidableEq ι] [AddCommMonoid M] (f : β → M) (g : ι → β) (i : ι) (b : β) :
    tally f (Function.update g i b) + f (g i) = tally f g + f b := by
  have hrest : ∑ j ∈ Finset.univ.erase i, f (Function.update g i b j) =
      ∑ j ∈ Finset.univ.erase i, f (g j) := by
    apply Finset.sum_congr rfl
    intro j hj
    rw [Function.update_of_ne (Finset.ne_of_mem_erase hj)]
  have hnew := Finset.sum_erase_add Finset.univ (fun j => f (Function.update g i b j))
    (Finset.mem_univ i)
  have hold := Finset.sum_erase_add Finset.univ (fun j => f (g j)) (Finset.mem_univ i)
  rw [tally, tally, ← hnew, ← hold, hrest, Function.update_self]
  exact add_right_comm _ _ _

/-- A step that leaves the contribution of its thread as it was. -/
theorem tally_update_same [DecidableEq ι] [AddCancelCommMonoid M] (f : β → M) (g : ι → β)
    {i : ι} {b : β} (h : f b = f (g i)) : tally f (Function.update g i b) = tally f g := by
  have hupdate := tally_update f g i b
  rw [h] at hupdate
  exact add_right_cancel hupdate

theorem mem_tally {α : Type*} {f : β → Multiset α} {g : ι → β} {a : α} :
    a ∈ tally f g ↔ ∃ i, a ∈ f (g i) := by
  simp [tally, Multiset.mem_sum]

/-- Without repetitions in the sum, nothing is with two threads. -/
theorem eq_of_nodup_tally [DecidableEq ι] {α : Type*} {f : β → Multiset α} {g : ι → β}
    (h : (tally f g).Nodup) {a : α} {i j : ι} (hi : a ∈ f (g i)) (hj : a ∈ f (g j)) : i = j := by
  by_contra hne
  rw [tally, ← Finset.add_sum_erase Finset.univ (fun k => f (g k)) (Finset.mem_univ i)] at h
  have hdisjoint := (Multiset.nodup_add.mp h).2.2
  apply Multiset.disjoint_left.mp hdisjoint hi
  rw [Multiset.mem_sum]
  exact ⟨j, Finset.mem_erase.mpr ⟨fun heq => hne heq.symm, Finset.mem_univ j⟩, hj⟩

/-- One summand goes down by at least `k`, and none goes up. -/
theorem sum_add_le [DecidableEq ι] {f g : ι → ℕ} {i : ι} {k : ℕ} (hi : f i + k ≤ g i)
    (hle : ∀ j, j ≠ i → f j ≤ g j) : ∑ j, f j + k ≤ ∑ j, g j := by
  have hrest : ∑ j ∈ Finset.univ.erase i, f j ≤ ∑ j ∈ Finset.univ.erase i, g j :=
    Finset.sum_le_sum fun j hj => hle j (Finset.ne_of_mem_erase hj)
  rw [← Finset.add_sum_erase Finset.univ f (Finset.mem_univ i),
    ← Finset.add_sum_erase Finset.univ g (Finset.mem_univ i)]
  omega

def headcount (p : β → Prop) [DecidablePred p] (g : ι → β) : ℕ :=
  tally (fun b => if p b then 1 else 0) g

theorem headcount_update [DecidableEq ι] (p : β → Prop) [DecidablePred p] (g : ι → β) (i : ι)
    (b : β) :
    headcount p (Function.update g i b) + (if p (g i) then 1 else 0) =
      headcount p g + (if p b then 1 else 0) :=
  tally_update _ g i b

theorem headcount_le_update [DecidableEq ι] {p : β → Prop} [DecidablePred p] (g : ι → β) {i : ι}
    {b : β} (h : p (g i) → p b) : headcount p g ≤ headcount p (Function.update g i b) := by
  have hupdate := headcount_update p g i b
  by_cases hp : p (g i)
  · simp only [hp, h hp, if_true] at hupdate
    omega
  · simp only [hp, if_false] at hupdate
    omega

/-- One thread loses the property. -/
theorem headcount_update_lost [DecidableEq ι] {p : β → Prop} [DecidablePred p] (g : ι → β) {i : ι}
    {b : β} (hfrom : p (g i)) (hto : ¬p b) :
    headcount p (Function.update g i b) + 1 = headcount p g := by
  have hupdate := headcount_update p g i b
  simpa only [hfrom, hto, if_true, if_false, add_zero] using hupdate

/-- One thread gains it. -/
theorem headcount_update_gained [DecidableEq ι] {p : β → Prop} [DecidablePred p] (g : ι → β)
    {i : ι} {b : β} (hfrom : ¬p (g i)) (hto : p b) :
    headcount p (Function.update g i b) = headcount p g + 1 := by
  have hupdate := headcount_update p g i b
  simpa only [hfrom, hto, if_true, if_false, add_zero] using hupdate

theorem headcount_eq_card (p : β → Prop) [DecidablePred p] (g : ι → β) :
    headcount p g = (Finset.univ.filter fun i => p (g i)).card := by
  rw [headcount, tally, Finset.card_filter]

theorem headcount_le_card (p : β → Prop) [DecidablePred p] (g : ι → β) :
    headcount p g ≤ Fintype.card ι := by
  rw [headcount_eq_card]
  exact Finset.card_le_univ _

theorem headcount_lt_card {p : β → Prop} [DecidablePred p] {g : ι → β} {i : ι} (h : ¬p (g i)) :
    headcount p g < Fintype.card ι := by
  rw [headcount_eq_card]
  apply Finset.card_lt_univ_of_notMem (x := i)
  simpa using h

theorem headcount_le_of_imp {p q : β → Prop} [DecidablePred p] [DecidablePred q]
    (h : ∀ b, p b → q b) (g : ι → β) : headcount p g ≤ headcount q g := by
  rw [headcount_eq_card, headcount_eq_card]
  exact Finset.card_le_card (Finset.monotone_filter_right _ fun i _ => h (g i))

/-- A step that makes no difference to the property. -/
theorem headcount_update_same [DecidableEq ι] {p : β → Prop} [DecidablePred p] (g : ι → β)
    {i : ι} {b : β} (h : p b ↔ p (g i)) : headcount p (Function.update g i b) = headcount p g :=
  tally_update_same _ g (if_congr h rfl rfl)

theorem headcount_eq_zero {p : β → Prop} [DecidablePred p] {g : ι → β} (h : ∀ i, ¬p (g i)) :
    headcount p g = 0 := by
  rw [headcount_eq_card, Finset.card_eq_zero, Finset.filter_eq_empty_iff]
  intro i _
  exact h i

end Systems

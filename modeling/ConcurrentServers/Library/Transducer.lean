import Mathlib.Tactic

/-!
# Finite-state transducers on lists

A transducer reads its input one letter at a time and emits a word for each.
Its output on a concatenation is cut at the state reached in between, which
is what makes any resumable implementation independent of the segmentation
of its input.
-/

namespace Systems

structure Transducer (σ α β : Type*) where
  next : σ → α → σ
  emit : σ → α → List β

namespace Transducer

variable {σ α β : Type*} (M : Transducer σ α β)

def state (s : σ) (xs : List α) : σ := xs.foldl M.next s

def output : σ → List α → List β
  | _, [] => []
  | s, x :: xs => M.emit s x ++ output (M.next s x) xs

@[simp] theorem state_nil (s : σ) : M.state s [] = s := rfl

@[simp] theorem state_cons (s : σ) (x : α) (xs : List α) :
    M.state s (x :: xs) = M.state (M.next s x) xs := rfl

@[simp] theorem output_nil (s : σ) : M.output s [] = [] := rfl

@[simp] theorem output_cons (s : σ) (x : α) (xs : List α) :
    M.output s (x :: xs) = M.emit s x ++ M.output (M.next s x) xs := rfl

theorem state_append (s : σ) (xs ys : List α) :
    M.state s (xs ++ ys) = M.state (M.state s xs) ys :=
  List.foldl_append

theorem output_append (s : σ) (xs ys : List α) :
    M.output s (xs ++ ys) = M.output s xs ++ M.output (M.state s xs) ys := by
  induction xs generalizing s with
  | nil => rfl
  | cons x xs ih => simp [ih]

/-- A transducer that emits at most one letter per letter read never grows
its input. -/
theorem length_output_le (hM : ∀ s x, (M.emit s x).length ≤ 1) (s : σ) (xs : List α) :
    (M.output s xs).length ≤ xs.length := by
  induction xs generalizing s with
  | nil => simp
  | cons x xs ih =>
      have hx := hM s x
      have hxs := ih (M.next s x)
      simp only [output_cons, List.length_append, List.length_cons]
      omega

end Transducer

end Systems

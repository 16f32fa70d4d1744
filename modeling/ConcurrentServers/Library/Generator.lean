import Mathlib.Tactic

/-!
# Generators that receive

Functions with `yield` expressions that take values and give none, as they are
used for coroutines. Every loop of such a function starts its body with a `yield`,
and one variable holds the value that was received last. So the code from one
`yield` to the next is finite and is run by recursion on it.

A suspended generator is the loop whose `yield` it waits at, with what stands
behind that loop: the statements to go on with and the loops around it.
-/

namespace Systems

/-- Statements that read the received value, of type `ι`, and act on a state of type
`σ` with exceptions of type `ε`. The statement `receive body` is the loop
`while True: x = (yield); body`, and `leave` is `break`. -/
inductive Code (ι σ ε : Type) where
  | receive (body : Code ι σ ε)
  | call (f : ι → EStateM ε σ Unit)
  | cond (c : ι → Bool) (body : Code ι σ ε)
  | seq (first second : Code ι σ ε)
  | leave

namespace Code

variable {ι σ ε : Type}

/-- Something to do behind a statement: the next round of a loop around it, or the
statements that follow it. -/
inductive Frame (ι σ ε : Type) where
  | loop (body : Code ι σ ε)
  | rest (c : Code ι σ ε)

/-- Suspended at the `yield` of the loop with this body. -/
structure Position (ι σ ε : Type) where
  body : Code ι σ ε
  outer : List (Frame ι σ ε)

inductive Flow (ι σ ε : Type) where
  | falls
  | leaves
  | yields (p : Position ι σ ε)

def exec : Code ι σ ε → ι → EStateM ε σ (Flow ι σ ε)
  | receive body, _ => pure (.yields ⟨body, []⟩)
  | call f, x => do
      f x
      pure .falls
  | cond c body, x => if c x then body.exec x else pure .falls
  | seq first second, x => do
      match ← first.exec x with
      | .falls => second.exec x
      | .leaves => pure .leaves
      | .yields p => pure (.yields { p with outer := p.outer ++ [.rest second] })
  | leave, _ => pure .leaves

/-- The frames behind a statement take over from it. The generator returns when there
are none left. -/
def unwind (x : ι) :
    List (Frame ι σ ε) → Flow ι σ ε → EStateM ε σ (Option (Position ι σ ε))
  | frames, .yields p => pure (some { p with outer := p.outer ++ frames })
  | [], _ => pure none
  | .loop body :: frames, .falls => pure (some ⟨body, frames⟩)
  -- `break` goes on behind the loop.
  | .loop _ :: frames, .leaves => unwind x frames .falls
  | .rest c :: frames, .falls => do
      let flow ← c.exec x
      unwind x frames flow
  | .rest _ :: frames, .leaves => unwind x frames .leaves

/-- From one `yield` to the next. -/
def Position.resume (p : Position ι σ ε) (x : ι) : EStateM ε σ (Option (Position ι σ ε)) := do
  let flow ← p.body.exec x
  unwind x (.loop p.body :: p.outer) flow

end Code

/-! ## Generator objects -/

/-- The exceptions of `send` itself, and what becomes of one that leaves a generator. -/
structure Signals (ε : Type) where
  unstarted : ε
  exhausted : ε
  escaping : ε → ε

/-- The object of a generator function `while True: x = (yield); body`. -/
inductive Generator (ι σ ε : Type) where
  | created (body : Code ι σ ε)
  | suspended (p : Code.Position ι σ ε)
  | finished

namespace Generator

variable {ι σ ε : Type}

/-- The first `next`, which runs to the first `yield`. -/
def start : Generator ι σ ε → Generator ι σ ε
  | .created body => .suspended ⟨body, []⟩
  | g => g

/-- The state holds the generator beside what it acts on. An exception ends it. -/
def send (signals : Signals ε) (x : ι) : EStateM ε (Generator ι σ ε × σ) Unit := fun (g, s) =>
  match g with
  | .created body => .error signals.unstarted (.created body, s)
  | .finished => .error signals.exhausted (.finished, s)
  | .suspended p =>
      match p.resume x s with
      | .ok (some p') s' => .ok () (.suspended p', s')
      | .ok none s' => .error signals.exhausted (.finished, s')
      | .error e s' => .error (signals.escaping e) (.finished, s')

variable {signals : Signals ε} {x : ι} {p p' : Code.Position ι σ ε} {s s' : σ} {e : ε}

theorem send_of_yield (h : p.resume x s = .ok (some p') s') :
    send signals x (.suspended p, s) = .ok () (.suspended p', s') := by
  simp only [send, h]

theorem send_of_error (h : p.resume x s = .error e s') :
    send signals x (.suspended p, s) = .error (signals.escaping e) (.finished, s') := by
  simp only [send, h]

end Generator

/-! ## One round of a loop -/

namespace Code

variable {ι σ ε : Type} {p : Position ι σ ε} {x : ι} {s s' : σ} {e : ε}

theorem resume_of_falls (h : p.body.exec x s = .ok .falls s') :
    p.resume x s = .ok (some p) s' := by
  unfold Position.resume
  simp only [bind, EStateM.bind, h]
  rfl

theorem resume_of_yields {q : Position ι σ ε} (h : p.body.exec x s = .ok (.yields q) s') :
    p.resume x s = .ok (some { q with outer := q.outer ++ .loop p.body :: p.outer }) s' := by
  unfold Position.resume
  simp only [bind, EStateM.bind, h]
  rfl

theorem resume_of_leaves {body : Code ι σ ε} {outer : List (Frame ι σ ε)}
    (h : p.body.exec x s = .ok .leaves s') (houter : p.outer = .loop body :: outer) :
    p.resume x s = .ok (some ⟨body, outer⟩) s' := by
  unfold Position.resume
  simp only [bind, EStateM.bind, h, houter]
  rfl

theorem resume_of_error (h : p.body.exec x s = .error e s') : p.resume x s = .error e s' := by
  unfold Position.resume
  simp only [bind, EStateM.bind, h]

end Code

/-! ## Two programs in step -/

/-- Two computations raise together, with exceptions related by `E`, or give results
related by `R`. -/
inductive Agree {ε ε' α β : Type} (E : ε → ε' → Prop) (R : α → β → Prop) :
    Except ε α → Except ε' β → Prop where
  | error {e : ε} {e' : ε'} (h : E e e') : Agree E R (.error e) (.error e')
  | ok {a : α} {b : β} (h : R a b) : Agree E R (.ok a) (.ok b)

namespace Agree

variable {ε ε' α β γ δ ι : Type} {E : ε → ε' → Prop} {R : α → β → Prop} {S : γ → δ → Prop}

theorem bind {x : Except ε α} {y : Except ε' β} {f : α → Except ε γ} {g : β → Except ε' δ}
    (h : Agree E R x y) (hfg : ∀ a b, R a b → Agree E S (f a) (g b)) :
    Agree E S (x >>= f) (y >>= g) := by
  cases h with
  | error he => exact .error he
  | ok hr => exact hfg _ _ hr

theorem foldlM {f : α → ι → Except ε α} {g : β → ι → Except ε' β}
    (hfg : ∀ a b x, R a b → Agree E R (f a x) (g b x)) (xs : List ι) {a : α} {b : β}
    (h : R a b) : Agree E R (xs.foldlM f a) (xs.foldlM g b) := by
  induction xs generalizing a b with
  | nil => exact .ok h
  | cons x xs ih => exact (hfg a b x h).bind fun a' b' h' => ih h'

end Agree

end Systems

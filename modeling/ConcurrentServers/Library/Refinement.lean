import ConcurrentServers.Library.Machine

/-!
# Refinement

A machine refines another one along a view of its states if every step is seen
as a run of the other machine, which may be empty. Whatever was proved of the
runs of the abstract machine then holds of what is seen of the concrete one. A
record that is kept beside a machine does not change what the machine does.
-/

namespace Systems

variable {σ τ υ α β γ δ : Type*}

/-- The steps of `M` are seen through `view` as runs of `N`. A step from a state that
no run reaches does not matter. -/
structure Refines (M : Machine σ α) (N : Machine τ β) (view : σ → τ) : Prop where
  init : ∀ s, M.init s → N.init (view s)
  step : ∀ s a t, M.Reachable s → M.step s a = some t →
    ∃ bs, N.run (view s) bs = some (view t)

namespace Refines

variable {M : Machine σ α} {N : Machine τ β} {O : Machine υ δ} {view : σ → τ} {view' : τ → υ}

theorem reachable (h : Refines M N view) {s : σ} (hs : M.Reachable s) :
    N.Reachable (view s) := by
  induction hs with
  | init hinit => exact .init (h.init _ hinit)
  | step a hs hstep ih =>
      obtain ⟨bs, hrun⟩ := h.step _ a _ hs hstep
      exact ih.run hrun

/-- A run is seen as a run. -/
theorem run (h : Refines M N view) {s t : σ} {as : List α} (hs : M.Reachable s)
    (hrun : M.run s as = some t) : ∃ bs, N.run (view s) bs = some (view t) := by
  induction as generalizing s with
  | nil =>
      cases hrun
      exact ⟨[], rfl⟩
  | cons a as ih =>
      obtain ⟨u, hu, hrest⟩ := Option.bind_eq_some_iff.mp hrun
      obtain ⟨bs, hbs⟩ := h.step s a u hs hu
      obtain ⟨cs, hcs⟩ := ih (hs.step a hu) hrest
      exact ⟨bs ++ cs, Machine.run_append hbs hcs⟩

theorem trans (h : Refines M N view) (h' : Refines N O view') :
    Refines M O fun s => view' (view s) where
  init s hs := h'.init _ (h.init s hs)
  step s a t hs hstep := by
    obtain ⟨bs, hbs⟩ := h.step s a t hs hstep
    exact h'.run (h.reachable hs) hbs

end Refines

namespace Machine

/-- The machine with a record of its steps. Some of the steps may be excluded. -/
def observed (M : Machine σ α) (allows : σ → α → Bool) (blank : γ) (note : σ → α → γ → γ) :
    Machine (σ × γ) α where
  init p := M.init p.1 ∧ p.2 = blank
  step p a := if allows p.1 a then (M.step p.1 a).map fun t => (t, note p.1 a p.2) else none

variable {M : Machine σ α} {allows : σ → α → Bool} {blank : γ} {note : σ → α → γ → γ}

theorem observed_step {p q : σ × γ} {a : α}
    (h : (M.observed allows blank note).step p a = some q) :
    allows p.1 a = true ∧ M.step p.1 a = some q.1 ∧ q.2 = note p.1 a p.2 := by
  obtain ⟨hallows, h⟩ := Option.ite_none_right_eq_some.mp h
  obtain ⟨t, ht, rfl⟩ := Option.map_eq_some_iff.mp h
  exact ⟨hallows, ht, rfl⟩

theorem run_singleton {s t : σ} {a : α} (h : M.step s a = some t) : M.run s [a] = some t := by
  rw [run, h]
  rfl

theorem observed_refines : Refines (M.observed allows blank note) M Prod.fst where
  init _ h := h.1
  step _ a _ _ h := ⟨[a], run_singleton (observed_step h).2.1⟩

end Machine

namespace Process

def map (f : σ → τ) : Process σ → Process τ
  | .running s => .running (f s)
  | .exited => .exited

/-- The rule for processes. An exit has to be an exit of the abstract process too. -/
theorem refines {init : σ → Prop} {step : σ → α → Option (Process σ)} {init' : τ → Prop}
    {step' : τ → β → Option (Process τ)} {f : σ → τ} (hinit : ∀ s, init s → init' (f s))
    (hstep : ∀ s a t, (machine init step).Reachable (.running s) →
      step s a = some (.running t) →
      ∃ bs, (machine init' step').run (.running (f s)) bs = some (.running (f t)))
    (hexit : ∀ s a, step s a = some .exited → ∃ b, step' (f s) b = some .exited) :
    Refines (machine init step) (machine init' step') (map f) where
  init := by
    rintro _ ⟨s, rfl, hs⟩
    exact ⟨f s, rfl, hinit s hs⟩
  step := by
    intro p a q hp hs
    cases p with
    | exited => cases hs
    | running s =>
        cases q with
        | running t => exact hstep s a t hp hs
        | exited =>
            obtain ⟨b, hb⟩ := hexit s a hs
            exact ⟨[b], Machine.run_singleton (M := machine init' step') hb⟩

/-- The invariant rule for a process with a record: an exit needs no proof. -/
theorem observed_invariant {init : σ → Prop} {step : σ → α → Option (Process σ)}
    {allows : Process σ → α → Bool} {blank : γ} {note : Process σ → α → γ → γ}
    {P : σ → γ → Prop} (hinit : ∀ s, init s → P s blank)
    (hstep : ∀ s a t g, (machine init step).Reachable (.running s) → P s g →
      allows (.running s) a = true → step s a = some (.running t) → P t (note (.running s) a g))
    {s : σ} {g : γ}
    (h : ((machine init step).observed allows blank note).Reachable (.running s, g)) :
    P s g := by
  have hall : (Process.running s).All fun s => P s g := by
    refine Machine.Reachable.invariant (P := fun p => p.1.All fun s => P s p.2) ?_ ?_ h
    · rintro ⟨_, g⟩ ⟨⟨s, rfl, hs⟩, hblank⟩
      cases hblank
      exact hinit s hs
    · rintro ⟨p, g⟩ a ⟨q, g'⟩ hreach hp hs
      obtain ⟨hallows, hs, rfl⟩ := Machine.observed_step hs
      cases p with
      | exited => cases hs
      | running s =>
          cases q with
          | exited => trivial
          | running t =>
              exact hstep s a t g (Machine.observed_refines.reachable hreach) hp hallows hs
  exact hall

/-- The rule for a process with a record. -/
theorem observed_refines {init : σ → Prop} {step : σ → α → Option (Process σ)}
    {allows : Process σ → α → Bool} {blank : γ} {note : Process σ → α → γ → γ}
    {init' : τ → Prop} {step' : τ → β → Option (Process τ)} {f : σ → γ → τ}
    (hinit : ∀ s, init s → init' (f s blank))
    (hstep : ∀ s a t g, ((machine init step).observed allows blank note).Reachable (.running s, g) →
      allows (.running s) a = true → step s a = some (.running t) →
      ∃ bs, (machine init' step').run (.running (f s g)) bs =
        some (.running (f t (note (.running s) a g))))
    (hexit : ∀ s g a, step s a = some .exited → ∃ b, step' (f s g) b = some .exited) :
    Refines ((machine init step).observed allows blank note) (machine init' step')
      fun p => p.1.map (f · p.2) where
  init := by
    rintro ⟨_, g⟩ ⟨⟨s, rfl, hs⟩, hblank⟩
    cases hblank
    exact ⟨f s g, rfl, hinit s hs⟩
  step := by
    rintro ⟨p, g⟩ a ⟨q, g'⟩ hp hs
    obtain ⟨hallows, hs, rfl⟩ := Machine.observed_step hs
    cases p with
    | exited => cases hs
    | running s =>
        cases q with
        | running t => exact hstep s a t g hp hallows hs
        | exited =>
            obtain ⟨b, hb⟩ := hexit s g a hs
            exact ⟨[b], Machine.run_singleton (M := machine init' step') hb⟩

end Process

end Systems

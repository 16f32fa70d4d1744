import Mathlib.Tactic

/-!
# Machines driven by their environment

A machine advances by partial steps. The label of a step holds every choice
that the environment makes, and `none` says that the environment cannot make
this choice in the current state. What holds of every run is proved once from
the initial states and one step.
-/

namespace Systems

structure Machine (σ α : Type*) where
  init : σ → Prop
  step : σ → α → Option σ

namespace Machine

variable {σ α : Type*} (M : Machine σ α)

def run : σ → List α → Option σ
  | s, [] => some s
  | s, a :: as => (M.step s a).bind fun t => run t as

/-- The states at the end of some run from an initial state. Every state in
the middle of a run is at the end of a shorter one. -/
inductive Reachable : σ → Prop
  | init {s : σ} (h : M.init s) : Reachable s
  | step {s t : σ} (a : α) (hs : Reachable s) (h : M.step s a = some t) : Reachable t

variable {M}

theorem run_append {s t u : σ} {as bs : List α} (h : M.run s as = some t)
    (h' : M.run t bs = some u) : M.run s (as ++ bs) = some u := by
  induction as generalizing s with
  | nil =>
      cases h
      exact h'
  | cons a as ih =>
      obtain ⟨v, hv, ht⟩ := Option.bind_eq_some_iff.mp h
      exact Option.bind_eq_some_iff.mpr ⟨v, hv, ih ht⟩

/-- What every step with one of its labels keeps, a run keeps. -/
theorem run_invariant_of_mem {P : σ → Prop} {as : List α}
    (hstep : ∀ a ∈ as, ∀ s t, P s → M.step s a = some t → P t) {s t : σ} (hs : P s)
    (h : M.run s as = some t) : P t := by
  induction as generalizing s with
  | nil =>
      cases h
      exact hs
  | cons a as ih =>
      obtain ⟨u, hu, ht⟩ := Option.bind_eq_some_iff.mp h
      obtain ⟨ha, has⟩ := List.forall_mem_cons.mp hstep
      exact ih has (ha s u hs hu) ht

/-- What every step keeps, a run keeps. -/
theorem run_invariant {P : σ → Prop} (hstep : ∀ s a t, P s → M.step s a = some t → P t)
    {s t : σ} {as : List α} (hs : P s) (h : M.run s as = some t) : P t :=
  run_invariant_of_mem (fun a _ s t => hstep s a t) hs h

theorem Reachable.run {s t : σ} {as : List α} (hs : M.Reachable s)
    (h : M.run s as = some t) : M.Reachable t :=
  run_invariant (fun _ a _ hs h => hs.step a h) hs h

theorem reachable_of_run {s t : σ} (as : List α) (hs : M.init s)
    (h : M.run s as = some t) : M.Reachable t :=
  (Reachable.init hs).run h

/-- What holds initially and is kept by every step from a reachable state
holds of every reachable state. -/
theorem Reachable.invariant {P : σ → Prop} (hinit : ∀ s, M.init s → P s)
    (hstep : ∀ s a t, M.Reachable s → P s → M.step s a = some t → P t)
    {s : σ} (h : M.Reachable s) : P s := by
  induction h with
  | init h => exact hinit _ h
  | step a hs h ih => exact hstep _ a _ hs ih h

/-- The states at the end of some run whose steps all meet a condition on the
state before the step and the label. -/
inductive ReachableBy (M : Machine σ α) (ok : σ → α → Prop) : σ → Prop
  | init {s : σ} (h : M.init s) : ReachableBy M ok s
  | step {s t : σ} (a : α) (hs : ReachableBy M ok s) (hok : ok s a) (h : M.step s a = some t) :
      ReachableBy M ok t

theorem ReachableBy.reachable {ok : σ → α → Prop} {s : σ} (h : M.ReachableBy ok s) :
    M.Reachable s := by
  induction h with
  | init h => exact .init h
  | step a _ _ h ih => exact ih.step a h

theorem Reachable.reachableBy {s : σ} (h : M.Reachable s) : M.ReachableBy (fun _ _ => True) s := by
  induction h with
  | init h => exact .init h
  | step a _ h ih => exact ih.step a trivial h

theorem ReachableBy.mono {ok ok' : σ → α → Prop} (hok : ∀ s a, ok s a → ok' s a) {s : σ}
    (h : M.ReachableBy ok s) : M.ReachableBy ok' s := by
  induction h with
  | init h => exact .init h
  | step a _ hstep h ih => exact ih.step a (hok _ a hstep) h

/-- Every step of the run meets the condition. -/
def Admits (M : Machine σ α) (ok : σ → α → Prop) : σ → List α → Prop
  | _, [] => True
  | s, a :: as => ok s a ∧ ∀ t, M.step s a = some t → Admits M ok t as

theorem admits_of_forall {ok : σ → α → Prop} {as : List α} (h : ∀ a ∈ as, ∀ s, ok s a) (s : σ) :
    M.Admits ok s as := by
  induction as generalizing s with
  | nil => trivial
  | cons a as ih =>
      refine ⟨h a List.mem_cons_self s, fun t _ => ih ?_ t⟩
      exact fun b hb => h b (List.mem_cons_of_mem a hb)

theorem ReachableBy.run {ok : σ → α → Prop} {s t : σ} (hs : M.ReachableBy ok s) (as : List α)
    (hok : M.Admits ok s as) (h : M.run s as = some t) : M.ReachableBy ok t := by
  induction as generalizing s with
  | nil =>
      cases h
      exact hs
  | cons a as ih =>
      obtain ⟨u, hu, ht⟩ := Option.bind_eq_some_iff.mp h
      exact ih (hs.step a hok.1 hu) (hok.2 u hu) ht

/-- If a step that breaks the condition does damage for good, the condition is what the
end of a run shows. -/
theorem admits_iff {ok : σ → α → Prop} {P L : σ → Prop} (hdisjoint : ∀ s, P s → ¬L s)
    (hok : ∀ s a t, P s → ok s a → M.step s a = some t → P t)
    (hbad : ∀ s a t, P s → ¬ok s a → M.step s a = some t → L t)
    (hlost : ∀ s a t, L s → M.step s a = some t → L t) {s t : σ} {as : List α} (hs : P s)
    (hrun : M.run s as = some t) : (M.Admits ok s as ↔ P t) ∧ (¬M.Admits ok s as ↔ L t) := by
  induction as generalizing s with
  | nil =>
      cases hrun
      exact ⟨iff_of_true trivial hs, iff_of_false (not_not.mpr trivial) (hdisjoint _ hs)⟩
  | cons a as ih =>
      obtain ⟨u, hu, hrun⟩ := Option.bind_eq_some_iff.mp hrun
      by_cases hstep : ok s a
      · have hadmits : M.Admits ok s (a :: as) ↔ M.Admits ok u as :=
          ⟨fun h => h.2 u hu, fun h => ⟨hstep, fun v hv => Option.some.inj (hu.symm.trans hv) ▸ h⟩⟩
        rw [hadmits]
        exact ih (hok s a u hs hstep hu) hrun
      · have hnot : ¬M.Admits ok s (a :: as) := fun h => hstep h.1
        have hend := run_invariant hlost (hbad s a u hs hstep hu) hrun
        exact ⟨iff_of_false hnot fun h => hdisjoint t h hend, iff_of_true hnot hend⟩

/-- The invariant rule for such runs. The step may use that the state before it
is reachable. -/
theorem ReachableBy.invariant {ok : σ → α → Prop} {P : σ → Prop} (hinit : ∀ s, M.init s → P s)
    (hstep : ∀ s a t, M.Reachable s → P s → ok s a → M.step s a = some t → P t)
    {s : σ} (h : M.ReachableBy ok s) : P s := by
  induction h with
  | init h => exact hinit _ h
  | step a hs hok h ih => exact hstep _ a _ hs.reachable ih hok h

/-- As long as the goal is not reached, some step of a kind makes progress. -/
theorem exists_run_of_progress {β : Type*} [Preorder β] [WellFoundedLT β] (μ : σ → β)
    {ok : σ → α → Prop} {kind : α → Prop} {P Q : σ → Prop}
    (hstep : ∀ s, P s → ¬Q s → ∃ a t, ok s a ∧ kind a ∧ M.step s a = some t ∧ P t ∧ μ t < μ s)
    {s : σ} (hs : P s) :
    ∃ as t, M.run s as = some t ∧ M.Admits ok s as ∧ (∀ a ∈ as, kind a) ∧ P t ∧ Q t := by
  induction hμ : μ s using WellFoundedLT.induction generalizing s with
  | ind b ih =>
      by_cases hQ : Q s
      · exact ⟨[], s, rfl, trivial, by simp, hs, hQ⟩
      · obtain ⟨a, u, hok, hkind, hu, hP, hlt⟩ := hstep s hs hQ
        obtain ⟨as, t, hrun, hadmits, hkinds, ht⟩ := ih (μ u) (hμ ▸ hlt) hP rfl
        refine ⟨a :: as, t, Option.bind_eq_some_iff.mpr ⟨u, hu, hrun⟩, ⟨hok, ?_⟩, ?_, ht⟩
        · intro v hv
          cases hu.symm.trans hv
          exact hadmits
        · exact List.forall_mem_cons.mpr ⟨hkind, hkinds⟩

/-- If every step before the goal makes progress and the goal is kept, a long run has
reached it. -/
theorem reached_of_length (μ : σ → ℕ) {ok : σ → α → Prop} {P Q : σ → Prop}
    (hstep : ∀ s a t, P s → ¬Q s → ok s a → M.step s a = some t → P t ∧ μ t < μ s)
    (hkeep : ∀ s a t, Q s → M.step s a = some t → Q t) {s t : σ} {as : List α} (hs : P s)
    (hok : M.Admits ok s as) (hrun : M.run s as = some t) (hlength : μ s < as.length) : Q t := by
  induction as generalizing s with
  | nil => exact absurd hlength (Nat.not_lt_zero _)
  | cons a as ih =>
      by_cases hQ : Q s
      · exact run_invariant hkeep hQ hrun
      · obtain ⟨u, hu, hrun⟩ := Option.bind_eq_some_iff.mp hrun
        obtain ⟨hP, hlt⟩ := hstep s a u hs hQ hok.1 hu
        rw [List.length_cons] at hlength
        exact ih hP (hok.2 u hu) hrun (by omega)

/-- If the steps of a kind use up a measure that no step adds to, the measure bounds how
many of them a run has. -/
theorem countP_le_of_run (μ : σ → ℕ) (kind : α → Bool) {P : σ → Prop}
    (hstep : ∀ s a t, P s → M.step s a = some t →
      P t ∧ μ t + (if kind a then 1 else 0) ≤ μ s) {s t : σ} {as : List α} (hs : P s)
    (hrun : M.run s as = some t) : μ t + as.countP kind ≤ μ s := by
  induction as generalizing s with
  | nil =>
      cases hrun
      exact le_rfl
  | cons a as ih =>
      obtain ⟨u, hu, hrun⟩ := Option.bind_eq_some_iff.mp hrun
      obtain ⟨hP, hle⟩ := hstep s a u hs hu
      have hrest := ih hP hrun
      rw [List.countP_cons]
      omega

/-- What the steps of a run add up to. -/
def total (M : Machine σ α) (w : σ → α → ℕ) : σ → List α → ℕ
  | _, [] => 0
  | s, a :: as => w s a + (M.step s a).elim 0 fun t => total M w t as

theorem total_cons {w : σ → α → ℕ} {s t : σ} {a : α} {as : List α} (h : M.step s a = some t) :
    M.total w s (a :: as) = w s a + M.total w t as := by
  rw [total, h, Option.elim_some]

theorem total_append (w : σ → α → ℕ) {s t : σ} {as : List α} (h : M.run s as = some t)
    (bs : List α) : M.total w s (as ++ bs) = M.total w s as + M.total w t bs := by
  induction as generalizing s with
  | nil =>
      cases h
      simp [total]
  | cons a as ih =>
      obtain ⟨u, hu, ht⟩ := Option.bind_eq_some_iff.mp h
      rw [List.cons_append, total_cons hu, total_cons hu, ih ht, Nat.add_assoc]

/-- The invariant rule with a total of the steps so far. -/
theorem run_total {w : σ → α → ℕ} {P : σ → ℕ → Prop}
    (hstep : ∀ s a t n, P s n → M.step s a = some t → P t (n + w s a))
    {s t : σ} {n : ℕ} (as : List α) (hs : P s n) (h : M.run s as = some t) :
    P t (n + M.total w s as) := by
  induction as generalizing s n with
  | nil =>
      cases h
      exact hs
  | cons a as ih =>
      obtain ⟨u, hu, ht⟩ := Option.bind_eq_some_iff.mp h
      have hrest := ih (hstep s a u n hs hu) ht
      rwa [Nat.add_assoc, ← total_cons hu] at hrest

/-- A cycle that counts one can be repeated any number of times. -/
theorem exists_run_cycle {w : σ → α → ℕ} {P : ℕ → σ → Prop} {s : σ} (hs : P 0 s) (cycle : List α)
    (hcycle : ∀ n t, P n t → ∃ u, M.run t cycle = some u ∧ P (n + 1) u ∧ M.total w t cycle = 1)
    (n : ℕ) : ∃ as t, M.run s as = some t ∧ P n t ∧ M.total w s as = n := by
  induction n with
  | zero => exact ⟨[], s, rfl, hs, rfl⟩
  | succ n ih =>
      obtain ⟨as, t, ht, hn, htotal⟩ := ih
      obtain ⟨u, hu, hsucc, hone⟩ := hcycle n t hn
      refine ⟨as ++ cycle, u, run_append ht hu, hsucc, ?_⟩
      rw [total_append w ht, htotal, hone]

end Machine

/-- A process runs until it leaves through one of its fatal error paths. -/
inductive Process (σ : Type*) where
  | running (s : σ)
  | exited

namespace Process

variable {σ τ : Type*}

def andThen : Process σ → (σ → Process τ) → Process τ
  | .running s, f => f s
  | .exited, _ => .exited

theorem andThen_eq_running {p : Process σ} {f : σ → Process τ} {t : τ}
    (h : p.andThen f = .running t) : ∃ s, p = .running s ∧ f s = .running t := by
  cases p with
  | running s => exact ⟨s, rfl, h⟩
  | exited => cases h

def All (P : σ → Prop) : Process σ → Prop
  | .running s => P s
  | .exited => True

/-- A machine whose steps may end the process. Nothing follows an exit. -/
def machine {α : Type*} (init : σ → Prop) (step : σ → α → Option (Process σ)) :
    Machine (Process σ) α where
  init p := ∃ s, p = .running s ∧ init s
  step p a :=
    match p with
    | .running s => step s a
    | .exited => none

/-- The invariant rule for a process: an exit needs no proof. -/
theorem machine_invariantBy {α : Type*} {init : σ → Prop} {step : σ → α → Option (Process σ)}
    {ok : Process σ → α → Prop} {P : σ → Prop} (hinit : ∀ s, init s → P s)
    (hstep : ∀ s a t, P s → ok (.running s) a → step s a = some (.running t) → P t)
    {s : σ} (h : (machine init step).ReachableBy ok (.running s)) : P s := by
  have hall : (Process.running s).All P := by
    refine Machine.ReachableBy.invariant (P := All P) ?_ ?_ h
    · rintro _ ⟨s, rfl, hs⟩
      exact hinit s hs
    · intro p a q _ hp hok hq
      cases p with
      | exited => cases hq
      | running s =>
          cases q with
          | exited => trivial
          | running t => exact hstep s a t hp hok hq
  exact hall

theorem machine_invariant {α : Type*} {init : σ → Prop} {step : σ → α → Option (Process σ)}
    {P : σ → Prop} (hinit : ∀ s, init s → P s)
    (hstep : ∀ s a t, P s → step s a = some (.running t) → P t)
    {s : σ} (h : (machine init step).Reachable (.running s)) : P s :=
  machine_invariantBy hinit (fun s a t hs _ => hstep s a t hs) h.reachableBy

end Process

end Systems

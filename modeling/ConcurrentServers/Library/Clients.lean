import ConcurrentServers.Library.Machine
import ConcurrentServers.Library.WriteQueue

/-!
# Clients of an event loop

A server that runs one callback after the other. Every callback is about one
client, from its arrival to its removal, and leaves the others alone. So an
invariant is one on a single client, and a condition on the environment is one on
a single step. A client has a handle with a queue of writes, which are reported
when they are transmitted, or fail.
-/

namespace Systems

/-! ## Handles -/

/-- A handle with its queued writes, and the record of what was transmitted. -/
structure Handle (κ α : Type*) where
  closing : Bool
  writes : List (Write κ)
  transmitted : List α

namespace Handle

variable {κ α ε : Type*} {n : ℕ}

/-- Nothing is transmitted behind a close. -/
def transmit (handle : Handle κ α) (b : List.Vector α n) (k : ℕ) : Option (Handle κ α) :=
  if handle.closing then none
  else
    (Write.transmit b k handle.writes).map fun r =>
      { handle with writes := r.1, transmitted := handle.transmitted ++ r.2 }

theorem transmit_eq_some {handle handle' : Handle κ α} {b : List.Vector α n} {k : ℕ}
    (h : handle.transmit b k = some handle') :
    handle.closing = false ∧ ∃ r, Write.transmit b k handle.writes = some r ∧
      handle' = { handle with writes := r.1, transmitted := handle.transmitted ++ r.2 } := by
  obtain ⟨hopen, h⟩ := Option.ite_none_left_eq_some.mp h
  obtain ⟨r, hr, rfl⟩ := Option.map_eq_some_iff.mp h
  exact ⟨Bool.eq_false_of_not_eq_true hopen, r, hr, rfl⟩

/-- The status with which the first write of the queue can complete. A close cancels
what is not transmitted. -/
def Completes (handle : Handle κ α) (cancelled : ε) (w : Write κ) (status : Except ε Unit) :
    Prop :=
  if w.Transmitted then status = .ok ()
  else if handle.closing then status = .error cancelled
  else status ≠ .ok ()

instance [DecidableEq ε] (handle : Handle κ α) (cancelled : ε) (w : Write κ)
    (status : Except ε Unit) : Decidable (handle.Completes cancelled w status) :=
  inferInstanceAs (Decidable (if w.Transmitted then status = .ok ()
    else if handle.closing then status = .error cancelled else status ≠ .ok ()))

theorem Completes.eq_ok_iff {handle : Handle κ α} {cancelled : ε} {w : Write κ}
    {status : Except ε Unit} (h : handle.Completes cancelled w status) :
    status = .ok () ↔ w.Transmitted := by
  unfold Completes at h
  split at h
  · next hw => exact iff_of_true h hw
  · next hw =>
      refine iff_of_false ?_ hw
      split at h
      · rw [h]
        simp
      · exact h

end Handle

/-! ## Clients -/

/-- The clients of a server, by their numbers. -/
structure Clients (κ : Type*) where
  clients : ℕ → Option κ

namespace Clients

variable {κ α : Type*} {s s' : Clients κ} {a : α} {c : ℕ} {client : κ}

def set (s : Clients κ) (c : ℕ) (client : Option κ) : Clients κ :=
  ⟨Function.update s.clients c client⟩

theorem clients_set_ne {c' : ℕ} (hne : c' ≠ c) (o : Option κ) :
    (s.set c o).clients c' = s.clients c' :=
  Function.update_of_ne hne _ _

theorem clients_set_same (o : Option κ) : (s.set c o).clients c = o :=
  Function.update_self _ _ _

/-- The step of a client that is there, or of the server when it is not. -/
def step (who : α → ℕ) (arrive : Clients κ → α → Option (Process (Clients κ)))
    (move : κ → α → Option (Process (Option κ))) (s : Clients κ) (a : α) :
    Option (Process (Clients κ)) :=
  match s.clients (who a) with
  | none => arrive s a
  | some client => (move client a).map fun p => p.andThen fun o => .running (s.set (who a) o)

variable {who : α → ℕ} {arrive : Clients κ → α → Option (Process (Clients κ))}
  {move : κ → α → Option (Process (Option κ))}

theorem step_of_none (hc : s.clients (who a) = none) : s.step who arrive move a = arrive s a := by
  rw [step, hc]

theorem step_of_some (hc : s.clients (who a) = some client) :
    s.step who arrive move a =
      (move client a).map fun p => p.andThen fun o => .running (s.set (who a) o) := by
  rw [step, hc]

theorem step_client {o : Option κ} (hc : s.clients (who a) = some client)
    (hs : move client a = some (.running o)) :
    s.step who arrive move a = some (.running (s.set (who a) o)) := by
  rw [step_of_some hc, hs, Option.map_some, Process.andThen]

theorem step_running (hs : s.step who arrive move a = some (.running s')) :
    s.clients (who a) = none ∧ arrive s a = some (.running s') ∨
    ∃ client o, s.clients (who a) = some client ∧ move client a = some (.running o) ∧
      s' = s.set (who a) o := by
  cases hc : s.clients (who a) with
  | none =>
      rw [step_of_none hc] at hs
      exact Or.inl ⟨rfl, hs⟩
  | some client =>
      rw [step_of_some hc] at hs
      obtain ⟨p, hp, hs⟩ := Option.map_eq_some_iff.mp hs
      obtain ⟨o, rfl, hs⟩ := Process.andThen_eq_running hs
      cases hs
      exact Or.inr ⟨client, o, rfl, hp, rfl⟩

/-- A condition on the steps of single clients. -/
def perClient (who : α → ℕ) (ok : κ → α → Prop) (p : Process (Clients κ)) (a : α) : Prop :=
  p.All fun s => ∀ client, s.clients (who a) = some client → ok client a

theorem perClient_of_forall {ok : κ → α → Prop} (hok : ∀ client, ok client a)
    (p : Process (Clients κ)) : perClient who ok p a := by
  cases p with
  | running s => exact fun client _ => hok client
  | exited => trivial

def All (P : κ → Prop) (s : Clients κ) : Prop := ∀ c client, s.clients c = some client → P client

theorem All.set {P : κ → Prop} (h : s.All P) {o : Option κ}
    (ho : ∀ client, o = some client → P client) : (s.set c o).All P := by
  intro c' client hclient
  by_cases heq : c' = c
  · subst heq
    rw [clients_set_same] at hclient
    exact ho client hclient
  · rw [clients_set_ne heq] at hclient
    exact h c' client hclient

/-- The invariant rule for single clients. An arrival may also fail. -/
theorem invariant {init : Clients κ → Prop} {ok : κ → α → Prop} {P : κ → Prop}
    (hinit : ∀ s, init s → s.All P)
    (harrive : ∀ s a s', arrive s a = some (.running s') →
      s' = s ∨ ∃ client, P client ∧ s' = s.set (who a) (some client))
    (hmove : ∀ client a client', P client → ok client a →
      move client a = some (.running (some client')) → P client')
    (h : (Process.machine init (step who arrive move)).ReachableBy (perClient who ok)
      (.running s)) (hc : s.clients c = some client) : P client := by
  have hall : s.All P := by
    refine Process.machine_invariantBy hinit ?_ h
    intro s a s' hall hok hs
    rcases step_running hs with ⟨_, harrives⟩ | ⟨client, o, hclient, hmoves, rfl⟩
    · rcases harrive s a s' harrives with rfl | ⟨client, hclient, rfl⟩
      · exact hall
      · refine hall.set ?_
        rintro _ ⟨⟩
        exact hclient
    · refine hall.set ?_
      rintro client' rfl
      exact hmove client a client' (hall _ client hclient) (hok client hclient) hmoves
  exact hall c client hc

end Clients

end Systems

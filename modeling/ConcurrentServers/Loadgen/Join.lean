import ConcurrentServers.Loadgen.Accounting
import ConcurrentServers.Loadgen.Barrier

/-!
# Joining the threads

The contexts that the main thread sums up are those of threads that run
`conn_main` and have returned, one for each connection.
-/

namespace ConcurrentServers.Loadgen

open Systems

variable {args : Args} {s t : State args}

/-! ## The threads of a run -/

theorem reachable_release {c : Conn} (h : (connMain args.toJob).Reachable c) :
    (connMain args.toJob).Reachable ((args.step c .release).getD c) := by
  cases hs : args.step c .release with
  | none => exact h
  | some c' => exact h.step .release hs

theorem reachable_settle (h : ∀ i, (connMain args.toJob).Reachable (s.conns i))
    (i : Fin args.connections) : (connMain args.toJob).Reachable (s.settle.conns i) := by
  unfold State.settle
  split
  · exact reachable_release (h i)
  · exact h i

theorem reachable_update {i : Fin args.connections} {a : Answer} {c : Conn}
    (h : ∀ i, (connMain args.toJob).Reachable (s.conns i)) (hs : args.step (s.conns i) a = some c)
    (j : Fin args.connections) :
    (connMain args.toJob).Reachable (Function.update s.conns i c j) := by
  by_cases hj : j = i
  · subst hj
    rw [Function.update_self]
    exact (h j).step a hs
  · rw [Function.update_of_ne hj]
    exact h j

/-- Every thread of a run runs `conn_main`. -/
theorem reachable_conns (h : (loadgen args).Reachable s) :
    ∀ i, (connMain args.toJob).Reachable (s.conns i) := by
  refine Machine.Reachable.invariant
    (P := fun s : State args => ∀ i, (connMain args.toJob).Reachable (s.conns i)) ?_ ?_ h
  · rintro _ rfl i
    exact .init rfl
  · intro s l t _ hconns hs
    cases steps_of_step hs with
    | main hmove =>
        generalize s.main = m at hmove
        cases hmove with
        | creates hi hc => exact reachable_update hconns hc
        | standsIn hi => exact reachable_settle hconns
        | arrives => exact reachable_settle hconns
        | _ => exact hconns
    | thread hmove =>
        cases hmove with
        | moves hc ha => exact reachable_update hconns hc
        | arrives hc => exact reachable_settle (reachable_update hconns hc)

/-! ## The threads that have been joined -/

/-- The threads that have been joined have returned. -/
def Joined (s : State args) : Prop :=
  ∀ i n, s.main = .joining i n → ∀ j, j.val < i → (s.conns j).control = .returned

/-- No thread has been joined. -/
def Main.Early : Main → Prop
  | .joining i _ => i = 0
  | _ => True

theorem joined_of_early (h : s.main.Early) : Joined s := by
  intro i n hmain j hj
  rw [hmain] at h
  cases h
  omega

theorem Main.early_of_waits {m : Main} (h : m.waits = true) : m.Early ∧ m.release.Early := by
  cases m with
  | recoveryWait i n => exact ⟨trivial, trivial⟩
  | waiting n => exact ⟨trivial, rfl⟩
  | _ => cases h

theorem joined_settle (h : s.main.waits = true) : Joined s.settle := by
  obtain ⟨hearly, hearly'⟩ := Main.early_of_waits h
  apply joined_of_early
  unfold State.settle
  split
  · exact hearly'
  · exact hearly

/-- Who has returned makes no step. -/
theorem Joined.update {i : Fin args.connections} {a : Answer} {c : Conn} (h : Joined s)
    (hs : args.step (s.conns i) a = some c) :
    Joined { s with conns := Function.update s.conns i c } := by
  intro k n hmain j hj
  have hreturned := h k n hmain j hj
  have hne : j ≠ i := by
    rintro rfl
    cases hs.symm.trans (step_returned hreturned)
  change (Function.update s.conns i c j).control = .returned
  rwa [Function.update_of_ne hne]

theorem Joined.thread {i : Fin args.connections} {a : Answer} (h : Joined s)
    (hmove : ThreadMoves s i a t) : Joined t := by
  cases hmove with
  | moves hc ha => exact h.update hc
  | @arrives c hc =>
      by_cases hwaits : s.main.waits = true
      · exact joined_settle hwaits
      · have hmain : s.main.waits = false := Bool.eq_false_of_not_eq_true hwaits
        have hsettle : State.settle { s with conns := Function.update s.conns i c } = _ :=
          settle_of_le (waiting_le_of_main hmain)
        rw [hsettle]
        exact h.update hc

theorem Joined.main {l : Label args} (h : Joined s) (hmove : MainMoves s s.main l t) :
    Joined t := by
  generalize hmain : s.main = m at hmove
  cases hmove with
  | standsIn hi => exact joined_settle rfl
  | arrives => exact joined_settle rfl
  | joins hi hreturned =>
      rintro k n ⟨⟩ j hj
      rcases Nat.lt_succ_iff_lt_or_eq.mp hj with hlt | heq
      · exact h _ _ hmain j hlt
      · obtain rfl : j = ⟨_, hi⟩ := Fin.ext heq
        exact hreturned
  | _ => exact joined_of_early trivial

theorem reachable_joined (h : (loadgen args).Reachable s) : Joined s := by
  refine Machine.Reachable.invariant (P := Joined) ?_ ?_ h
  · rintro _ rfl
    exact joined_of_early trivial
  · intro s l t _ hjoined hs
    cases steps_of_step hs with
    | main hmove => exact hjoined.main hmove
    | thread hmove => exact hjoined.thread hmove

theorem reachable_phase (h : (loadgen args).Reachable s) : s.OnTheWay ∨ s.Failed := by
  refine Machine.Reachable.invariant (P := fun s : State args => s.OnTheWay ∨ s.Failed) ?_ ?_ h
  · rintro _ rfl
    exact Or.inl (Or.inl (starting_start args))
  · intro s l t _ hphase hs
    rcases hphase with h | h
    · by_cases hok : creates s l
      · exact Or.inl (OnTheWay.step h hok (steps_of_step hs))
      · exact Or.inr (OnTheWay.fail h hok (steps_of_step hs))
    · exact Or.inr (Failed.step h (steps_of_step hs))

/-- The main thread joins threads only when all have been started. -/
theorem joining_all (h : (loadgen args).Reachable s) {i n : ℕ} (hmain : s.main = .joining i n) :
    n = args.connections := by
  rcases reachable_phase h with (⟨_, _, _, hphase⟩ | ⟨_, hphase⟩) | ⟨_, _, _, hphase⟩
  · rcases hphase with hphase | ⟨_, hphase | hphase⟩ <;> cases hmain.symm.trans hphase
  · rcases hphase with ⟨j, hphase⟩ | ⟨o, hphase⟩
    · cases hmain.symm.trans hphase
      rfl
    · cases hmain.symm.trans hphase
  · rcases hphase with hphase | hphase <;> cases hmain.symm.trans hphase

/-- What the main thread finds when it has joined the last thread. -/
theorem joined_all (h : (loadgen args).Reachable s) {n : ℕ} (hmain : s.main = .joining n n) :
    n = args.connections ∧ ∀ i, (s.conns i).Books args.toJob ∧ (s.conns i).control = .returned := by
  obtain rfl := joining_all h hmain
  exact ⟨rfl, fun i => ⟨reachable_books (reachable_conns h i),
    reachable_joined h _ _ hmain i i.isLt⟩⟩

/-- What the main thread has found when it has ended. -/
def Ended (s : State args) : Prop :=
  ∀ o, s.main = .ended o →
    o = finish (s.ctxs args.connections) ∧ ∀ i, (s.conns i).control = .returned

theorem ended_of_running (h : ∀ o, s.main ≠ .ended o) : Ended s := fun o hmain =>
  absurd hmain (h o)

theorem settle_ne_ended (h : s.main.waits = true) (o : Outcome) : s.settle.main ≠ .ended o := by
  unfold State.settle
  split
  · change s.main.release ≠ _
    cases hmain : s.main with
    | recoveryWait | waiting => nofun
    | _ =>
        rw [hmain] at h
        cases h
  · rintro hended
    rw [hended] at h
    cases h

theorem reachable_ended (h : (loadgen args).Reachable s) : Ended s := by
  refine Machine.Reachable.invariant (P := Ended) ?_ ?_ h
  · rintro _ rfl
    exact ended_of_running nofun
  · intro s l t hreach hended hs
    cases steps_of_step hs with
    | main hmove =>
        generalize hmain : s.main = m at hmove
        cases hmove with
        | standsIn hi => exact ended_of_running (settle_ne_ended rfl)
        | arrives => exact ended_of_running (settle_ne_ended rfl)
        | @ends i n hi =>
            rintro o ⟨⟩
            obtain rfl := joining_all hreach hmain
            refine ⟨rfl, fun j => ?_⟩
            exact reachable_joined hreach _ _ hmain j (by omega)
        | _ => exact ended_of_running nofun
    | @thread i a t hmove =>
        -- Who has returned makes no step.
        have hrunning : ∀ o, s.main ≠ .ended o := by
          intro o hmain
          have hreturned := (hended o hmain).2 i
          cases hmove with
          | moves hc ha => cases hc.symm.trans (step_returned hreturned)
          | arrives hc => cases hc.symm.trans (step_returned hreturned)
        cases hmove with
        | moves hc ha => exact ended_of_running hrunning
        | @arrives c hc =>
            by_cases hwaits : s.main.waits = true
            · exact ended_of_running (settle_ne_ended hwaits)
            · have hle : ({ s with conns := Function.update s.conns i c } : State args).waiting ≤
                  args.connections := waiting_le_of_main (Bool.eq_false_of_not_eq_true hwaits)
              rw [settle_of_le hle]
              exact ended_of_running hrunning

end ConcurrentServers.Loadgen

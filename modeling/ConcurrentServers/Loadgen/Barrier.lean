import ConcurrentServers.Loadgen.Moves

/-!
# The start barrier

As long as every thread is started, all of them and the main thread arrive at the
barrier, and the last one to arrive releases them. When a thread is not started,
the main thread waits in its place. It cannot return from the first such wait,
since nobody else can take the place of the missing threads or its own.
-/

namespace ConcurrentServers.Loadgen

open Systems

variable {args : Args} {s t : State args} {l : Label args} {i : Fin args.connections}
  {a : Answer} {c : Conn}

/-! ## Waiting at the barrier -/

theorem waiting_le (hi : (s.conns i).control.waits = false) :
    s.waiting ≤ args.connections := by
  have hlt : headcount (fun c : Conn => c.control.waits = true) s.conns <
      Fintype.card (Fin args.connections) := headcount_lt_card (i := i) (by simp [hi])
  rw [Fintype.card_fin] at hlt
  unfold State.waiting
  split <;> omega

theorem waiting_le_of_main (hmain : s.main.waits = false) : s.waiting ≤ args.connections := by
  have hle := headcount_le_card (fun c : Conn => c.control.waits = true) s.conns
  rw [Fintype.card_fin] at hle
  simp [State.waiting, hmain]
  omega

theorem waiting_of_all (hmain : s.main.waits = true)
    (hall : ∀ i, (s.conns i).control.waits = true) : s.waiting = args.connections + 1 := by
  have hcount : headcount (fun c : Conn => c.control.waits = true) s.conns =
      args.connections := by
    rw [headcount_eq_card]
    simp [hall]
  simp [State.waiting, hcount, hmain]

theorem settle_of_le (h : s.waiting ≤ args.connections) : s.settle = s :=
  if_neg (by omega)

/-- The barrier opens only when everybody is there. -/
theorem settle_cases (s : State args) :
    (s.waiting ≤ args.connections ∧ s.settle = s) ∨
      s.main.waits = true ∧ (∀ i, (s.conns i).control.waits = true) ∧ s.settle = s.release := by
  by_cases hmain : s.main.waits = true
  · by_cases hall : ∀ i, (s.conns i).control.waits = true
    · exact Or.inr ⟨hmain, hall, if_pos (waiting_of_all hmain hall)⟩
    · left
      simp only [not_forall, Bool.not_eq_true] at hall
      obtain ⟨i, hi⟩ := hall
      exact ⟨waiting_le hi, settle_of_le (waiting_le hi)⟩
  · left
    have hle := waiting_le_of_main (Bool.eq_false_of_not_eq_true hmain)
    exact ⟨hle, settle_of_le hle⟩

/-! ## The phases -/

/-- The first `spawned` threads have been started, and nobody has passed the barrier. -/
structure Gathering (s : State args) (spawned : ℕ) : Prop where
  before : ∀ i, (s.conns i).control.Before
  unborn : ∀ i, (s.conns i).control = .unborn ↔ spawned ≤ i.val
  room : s.waiting ≤ args.connections

/-- Everybody is on the way to the barrier, and no thread has failed to start. -/
def State.Starting (s : State args) : Prop :=
  ∃ spawned ≤ args.connections, Gathering s spawned ∧
    (s.main = .creating spawned ∨
      spawned = args.connections ∧ (s.main = .starting spawned ∨ s.main = .waiting spawned))

/-- A thread has failed to start. -/
def State.Failed (s : State args) : Prop :=
  ∃ spawned < args.connections, Gathering s spawned ∧
    (s.main = .recovering spawned spawned ∨ s.main = .recoveryWait spawned spawned)

/-- All threads have been started and are past the barrier, and the main thread joins
them or has ended. -/
structure State.Released (s : State args) : Prop where
  past : ∀ i, ¬(s.conns i).control.Before
  main : (∃ i, s.main = .joining i args.connections) ∨ ∃ o, s.main = .ended o

/-- The steps up to the barrier that are still to be made. -/
def Control.ahead : Control → ℕ
  | .unborn | .connecting => 2
  | .arriving _ => 1
  | _ => 0

def Main.ahead (connections : ℕ) : Main → ℕ
  | .creating i => connections - i + 2
  | .starting _ => 1
  | _ => 0

def State.remaining (s : State args) : ℕ :=
  s.main.ahead args.connections + tally (fun c : Conn => c.control.ahead) s.conns

def State.OnTheWay (s : State args) : Prop := s.Starting ∨ s.Released

theorem Control.ahead_of_past {k : Control} (h : ¬k.Before) : k.ahead = 0 := by
  cases k with
  | unborn => exact absurd trivial h
  | connecting => exact absurd trivial h
  | arriving fd => exact absurd trivial h
  | _ => rfl

theorem Released.remaining_eq (h : s.Released) : s.remaining = 0 := by
  have htally : tally (fun c : Conn => c.control.ahead) s.conns = 0 :=
    Finset.sum_eq_zero fun i _ => Control.ahead_of_past (h.past i)
  rw [State.remaining, htally]
  rcases h.main with ⟨i, hmain⟩ | ⟨o, hmain⟩
  · rw [hmain]
    rfl
  · rw [hmain]
    rfl

theorem released_of_release {u : State args} (hmain : u.main = .waiting args.connections)
    (hall : ∀ j, (u.conns j).control.waits = true) : u.release.Released where
  past j := by
    have hj := hall j
    cases hc : (u.conns j).control with
    | waiting fd => simp [State.release, Job.step, hc, Control.Before]
    | _ => simp [hc, Control.waits] at hj
  main := Or.inl ⟨0, by simp [State.release, hmain, Main.release]⟩

/-! ## Steps of the threads -/

theorem Gathering.unborn_update {spawned : ℕ} (h : Gathering s spawned)
    (hborn : (s.conns i).control ≠ .unborn) (hborn' : c.control ≠ .unborn)
    (j : Fin args.connections) :
    (Function.update s.conns i c j).control = .unborn ↔ spawned ≤ j.val := by
  by_cases hj : j = i
  · subst hj
    have hiff := h.unborn j
    simp only [hborn, false_iff] at hiff
    simpa [hborn'] using hiff
  · simpa [hj] using h.unborn j

theorem Gathering.update {spawned : ℕ} (h : Gathering s spawned)
    (hborn : (s.conns i).control ≠ .unborn) (hbefore : c.control.Before)
    (hborn' : c.control ≠ .unborn)
    (hroom : ({ s with conns := Function.update s.conns i c } : State args).waiting ≤
      args.connections) :
    Gathering { s with conns := Function.update s.conns i c } spawned where
  before j := by
    by_cases hj : j = i
    · subst hj
      simpa using hbefore
    · simpa [hj] using h.before j
  unborn := h.unborn_update hborn hborn'
  room := hroom

theorem remaining_update (hlt : c.control.ahead < (s.conns i).control.ahead) :
    ({ s with conns := Function.update s.conns i c } : State args).remaining < s.remaining := by
  have htally := tally_update (fun c : Conn => c.control.ahead) s.conns i c
  simp only [State.remaining]
  omega

/-- A thread comes nearer to the barrier, or its arrival opens it. -/
theorem Gathering.thread {spawned : ℕ} (h : Gathering s spawned) (hmove : ThreadMoves s i a t) :
    (Gathering t spawned ∧ t.main = s.main ∧ t.remaining < s.remaining) ∨
      ∃ u : State args, u.main = s.main ∧ u.main.waits = true ∧
        (∀ j, (u.conns j).control = .unborn ↔ spawned ≤ j.val) ∧
        (∀ j, (u.conns j).control.waits = true) ∧ 0 < s.remaining ∧ t = u.release := by
  cases hmove with
  | moves hstep ha =>
      obtain ⟨connected, fd, hc, rfl⟩ := (step_before (h.before i) hstep).resolve_left ha
      refine Or.inl ⟨h.update (by simp [hc]) trivial (by simp) ?_, rfl, remaining_update ?_⟩
      · exact waiting_le (i := i) (by simp [Control.waits])
      · simp [hc, Control.ahead]
  | arrives hstep =>
      obtain ⟨fd, hc, rfl⟩ := step_arrive hstep
      set u : State args := { s with
        conns := Function.update s.conns i { s.conns i with control := .waiting fd } } with hu
      have hlt : u.remaining < s.remaining := remaining_update (by simp [hc, Control.ahead])
      rcases settle_cases u with ⟨hroom, hsettle⟩ | ⟨hmain, hall, hsettle⟩
      · rw [hsettle]
        exact Or.inl ⟨h.update (by simp [hc]) trivial (by simp) hroom, rfl, hlt⟩
      · exact Or.inr ⟨u, rfl, hmain, h.unborn_update (by simp [hc]) (by simp), hall,
          Nat.zero_lt_of_lt hlt, hsettle⟩

/-! ## The start phase without a failure -/

/-- No call of `pthread_create` fails. -/
def creates (_ : State args) : Label args → Prop
  | .create ok => ok = true
  | _ => True

theorem Gathering.create {spawned : ℕ} (h : Gathering s spawned) (hi : spawned < args.connections)
    (hc : args.step (s.conns ⟨spawned, hi⟩) .start = some c) :
    Gathering ⟨.creating (spawned + 1), Function.update s.conns ⟨spawned, hi⟩ c⟩ (spawned + 1) ∧
      c.control.ahead = (s.conns ⟨spawned, hi⟩).control.ahead := by
  have hunborn : (s.conns ⟨spawned, hi⟩).control = .unborn := (h.unborn ⟨spawned, hi⟩).mpr le_rfl
  simp only [Job.step, hunborn, Option.some.injEq] at hc
  subst hc
  refine ⟨⟨?_, ?_, waiting_le_of_main rfl⟩, by rw [hunborn]; rfl⟩
  · intro j
    by_cases hj : j = ⟨spawned, hi⟩
    · subst hj
      simp [Control.Before]
    · simpa [hj] using h.before j
  · intro j
    by_cases hj : j = ⟨spawned, hi⟩
    · subst hj
      simp
    · have hne : j.val ≠ spawned := fun heq => hj (Fin.ext heq)
      have hiff := h.unborn j
      simp only [Function.update_of_ne hj, hiff]
      omega

theorem Starting.main (h : s.Starting) (hok : creates s l) (hmove : MainMoves s s.main l t) :
    t.OnTheWay ∧ t.remaining < s.remaining := by
  obtain ⟨spawned, hle, hgathering, hmain | ⟨hspawned, hmain | hmain⟩⟩ := h
  · rw [hmain] at hmove
    cases hmove with
    | creates hi hc =>
        obtain ⟨hnext, hahead⟩ := hgathering.create hi hc
        have htally := tally_update_same (fun c : Conn => c.control.ahead) s.conns hahead
        refine ⟨Or.inl ⟨spawned + 1, hi, hnext, Or.inl rfl⟩, ?_⟩
        simp only [State.remaining, hmain, Main.ahead, htally]
        omega
    | fails hi => cases hok
    | created hi =>
        refine ⟨Or.inl ⟨spawned, hle, ⟨hgathering.before, hgathering.unborn, ?_⟩,
          Or.inr ⟨le_antisymm hle hi, Or.inl rfl⟩⟩, ?_⟩
        · exact waiting_le_of_main rfl
        · simp only [State.remaining, hmain, Main.ahead]
          omega
  · rw [hmain] at hmove
    have hremaining : 0 < s.remaining := by simp [State.remaining, hmain, Main.ahead]
    cases hmove with
    | arrives =>
        rcases settle_cases { s with main := .waiting spawned } with
          ⟨hroom, hsettle⟩ | ⟨_, hall, hsettle⟩
        · rw [hsettle]
          refine ⟨Or.inl ⟨spawned, hle, ⟨hgathering.before, hgathering.unborn, hroom⟩,
            Or.inr ⟨hspawned, Or.inr rfl⟩⟩, ?_⟩
          simp only [State.remaining, hmain, Main.ahead]
          omega
        · rw [hsettle]
          have hreleased := released_of_release (by rw [hspawned]) hall
          exact ⟨Or.inr hreleased, Released.remaining_eq hreleased ▸ hremaining⟩
  · rw [hmain] at hmove
    cases hmove

theorem Starting.thread (h : s.Starting) (hmove : ThreadMoves s i a t) :
    t.OnTheWay ∧ t.remaining < s.remaining := by
  obtain ⟨spawned, hle, hgathering, hmain⟩ := h
  rcases hgathering.thread hmove with
    ⟨ht, htmain, hlt⟩ | ⟨u, humain, hwaits, -, hall, hremaining, rfl⟩
  · exact ⟨Or.inl ⟨spawned, hle, ht, by rwa [htmain]⟩, hlt⟩
  · -- Only in the last wait can the main thread be among the callers.
    rw [← humain] at hmain
    rcases hmain with hmain | ⟨hspawned, hmain | hmain⟩
    · simp [hmain, Main.waits] at hwaits
    · simp [hmain, Main.waits] at hwaits
    · have hreleased := released_of_release (hspawned ▸ hmain) hall
      exact ⟨Or.inr hreleased, Released.remaining_eq hreleased ▸ hremaining⟩

theorem Starting.step (h : s.Starting) (hok : creates s l) (hstep : Steps s l t) :
    t.OnTheWay ∧ t.remaining < s.remaining := by
  cases hstep with
  | main hmove => exact Starting.main h hok hmove
  | thread hmove => exact Starting.thread h hmove

/-- Somebody can always make a step. -/
theorem Starting.exists_step (h : s.Starting) : ∃ l t, creates s l ∧ s.step l = some t := by
  suffices hsome : ∃ l, creates s l ∧ (s.step l).isSome = true by
    obtain ⟨l, hok, hl⟩ := hsome
    obtain ⟨t, ht⟩ := Option.isSome_iff_exists.mp hl
    exact ⟨l, t, hok, ht⟩
  obtain ⟨spawned, hle, hgathering, hmain | ⟨hspawned, hmain | hmain⟩⟩ := h
  · by_cases hlt : spawned < args.connections
    · have hunborn : (s.conns ⟨spawned, hlt⟩).control = .unborn :=
        (hgathering.unborn ⟨spawned, hlt⟩).mpr le_rfl
      exact ⟨.create true, rfl, by simp [State.step, State.create, hmain, hlt, Job.step, hunborn]⟩
    · exact ⟨.main, trivial, by simp [State.step, State.mainStep, hmain, hlt]⟩
  · exact ⟨.main, trivial, by simp [State.step, State.mainStep, hmain]⟩
  · -- The main thread waits, so some thread does not.
    have hroom := hgathering.room
    obtain ⟨i, hi⟩ : ∃ i, (s.conns i).control.waits = false := by
      by_contra hall
      simp only [not_exists, Bool.not_eq_false] at hall
      have hfull := waiting_of_all (by rw [hmain]; rfl) hall
      omega
    have hborn : (s.conns i).control ≠ .unborn := by
      rw [ne_eq, hgathering.unborn i]
      omega
    cases hc : (s.conns i).control with
    | unborn => exact absurd hc hborn
    | connecting =>
        exact ⟨.thread i (.connect none), trivial,
          by simp [State.step, State.threadStep, Job.step, hc]⟩
    | arriving fd =>
        exact ⟨.thread i .arrive, trivial, by simp [State.step, State.threadStep, Job.step, hc]⟩
    | waiting fd => simp [hc, Control.waits] at hi
    | _ =>
        have hbefore := hgathering.before i
        rw [hc] at hbefore
        exact hbefore.elim

/-! ## Behind the barrier -/

theorem Released.step (h : s.Released) (hstep : Steps s l t) : t.Released := by
  obtain ⟨hpast, hmain⟩ := h
  cases hstep with
  | main hmove =>
      rcases hmain with ⟨i, hmain⟩ | ⟨o, hmain⟩
      · rw [hmain] at hmove
        cases hmove with
        | joins hi hreturned => exact ⟨hpast, Or.inl ⟨i + 1, rfl⟩⟩
        | ends hi => exact ⟨hpast, Or.inr ⟨_, rfl⟩⟩
      · rw [hmain] at hmove
        cases hmove
  | @thread i _ _ hmove =>
      cases hmove with
      | moves hc ha =>
          refine ⟨fun j => ?_, hmain⟩
          by_cases hj : j = i
          · subst hj
            simpa using (moves_of_step hc).past (hpast _)
          · simpa [hj] using hpast j
      | arrives hc =>
          -- Who arrives is not past the barrier.
          obtain ⟨fd, hfd, -⟩ := step_arrive hc
          exact absurd (by rw [hfd]; trivial) (hpast _)

/-! ## A thread that is not started -/

/-- The place of the thread that was not started stays empty. -/
theorem Failed.step (h : s.Failed) (hstep : Steps s l t) : t.Failed := by
  obtain ⟨spawned, hlt, hgathering, hmain⟩ := h
  have hunborn : (s.conns ⟨spawned, hlt⟩).control = .unborn :=
    (hgathering.unborn ⟨spawned, hlt⟩).mpr le_rfl
  cases hstep with
  | main hmove =>
      rcases hmain with hmain | hmain
      · rw [hmain] at hmove
        cases hmove with
        | standsIn hi =>
            have hroom : ({ s with main := .recoveryWait spawned spawned } : State args).waiting ≤
                args.connections :=
              waiting_le (i := ⟨spawned, hlt⟩) (by simp [hunborn, Control.waits])
            rw [settle_of_le hroom]
            exact ⟨spawned, hlt, ⟨hgathering.before, hgathering.unborn, hroom⟩, Or.inr rfl⟩
        | recovered hi => omega
      · rw [hmain] at hmove
        cases hmove
  | thread hmove =>
      rcases hgathering.thread hmove with
        ⟨ht, htmain, _⟩ | ⟨u, humain, hwaits, hunborn', hall, -, rfl⟩
      · exact ⟨spawned, hlt, ht, by rwa [htmain]⟩
      · have hwaiting := hall ⟨spawned, hlt⟩
        rw [(hunborn' ⟨spawned, hlt⟩).mpr le_rfl] at hwaiting
        cases hwaiting

/-! ## The start phase -/

theorem starting_start (args : Args) : (State.start args).Starting := by
  refine ⟨0, Nat.zero_le _, ⟨?_, ?_, ?_⟩, Or.inl rfl⟩
  · exact fun _ => trivial
  · exact fun i => iff_of_true rfl (Nat.zero_le _)
  · exact waiting_le_of_main rfl

theorem OnTheWay.not_failed (h : s.OnTheWay) : ¬s.Failed := by
  rintro ⟨failed, _, _, hfailed⟩
  rcases h with ⟨spawned, _, _, hmain⟩ | ⟨_, hmain⟩
  · rcases hmain with hmain | ⟨_, hmain | hmain⟩ <;> simp [hmain] at hfailed
  · rcases hmain with ⟨i, hmain⟩ | ⟨o, hmain⟩ <;> simp [hmain] at hfailed

theorem OnTheWay.step (h : s.OnTheWay) (hok : creates s l) (hstep : Steps s l t) :
    t.OnTheWay := by
  rcases h with h | h
  · exact (Starting.step h hok hstep).1
  · exact Or.inr (Released.step h hstep)

theorem OnTheWay.progress (h : s.OnTheWay) (hnot : ¬s.Released) (hok : creates s l)
    (hstep : Steps s l t) : t.OnTheWay ∧ t.remaining < s.remaining :=
  Starting.step (h.resolve_right hnot) hok hstep

theorem OnTheWay.fail (h : s.OnTheWay) (hok : ¬creates s l) (hstep : Steps s l t) :
    t.Failed := by
  cases hstep with
  | thread hmove => exact absurd trivial hok
  | main hmove =>
      generalize hmain : s.main = m at hmove
      cases hmove with
      | creates hi hc => exact absurd rfl hok
      | fails hi =>
          -- The main thread creates threads only on the way to the barrier.
          rcases h with ⟨spawned, _, hgathering, hphase⟩ | ⟨_, hphase⟩
          · rcases hphase with hphase | ⟨_, hphase | hphase⟩
            · cases hmain.symm.trans hphase
              exact ⟨_, hi, ⟨hgathering.before, hgathering.unborn, waiting_le_of_main rfl⟩,
                Or.inl rfl⟩
            · cases hmain.symm.trans hphase
            · cases hmain.symm.trans hphase
          · rcases hphase with ⟨i, hphase⟩ | ⟨o, hphase⟩ <;> cases hmain.symm.trans hphase
      | _ => exact absurd trivial hok

theorem run_cases {as : List (Label args)}
    (hrun : (loadgen args).run (.start args) as = some s) :
    ((loadgen args).Admits creates (.start args) as ↔ s.OnTheWay) ∧
      (¬(loadgen args).Admits creates (.start args) as ↔ s.Failed) := by
  refine Machine.admits_iff (P := State.OnTheWay) (L := State.Failed)
    (fun _ => OnTheWay.not_failed) ?_ ?_ ?_ (Or.inl (starting_start args)) hrun
  · exact fun _ _ _ h hok hs => OnTheWay.step h hok (steps_of_step hs)
  · exact fun _ _ _ h hok hs => OnTheWay.fail h hok (steps_of_step hs)
  · exact fun _ _ _ h hs => Failed.step h (steps_of_step hs)

theorem OnTheWay.released_of_length {as : List (Label args)} (h : s.OnTheWay)
    (hok : (loadgen args).Admits creates s as) (hrun : (loadgen args).run s as = some t)
    (hlength : s.remaining < as.length) : t.Released := by
  refine Machine.reached_of_length State.remaining (P := State.OnTheWay) ?_ ?_ h hok hrun hlength
  · exact fun _ _ _ h hnot hok hs => OnTheWay.progress h hnot hok (steps_of_step hs)
  · exact fun _ _ _ h hs => Released.step h (steps_of_step hs)

theorem OnTheWay.exists_release (h : s.OnTheWay) :
    ∃ as t, (loadgen args).run s as = some t ∧ t.Released := by
  have hprogress : ∀ s : State args, s.OnTheWay → ¬s.Released →
      ∃ l t, creates s l ∧ True ∧ (loadgen args).step s l = some t ∧
        t.OnTheWay ∧ t.remaining < s.remaining := by
    intro s h hnot
    obtain ⟨l, t, hok, hs⟩ := Starting.exists_step (h.resolve_right hnot)
    exact ⟨l, t, hok, trivial, hs, OnTheWay.progress h hnot hok (steps_of_step hs)⟩
  obtain ⟨as, t, hrun, -, -, -, ht⟩ :=
    Machine.exists_run_of_progress State.remaining hprogress h
  exact ⟨as, t, hrun, ht⟩

/-- As long as no thread fails to start, everybody is released after a bounded number of
steps, and there is always a step. When one has failed to start, nobody ever is. -/
theorem start_phase_released {as : List (Label args)}
    (hrun : (loadgen args).run (.start args) as = some s) :
    ((loadgen args).Admits creates (.start args) as →
      (0 < s.waiting → ∃ bs t, (loadgen args).run s bs = some t ∧ t.Released) ∧
      ∃ k, ∀ bs t, (loadgen args).Admits creates s bs → (loadgen args).run s bs = some t →
        k ≤ bs.length → t.Released) ∧
    (¬(loadgen args).Admits creates (.start args) as →
      ∀ bs t, (loadgen args).run s bs = some t →
        (∀ i, (t.conns i).control.Before) ∧ ¬t.Released) := by
  obtain ⟨hway, hfailed⟩ := run_cases hrun
  constructor
  · intro hadmits
    have h := hway.mp hadmits
    exact ⟨fun _ => OnTheWay.exists_release h, s.remaining + 1,
      fun bs t hok hbs hlength => OnTheWay.released_of_length h hok hbs hlength⟩
  · intro hadmits bs t hbs
    have ht : t.Failed := Machine.run_invariant (P := State.Failed)
      (fun _ _ _ h hs => Failed.step h (steps_of_step hs)) (hfailed.mp hadmits) hbs
    have hnot : ¬t.OnTheWay := fun hway => OnTheWay.not_failed hway ht
    obtain ⟨spawned, _, hgathering, _⟩ := ht
    exact ⟨hgathering.before, fun hreleased => hnot (Or.inr hreleased)⟩

/-- Two connections of one message. -/
def twoConnections : Args := (parseArgs 2 1 (some 1)).get (by decide)

def firstThread : Fin twoConnections.connections := ⟨0, by decide⟩

/-- The first thread waits when the second one is not yet started. -/
theorem start_phase_released_firstWaits :
    ∃ s, (loadgen twoConnections).run (.start twoConnections)
        [.create true, .thread firstThread (.connect none), .thread firstThread .arrive] = some s ∧
      ∃ bs t, (loadgen twoConnections).run s bs = some t ∧ t.Released := by
  obtain ⟨s, hrun, hwaiting⟩ : ∃ s : State twoConnections,
      (loadgen twoConnections).run (.start twoConnections)
        [.create true, .thread firstThread (.connect none), .thread firstThread .arrive] = some s ∧
      0 < s.waiting := ⟨_, rfl, by decide +kernel⟩
  refine ⟨s, hrun, ((start_phase_released hrun).1 ?_).1 hwaiting⟩
  exact ⟨rfl, fun _ _ => ⟨trivial, fun _ _ => ⟨trivial, fun _ _ => trivial⟩⟩⟩

/-- The second thread is not started. The first one and the main thread wait, and there
is no other step. -/
theorem failed_create_blocks :
    ∃ s, (loadgen twoConnections).run (.start twoConnections)
        [.create true, .create false, .thread firstThread (.connect none),
          .thread firstThread .arrive, .main] = some s ∧
      s.waiting = 2 ∧ ∀ l, (loadgen twoConnections).step s l = none := by
  refine ⟨_, rfl, by rfl, ?_⟩
  intro l
  cases l with
  | create ok => rfl
  | main => rfl
  | thread i a =>
      match i with
      | ⟨0, _⟩ => cases a <;> rfl
      | ⟨1, _⟩ => cases a <;> rfl

end ConcurrentServers.Loadgen

import ConcurrentServers.Loadgen.Main

/-!
# What one step can do

Before the loop over the messages a step of a connection changes no count, or
counts every message as failed. In the loop it completes a message or counts one
error. A step of the whole program is one of the main thread or of one thread.
Only this module opens the step functions.
-/

namespace ConcurrentServers.Loadgen

open Systems
open Protocol (SendAll)

/-- The control points before the loop over the messages. -/
def Control.Setup : Control → Prop
  | .sending _ _ | .receiving _ _ | .returned => False
  | _ => True

/-- The control points up to the barrier. -/
def Control.Before : Control → Prop
  | .unborn | .connecting | .arriving _ | .waiting _ => True
  | _ => False

/-- The message that is on its way. -/
def Control.message : Control → Option ℕ
  | .sending m _ | .receiving m _ => some m
  | _ => none

/-- The answers on which `send_all_fd` and `recv_exact` return `-1`. -/
def Answer.Fails : Answer → Prop
  | .send (.error e) | .recv (.error e) => e ≠ .eintr
  | .recv (.ok []) => True
  | _ => False

/-! ## Steps of a connection -/

variable {job : Job} {c c' : Conn} {a : Answer}

/-- The steps from each control point. -/
inductive Advances (job : Job) (c : Conn) : Control → Answer → Conn → Prop where
  | starts : Advances job c .unborn .start { c with control := .connecting }
  | connects {addresses : Option (List Attempt)} :
      Advances job c .connecting (.connect addresses)
        { c with
          connected := (connectTo addresses).isSome
          control := .arriving (connectTo addresses) }
  | arrives {fd : Option ℕ} :
      Advances job c (.arriving fd) .arrive { c with control := .waiting fd }
  | released {fd : Option ℕ} :
      Advances job c (.waiting fd) .release { c with control := .passed fd }
  | unconnected : Advances job c (.passed none) .proceed (c.failAll job)
  | proceeds {fd : ℕ} :
      Advances job c (.passed (some fd)) .proceed { c with control := .recvAck ⟨1, []⟩ }
  | ackAgain {k k' : RecvExact} {r : SysResult (List UInt8)} (hk : k.round r = .again k') :
      Advances job c (.recvAck k) (.recv r) { c with control := .recvAck k' }
  | noAck {k : RecvExact} {r : SysResult (List UInt8)} (hk : k.round r = .failed) :
      Advances job c (.recvAck k) (.recv r) (c.failAll job)
  | wrongAck {k : RecvExact} {r : SysResult (List UInt8)} {ack : List UInt8}
      (hk : k.round r = .done ack) (hack : ack ≠ ['*'.toUInt8]) :
      Advances job c (.recvAck k) (.recv r) (c.failAll job)
  | acked {k : RecvExact} {r : SysResult (List UInt8)} (hk : k.round r = .done ['*'.toUInt8]) :
      Advances job c (.recvAck k) (.recv r) { c with control := job.head 0 }
  | sendAgain {m : ℕ} {k k' : SendAll} {r : SysResult ℕ} (hk : k.round r = .again k') :
      Advances job c (.sending m k) (.send r) { c with control := .sending m k' }
  | sendFailed {m : ℕ} {k : SendAll} {r : SysResult ℕ} {e : Errno} (hk : k.round r = .failed e) :
      Advances job c (.sending m k) (.send r) c.failOne
  | sent {m : ℕ} {k : SendAll} {r : SysResult ℕ} (hk : k.round r = .done) :
      Advances job c (.sending m k) (.send r)
        { c with control := .receiving m ⟨job.payloadBytes, []⟩ }
  | recvAgain {m : ℕ} {k k' : RecvExact} {r : SysResult (List UInt8)}
      (hk : k.round r = .again k') :
      Advances job c (.receiving m k) (.recv r) { c with control := .receiving m k' }
  | recvFailed {m : ℕ} {k : RecvExact} {r : SysResult (List UInt8)} (hk : k.round r = .failed) :
      Advances job c (.receiving m k) (.recv r) c.failOne
  | received {m : ℕ} {k : RecvExact} {r : SysResult (List UInt8)} {got : List UInt8}
      (hk : k.round r = .done got) :
      Advances job c (.receiving m k) (.recv r) (job.complete c m got)

theorem advances_of_stepRecv {r : SysResult (List UInt8)} (hs : job.stepRecv c r = some c') :
    Advances job c c.control (.recv r) c' := by
  unfold Job.stepRecv at hs
  cases hc : c.control with
  | recvAck k =>
      simp only [hc] at hs
      obtain ⟨-, hs⟩ := Option.ite_none_right_eq_some.mp hs
      cases hk : k.round r with
      | again k' =>
          simp only [hk, Option.some.injEq] at hs
          subst hs
          exact .ackAgain hk
      | failed =>
          simp only [hk, Option.some.injEq] at hs
          subst hs
          exact .noAck hk
      | done ack =>
          simp only [hk] at hs
          split at hs
          · next hack =>
              cases hs
              exact .wrongAck hk hack
          · next hack =>
              cases hs
              exact .acked (hk.trans (congrArg _ (not_not.mp hack)))
  | receiving m k =>
      simp only [hc] at hs
      obtain ⟨-, hs⟩ := Option.ite_none_right_eq_some.mp hs
      cases hk : k.round r with
      | again k' =>
          simp only [hk, Option.some.injEq] at hs
          subst hs
          exact .recvAgain hk
      | failed =>
          simp only [hk, Option.some.injEq] at hs
          subst hs
          exact .recvFailed hk
      | done got =>
          simp only [hk, Option.some.injEq] at hs
          subst hs
          exact .received hk
  | _ => simp [hc] at hs

theorem advances_of_stepSend {r : SysResult ℕ} (hs : job.stepSend c r = some c') :
    Advances job c c.control (.send r) c' := by
  unfold Job.stepSend at hs
  cases hc : c.control with
  | sending m k =>
      simp only [hc] at hs
      obtain ⟨-, hs⟩ := Option.ite_none_right_eq_some.mp hs
      cases hk : k.round r with
      | again k' =>
          simp only [hk, Option.some.injEq] at hs
          subst hs
          exact .sendAgain hk
      | failed e =>
          simp only [hk, Option.some.injEq] at hs
          subst hs
          exact .sendFailed hk
      | done =>
          simp only [hk, Option.some.injEq] at hs
          subst hs
          exact .sent hk
  | _ => simp [hc] at hs

theorem advances_of_step (hs : job.step c a = some c') : Advances job c c.control a c' := by
  cases a with
  | recv r => exact advances_of_stepRecv hs
  | send r => exact advances_of_stepSend hs
  | start =>
      cases hc : c.control with
      | unborn =>
          simp only [Job.step, hc, Option.some.injEq] at hs
          subst hs
          exact .starts
      | _ => simp [Job.step, hc] at hs
  | connect addresses =>
      cases hc : c.control with
      | connecting =>
          simp only [Job.step, hc, Option.some.injEq] at hs
          subst hs
          exact .connects
      | _ => simp [Job.step, hc] at hs
  | arrive =>
      cases hc : c.control with
      | arriving fd =>
          simp only [Job.step, hc, Option.some.injEq] at hs
          subst hs
          exact .arrives
      | _ => simp [Job.step, hc] at hs
  | release =>
      cases hc : c.control with
      | waiting fd =>
          simp only [Job.step, hc, Option.some.injEq] at hs
          subst hs
          exact .released
      | _ => simp [Job.step, hc] at hs
  | proceed =>
      cases hc : c.control with
      | passed fd =>
          cases fd with
          | none =>
              simp only [Job.step, hc, Option.some.injEq] at hs
              subst hs
              exact .unconnected
          | some fd =>
              simp only [Job.step, hc, Option.some.injEq] at hs
              subst hs
              exact .proceeds
      | _ => simp [Job.step, hc] at hs

/-! ### What a step does to the counts -/

inductive Moves (job : Job) (c : Conn) (a : Answer) : Conn → Prop where
  | setup {k : Control} (connected : Bool) (hc : c.control.Setup) (hk : k.Setup)
      (hpast : ¬c.control.Before → ¬k.Before) :
      Moves job c a { c with connected := connected, control := k }
  | failAll (hc : c.control.Setup) : Moves job c a (c.failAll job)
  | enter (hc : c.control.Setup) : Moves job c a { c with control := job.head 0 }
  | stay {m : ℕ} {k : Control} (hc : c.control.message = some m) (hk : k.message = some m)
      (hfine : ¬a.Fails) : Moves job c a { c with control := k }
  | failOne {m : ℕ} (hc : c.control.message = some m) (hfails : a.Fails) :
      Moves job c a c.failOne
  | complete {m : ℕ} (got : List UInt8) (hc : c.control.message = some m) (hfine : ¬a.Fails) :
      Moves job c a (job.complete c m got)

theorem RecvExact.round_eq_failed_iff (k : RecvExact) (r : SysResult (List UInt8)) :
    k.round r = .failed ↔ (Answer.recv r).Fails := by
  cases r with
  | error e => by_cases he : e = .eintr <;> simp [RecvExact.round, Answer.Fails, he]
  | ok data =>
      cases data with
      | nil => simp [RecvExact.round, Answer.Fails]
      | cons b data =>
          simp only [RecvExact.round, Answer.Fails, iff_false]
          split <;> simp

theorem round_eq_failed_iff (k : SendAll) (r : SysResult ℕ) :
    (∃ e, k.round r = .failed e) ↔ (Answer.send r).Fails := by
  cases r with
  | error e => by_cases he : e = .eintr <;> simp [SendAll.round, Answer.Fails, he]
  | ok n =>
      simp only [SendAll.round, Answer.Fails, iff_false]
      split <;> simp

theorem moves_of_step (hs : job.step c a = some c') : Moves job c a c' := by
  have hadvances := advances_of_step hs
  generalize hc : c.control = k at hadvances
  have hsetup : k.Setup → c.control.Setup := fun h => hc ▸ h
  have hmessage : c.control.message = k.message := congrArg _ hc
  have hbefore : k.Before → c.control.Before := fun h => hc ▸ h
  cases hadvances with
  | starts => exact .setup _ (hsetup trivial) trivial fun h => absurd (hbefore trivial) h
  | connects => exact .setup _ (hsetup trivial) trivial fun h => absurd (hbefore trivial) h
  | arrives => exact .setup _ (hsetup trivial) trivial fun h => absurd (hbefore trivial) h
  | released => exact .setup _ (hsetup trivial) trivial fun h => absurd (hbefore trivial) h
  | unconnected => exact .failAll (hsetup trivial)
  | proceeds => exact .setup _ (hsetup trivial) trivial fun _ => id
  | ackAgain hk => exact .setup _ (hsetup trivial) trivial fun _ => id
  | noAck hk => exact .failAll (hsetup trivial)
  | wrongAck hk hack => exact .failAll (hsetup trivial)
  | acked hk => exact .enter (hsetup trivial)
  | @sendAgain m k k' r hk =>
      refine .stay hmessage rfl fun hfails => ?_
      obtain ⟨e, he⟩ := (round_eq_failed_iff k r).mpr hfails
      cases hk.symm.trans he
  | @sendFailed m k r e hk =>
      exact .failOne hmessage ((round_eq_failed_iff k r).mp ⟨e, hk⟩)
  | @sent m k r hk =>
      refine .stay hmessage rfl fun hfails => ?_
      obtain ⟨e, he⟩ := (round_eq_failed_iff k r).mpr hfails
      cases hk.symm.trans he
  | @recvAgain m k k' r hk =>
      refine .stay hmessage rfl fun hfails => ?_
      cases hk.symm.trans ((k.round_eq_failed_iff r).mpr hfails)
  | @recvFailed m k r hk => exact .failOne hmessage ((k.round_eq_failed_iff r).mp hk)
  | @received m k r got hk =>
      refine .complete got hmessage fun hfails => ?_
      cases hk.symm.trans ((k.round_eq_failed_iff r).mpr hfails)

theorem Control.Setup.message_eq {k : Control} (h : k.Setup) : k.message = none := by
  cases k with
  | sending m k => exact h.elim
  | receiving m r => exact h.elim
  | _ => rfl

theorem Control.Setup.ne_returned {k : Control} (h : k.Setup) : k ≠ .returned := by
  rintro rfl
  exact h

theorem Control.not_setup_of_message {k : Control} {m : ℕ} (h : k.message = some m) :
    ¬k.Setup := by
  intro hsetup
  rw [hsetup.message_eq] at h
  cases h

theorem Control.ne_returned_of_message {k : Control} {m : ℕ} (h : k.message = some m) :
    k ≠ .returned := by
  rintro rfl
  cases h

theorem Job.head_cases (job : Job) (m : ℕ) :
    (m < job.messages ∧ (job.head m).message = some m) ∨
      job.messages ≤ m ∧ job.head m = .returned := by
  unfold Job.head
  split
  · next hlt => exact Or.inl ⟨hlt, rfl⟩
  · next hge => exact Or.inr ⟨not_lt.mp hge, rfl⟩

theorem Control.not_before_of_message {k : Control} {m : ℕ} (h : k.message = some m) :
    ¬k.Before := by
  cases k with
  | sending m k => exact id
  | receiving m r => exact id
  | _ => cases h

theorem Job.head_not_before (job : Job) (m : ℕ) : ¬(job.head m).Before := by
  rcases job.head_cases m with ⟨_, hmessage⟩ | ⟨_, hreturned⟩
  · exact Control.not_before_of_message hmessage
  · rw [hreturned]
    exact id

/-- Nobody goes back behind the barrier. -/
theorem Moves.past (hmove : Moves job c a c') (hpast : ¬c.control.Before) :
    ¬c'.control.Before := by
  cases hmove with
  | setup connected hc hk hkeeps => exact hkeeps hpast
  | failAll hc => exact id
  | enter hc => exact job.head_not_before 0
  | stay hc hk hfine => exact Control.not_before_of_message hk
  | failOne hc hfails => exact id
  | complete got hc hfine => exact job.head_not_before _

/-- A thread that is not past the barrier is started, connects, arrives there or is
released. -/
theorem step_before (hbefore : c.control.Before) (hs : job.step c a = some c') :
    (a = .start ∨ a = .arrive ∨ a = .release) ∨ ∃ connected fd, c.control = .connecting ∧
      c' = { c with connected := connected, control := .arriving fd } := by
  have hadvances := advances_of_step hs
  generalize c.control = k at hadvances hbefore ⊢
  cases hadvances with
  | starts => exact Or.inl (Or.inl rfl)
  | arrives => exact Or.inl (Or.inr (Or.inl rfl))
  | released => exact Or.inl (Or.inr (Or.inr rfl))
  | connects => exact Or.inr ⟨_, _, rfl, rfl⟩
  | _ => exact hbefore.elim

theorem step_arrive (hs : job.step c .arrive = some c') :
    ∃ fd, c.control = .arriving fd ∧ c' = { c with control := .waiting fd } := by
  have hadvances := advances_of_step hs
  generalize c.control = k at hadvances ⊢
  cases hadvances with
  | arrives => exact ⟨_, rfl, rfl⟩

theorem step_returned (hc : c.control = .returned) : job.step c a = none := by
  rw [Option.eq_none_iff_forall_ne_some]
  intro c' hs
  have hadvances := advances_of_step hs
  rw [hc] at hadvances
  cases hadvances

/-! ## Steps of the program -/

variable {args : Args} {s t : State args} {l : Label args}

/-- What the main thread does at each of its control points. -/
inductive MainMoves (s : State args) : Main → Label args → State args → Prop where
  | creates {i : ℕ} {c : Conn} (hi : i < args.connections)
      (hc : args.step (s.conns ⟨i, hi⟩) .start = some c) :
      MainMoves s (.creating i) (.create true)
        ⟨.creating (i + 1), Function.update s.conns ⟨i, hi⟩ c⟩
  | fails {i : ℕ} (hi : i < args.connections) :
      MainMoves s (.creating i) (.create false) { s with main := .recovering i i }
  | created {i : ℕ} (hi : args.connections ≤ i) :
      MainMoves s (.creating i) .main { s with main := .starting i }
  | standsIn {i n : ℕ} (hi : i < args.connections) :
      MainMoves s (.recovering i n) .main (State.settle { s with main := .recoveryWait i n })
  | recovered {i n : ℕ} (hi : args.connections ≤ i) :
      MainMoves s (.recovering i n) .main { s with main := .starting n }
  | arrives {n : ℕ} : MainMoves s (.starting n) .main (State.settle { s with main := .waiting n })
  | joins {i n : ℕ} (hi : i < args.connections)
      (hreturned : (s.conns ⟨i, hi⟩).control = .returned) :
      MainMoves s (.joining i n) .main { s with main := .joining (i + 1) n }
  | ends {i n : ℕ} (hi : ¬(i < n ∧ i < args.connections)) :
      MainMoves s (.joining i n) .main { s with main := .ended (finish (s.ctxs n)) }

theorem mainMoves_of_create {ok : Bool} (hs : s.create ok = some t) :
    MainMoves s s.main (.create ok) t := by
  unfold State.create at hs
  cases hmain : s.main with
  | creating i =>
      simp only [hmain] at hs
      split at hs
      · next hi =>
          cases ok with
          | true =>
              obtain ⟨c, hc, rfl⟩ := Option.map_eq_some_iff.mp hs
              exact .creates hi hc
          | false =>
              cases hs
              exact .fails hi
      · cases hs
  | _ => simp [hmain] at hs

theorem mainMoves_of_mainStep (hs : s.mainStep = some t) : MainMoves s s.main .main t := by
  unfold State.mainStep at hs
  cases hmain : s.main with
  | creating i =>
      simp only [hmain, Option.ite_none_left_eq_some, Option.some.injEq] at hs
      obtain ⟨hge, rfl⟩ := hs
      exact .created (not_lt.mp hge)
  | recovering i n =>
      simp only [hmain] at hs
      split at hs
      · next hi =>
          cases hs
          exact .standsIn hi
      · next hi =>
          cases hs
          exact .recovered (not_lt.mp hi)
  | starting n =>
      simp only [hmain, Option.some.injEq] at hs
      subst hs
      exact .arrives
  | joining i n =>
      simp only [hmain] at hs
      split at hs
      · next hi =>
          obtain ⟨hreturns, hs⟩ := Option.ite_none_right_eq_some.mp hs
          cases hs
          refine .joins hi.2 ?_
          cases hc : (s.conns ⟨i, hi.2⟩).control with
          | returned => rfl
          | _ => simp [hc, Control.returns] at hreturns
      · next hi =>
          cases hs
          exact .ends hi
  | recoveryWait i n => simp [hmain] at hs
  | waiting n => simp [hmain] at hs
  | ended o => simp [hmain] at hs

/-- A thread moves, or it arrives at the barrier and may open it. -/
inductive ThreadMoves (s : State args) (i : Fin args.connections) (a : Answer) :
    State args → Prop where
  | moves {c : Conn} (hc : args.step (s.conns i) a = some c)
      (ha : ¬(a = .start ∨ a = .arrive ∨ a = .release)) :
      ThreadMoves s i a { s with conns := Function.update s.conns i c }
  | arrives {c : Conn} (hc : args.step (s.conns i) .arrive = some c) :
      ThreadMoves s i a (State.settle { s with conns := Function.update s.conns i c })

theorem threadMoves_of_threadStep {i : Fin args.connections} (hs : s.threadStep i a = some t) :
    ThreadMoves s i a t := by
  cases a with
  | start => cases hs
  | release => cases hs
  | arrive =>
      obtain ⟨u, hu, rfl⟩ := Option.map_eq_some_iff.mp hs
      obtain ⟨c, hc, rfl⟩ := Option.map_eq_some_iff.mp hu
      exact .arrives hc
  | _ =>
      obtain ⟨c, hc, rfl⟩ := Option.map_eq_some_iff.mp hs
      exact .moves hc (by simp)

/-- A step of the program. -/
inductive Steps (s : State args) : Label args → State args → Prop where
  | main {l : Label args} {t : State args} (h : MainMoves s s.main l t) : Steps s l t
  | thread {i : Fin args.connections} {a : Answer} {t : State args} (h : ThreadMoves s i a t) :
      Steps s (.thread i a) t

theorem steps_of_step (hs : s.step l = some t) : Steps s l t := by
  cases l with
  | create ok => exact .main (mainMoves_of_create hs)
  | main => exact .main (mainMoves_of_mainStep hs)
  | thread i a => exact .thread (threadMoves_of_threadStep hs)

end ConcurrentServers.Loadgen

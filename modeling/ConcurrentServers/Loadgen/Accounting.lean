import ConcurrentServers.Loadgen.Moves
import Mathlib.Algebra.BigOperators.Fin
import Mathlib.Algebra.Order.BigOperators.Group.Finset

/-!
# The books of a connection

A thread that cannot connect, or gets no acknowledgement, counts all its messages
as failed. One that fails in the middle of the loop counts a single error and
leaves. So the messages behind the failed one are not in the books.
-/

namespace ConcurrentServers.Loadgen

open Systems

variable {job : Job} {c c' : Conn} {a : Answer}

/-! ## The books -/

/-- Where the counters stand at each control point. -/
structure Stage (job : Job) (control : Control) (completed errors : ℕ) : Prop where
  setup : control.Setup → completed = 0 ∧ errors = 0
  message : ∀ m, control.message = some m → completed = m ∧ errors = 0 ∧ m < job.messages
  returned : control = .returned →
    completed + errors ≤ job.messages ∧ (errors = 0 → completed = job.messages)

theorem stage_of_setup {k : Control} (hk : k.Setup) : Stage job k 0 0 where
  setup _ := ⟨rfl, rfl⟩
  message _ hm := absurd hk (Control.not_setup_of_message hm)
  returned h := absurd h hk.ne_returned

theorem stage_of_message {k : Control} {m : ℕ} (hk : k.message = some m)
    (hm : m < job.messages) : Stage job k m 0 where
  setup h := absurd h (Control.not_setup_of_message hk)
  message m' hm' := by
    cases hk.symm.trans hm'
    exact ⟨rfl, rfl, hm⟩
  returned h := absurd h (Control.ne_returned_of_message hk)

theorem stage_returned {completed errors : ℕ} (htotal : completed + errors ≤ job.messages)
    (hall : errors = 0 → completed = job.messages) : Stage job .returned completed errors where
  setup h := h.elim
  message := nofun
  returned _ := ⟨htotal, hall⟩

theorem stage_head {m : ℕ} (hm : m ≤ job.messages) : Stage job (job.head m) m 0 := by
  rcases job.head_cases m with ⟨hlt, hmessage⟩ | ⟨hge, hreturned⟩
  · exact stage_of_message hmessage hlt
  · rw [hreturned]
    exact stage_returned (by omega) fun _ => by omega

structure Conn.Books (job : Job) (c : Conn) : Prop where
  echoes : c.echoes.length = c.completed
  mismatches : c.mismatches = c.echoes.countP (· ≠ expected job.payloadBytes)
  stage : Stage job c.control c.completed c.errors

theorem books_blank (job : Job) : Conn.blank.Books job where
  echoes := rfl
  mismatches := rfl
  stage := stage_of_setup trivial

theorem Conn.Books.complete {m : ℕ} (h : c.Books job) (hc : c.control.message = some m)
    (got : List UInt8) : (job.complete c m got).Books job := by
  obtain ⟨hcompleted, herrors, hlt⟩ := h.stage.message m hc
  refine ⟨?_, ?_, ?_⟩
  · simp [Job.complete, h.echoes]
  · by_cases hgot : got = expected job.payloadBytes
    · simp [Job.complete, h.mismatches, hgot]
    · simp [Job.complete, h.mismatches, hgot]
  · change Stage job (job.head (m + 1)) (c.completed + 1) c.errors
    rw [hcompleted, herrors]
    exact stage_head hlt

theorem Conn.Books.moves (h : c.Books job) (hmove : Moves job c a c') : c'.Books job := by
  cases hmove with
  | setup connected hc hk hpast =>
      obtain ⟨hcompleted, herrors⟩ := h.stage.setup hc
      refine ⟨h.echoes, h.mismatches, ?_⟩
      rw [hcompleted, herrors]
      exact stage_of_setup hk
  | failAll hc =>
      obtain ⟨hcompleted, -⟩ := h.stage.setup hc
      refine ⟨h.echoes, h.mismatches, ?_⟩
      change Stage job .returned c.completed job.messages
      exact stage_returned (by omega) fun hzero => by omega
  | enter hc =>
      obtain ⟨hcompleted, herrors⟩ := h.stage.setup hc
      refine ⟨h.echoes, h.mismatches, ?_⟩
      rw [hcompleted, herrors]
      exact stage_head (Nat.zero_le _)
  | stay hc hk hfine =>
      obtain ⟨hcompleted, herrors, hlt⟩ := h.stage.message _ hc
      refine ⟨h.echoes, h.mismatches, ?_⟩
      rw [hcompleted, herrors]
      exact stage_of_message hk hlt
  | failOne hc hfails =>
      obtain ⟨hcompleted, herrors, hlt⟩ := h.stage.message _ hc
      refine ⟨h.echoes, h.mismatches, ?_⟩
      change Stage job .returned c.completed (c.errors + 1)
      exact stage_returned (by omega) fun hzero => by omega
  | complete got hc hfine => exact h.complete hc got

theorem reachable_books (h : (connMain job).Reachable c) : c.Books job := by
  refine Machine.Reachable.invariant (P := Conn.Books job) ?_ ?_ h
  · rintro _ rfl
    exact books_blank job
  · intro c a c' _ hbooks hs
    exact hbooks.moves (moves_of_step hs)

/-! ## When every message is in them -/

/-- A connection breaks at the last message only. -/
def breaksAtLast (job : Job) (c : Conn) (a : Answer) : Prop :=
  ∀ m, c.control.message = some m → a.Fails → m + 1 = job.messages

def Conn.Accounted (job : Job) (c : Conn) : Prop :=
  c.Books job ∧ (c.control = .returned → c.completed + c.errors = job.messages)

/-- The thread has returned and some message is in no count. -/
def Conn.Lost (job : Job) (c : Conn) : Prop :=
  c.control = .returned ∧ c.completed + c.errors < job.messages

theorem Conn.Accounted.not_lost (h : c.Accounted job) : ¬c.Lost job := by
  rintro ⟨hreturned, hlt⟩
  have htotal := h.2 hreturned
  omega

theorem Conn.Accounted.moves (h : c.Accounted job) (hok : breaksAtLast job c a)
    (hmove : Moves job c a c') : c'.Accounted job := by
  refine ⟨h.1.moves hmove, ?_⟩
  cases hmove with
  | setup connected hc hk hpast => exact fun hreturned => absurd hreturned hk.ne_returned
  | failAll hc =>
      intro _
      obtain ⟨hcompleted, -⟩ := h.1.stage.setup hc
      change c.completed + job.messages = job.messages
      omega
  | enter hc =>
      intro hreturned
      obtain ⟨hcompleted, herrors⟩ := h.1.stage.setup hc
      rcases job.head_cases 0 with ⟨_, hmessage⟩ | ⟨hle, -⟩
      · exact absurd hreturned (Control.ne_returned_of_message hmessage)
      · change c.completed + c.errors = job.messages
        omega
  | stay hc hk hfine => exact fun hreturned => absurd hreturned (Control.ne_returned_of_message hk)
  | failOne hc hfails =>
      intro _
      obtain ⟨hcompleted, herrors, -⟩ := h.1.stage.message _ hc
      have hlast := hok _ hc hfails
      change c.completed + (c.errors + 1) = job.messages
      omega
  | complete got hc hfine =>
      intro hreturned
      obtain ⟨hcompleted, herrors, hlt⟩ := h.1.stage.message _ hc
      rcases job.head_cases (c.completed + 1) with ⟨_, hmessage⟩ | ⟨hle, -⟩
      · rw [hcompleted] at hmessage
        exact absurd hreturned (Control.ne_returned_of_message hmessage)
      · change c.completed + 1 + c.errors = job.messages
        omega

theorem Conn.Accounted.lost (h : c.Accounted job) (hok : ¬breaksAtLast job c a)
    (hmove : Moves job c a c') : c'.Lost job := by
  simp only [breaksAtLast, not_forall] at hok
  obtain ⟨m, hm, hfails, hlast⟩ := hok
  obtain ⟨hcompleted, herrors, hlt⟩ := h.1.stage.message m hm
  cases hmove with
  | setup connected hc hk hpast => exact absurd hc (Control.not_setup_of_message hm)
  | failAll hc => exact absurd hc (Control.not_setup_of_message hm)
  | enter hc => exact absurd hc (Control.not_setup_of_message hm)
  | stay hc hk hfine => exact absurd hfails hfine
  | failOne hc _ =>
      refine ⟨rfl, ?_⟩
      change c.completed + (c.errors + 1) < job.messages
      omega
  | complete got hc hfine => exact absurd hfails hfine

theorem accounted_iff {as : List Answer} (hrun : (connMain job).run .blank as = some c)
    (hreturned : c.control = .returned) :
    c.completed + c.errors = job.messages ↔
      (connMain job).Admits (breaksAtLast job) .blank as := by
  have hblank : Conn.blank.Accounted job := ⟨books_blank job, nofun⟩
  have hadmits : ((connMain job).Admits (breaksAtLast job) .blank as ↔ c.Accounted job) ∧
      (¬(connMain job).Admits (breaksAtLast job) .blank as ↔ c.Lost job) := by
    refine Machine.admits_iff (fun _ h => h.not_lost) ?_ ?_ ?_ hblank hrun
    · exact fun _ _ _ h hok hs => h.moves hok (moves_of_step hs)
    · exact fun _ _ _ h hok hs => h.lost hok (moves_of_step hs)
    · intro c a c' h hs
      cases hs.symm.trans (step_returned h.1)
  rw [hadmits.1]
  have hbooks := reachable_books (Machine.reachable_of_run as rfl hrun)
  exact ⟨fun h => ⟨hbooks, fun _ => h⟩, fun h => h.2 hreturned⟩

/-- Threads that have returned have all offered messages in their books exactly if no
connection broke before its last message. -/
theorem requests_accounted_iff {connections : ℕ} (answers : Fin connections → List Answer)
    (conns : Fin connections → Conn)
    (hrun : ∀ i, (connMain job).run .blank (answers i) = some (conns i))
    (hreturned : ∀ i, (conns i).control = .returned) :
    (∀ i, (conns i).completed + (conns i).errors = job.messages ↔
      (connMain job).Admits (breaksAtLast job) .blank (answers i)) ∧
    (∑ i, ((conns i).completed + (conns i).errors) = connections * job.messages ↔
      ∀ i, (connMain job).Admits (breaksAtLast job) .blank (answers i)) := by
  have hiff := fun i => accounted_iff (hrun i) (hreturned i)
  have hle : ∀ i ∈ Finset.univ, (conns i).completed + (conns i).errors ≤ job.messages :=
    fun i _ => ((reachable_books (Machine.reachable_of_run _ rfl (hrun i))).stage.returned
      (hreturned i)).1
  have hoffered : connections * job.messages = ∑ _i : Fin connections, job.messages := by simp
  refine ⟨hiff, ?_⟩
  rw [hoffered, Finset.sum_eq_sum_iff_of_le hle]
  exact ⟨fun h i => (hiff i).mp (h i (Finset.mem_univ i)), fun h i _ => (hiff i).mpr (h i)⟩

/-- Two messages of one byte. -/
def twoMessages : Job := ⟨2, 1, by decide, by decide⟩

def connects : Attempt := ⟨.ok 3, .ok (), .ok (), .ok (), .ok 1, .ok 0, .ok ()⟩

/-- From the start of the thread to the acknowledgement. -/
def acknowledged : List Answer :=
  [.start, .connect (some [connects]), .arrive, .release, .proceed, .recv (.ok ['*'.toUInt8])]

/-- The server leaves at the last message. -/
def leavesAtLast : List Answer :=
  acknowledged ++ [.send (.ok 3), .recv (.ok ['b'.toUInt8]), .send (.ok 3), .recv (.ok [])]

theorem requests_accounted_iff_leavesAtLast :
    ∃ c, (connMain twoMessages).run .blank leavesAtLast = some c ∧ c.control = .returned ∧
      c.completed = 1 ∧ c.errors = 1 ∧
      (c.completed + c.errors = 2 ↔
        (connMain twoMessages).Admits (breaksAtLast twoMessages) .blank leavesAtLast) := by
  obtain ⟨c, hrun, hreturned, hcompleted, herrors⟩ : ∃ c : Conn,
      (connMain twoMessages).run .blank leavesAtLast = some c ∧ c.control = .returned ∧
        c.completed = 1 ∧ c.errors = 1 := ⟨_, rfl, rfl, rfl, rfl⟩
  refine ⟨c, hrun, hreturned, hcompleted, herrors, ?_⟩
  exact (requests_accounted_iff (fun _ : Fin 1 => leavesAtLast) (fun _ => c)
    (fun _ => hrun) (fun _ => hreturned)).1 0

/-- When it leaves at the first message, the second one is in no count. -/
theorem message_lost :
    ∃ c, (connMain twoMessages).run .blank (acknowledged ++ [.send (.ok 3), .recv (.ok [])]) =
        some c ∧ c.control = .returned ∧ c.completed = 0 ∧ c.errors = 1 ∧
      c.completed + c.errors ≠ twoMessages.messages :=
  ⟨_, rfl, rfl, rfl, rfl, by decide⟩

end ConcurrentServers.Loadgen

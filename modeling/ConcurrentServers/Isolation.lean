import ConcurrentServers.Epoll.Contract
import ConcurrentServers.Select.Contract

/-!
# What remote peers can do to the readiness servers

A remote peer decides which events are reported for its own socket and how
`recv` and `send` on it fail, and many peers together can exhaust descriptors or
memory, which shows in the result of `accept`. Both loops survive all of this
but the exhaustion errors, and close no connection but the one at hand.
-/

namespace ConcurrentServers

open Systems

/-- The errors by which `accept` reports that a resource has run out. -/
def Errno.Exhaustion (e : Errno) : Prop :=
  e = .emfile ∨ e = .enfile ∨ e = .enobufs ∨ e = .enomem

instance : DecidablePred Errno.Exhaustion :=
  fun _ => inferInstanceAs (Decidable (_ ∨ _ ∨ _ ∨ _))

/-- The results of `accept` that peers can bring about. -/
def acceptProvoked : SysResult ℕ → Prop
  | .ok _ => True
  | .error e => e = .eagain ∨ e = .eintr ∨ e = .econnaborted ∨ e.Exhaustion

/-- The result of an `accept` for which a resource ran out. -/
def acceptExhausted : SysResult ℕ → Prop
  | .ok _ => False
  | .error e => e.Exhaustion

/-- A call that no peer can make fail. -/
def Succeeds (r : SysResult Unit) : Prop := r = .ok ()

theorem transient_of_provoked {e : Errno} (h : acceptProvoked (.error e))
    (hspared : ¬acceptExhausted (.error e)) :
    e = .eagain ∨ e = .ewouldblock ∨ e = .eintr ∨ e = .econnaborted := by
  rcases h with h | h | h | h
  · exact Or.inl h
  · exact Or.inr (Or.inr (Or.inl h))
  · exact Or.inr (Or.inr (Or.inr h))
  · exact absurd h hspared

theorem not_transient_of_exhaustion {e : Errno} (h : e.Exhaustion) :
    ¬(e = .eagain ∨ e = .ewouldblock ∨ e = .eintr ∨ e = .econnaborted) := by
  rcases h with rfl | rfl | rfl | rfl <;> decide

/-! ## The epoll server -/

namespace Epoll

variable {cfg : Config} {s s' : Server} {l : Label} {o : Outcome}

/-- The outcomes of one step that peers can bring about. The listener reports no
error, and the calls on the epoll descriptor and on a new socket succeed. -/
def Provoked (cfg : Config) : Label → Prop
  | .wait (.ok events) => ∀ p ∈ events, p.1 = cfg.listener → p.2.epollerr = false
  | .wait (.error e) => e = .eintr
  | .handle o => acceptProvoked o.accept ∧ Succeeds o.fcntl ∧ Succeeds o.epollCtl

/-- The step calls `accept`, and a resource has run out. -/
def Exhausts (cfg : Config) (s : Server) : Label → Prop
  | .wait _ => False
  | .handle o => ∃ e batch, s.batch = e :: batch ∧ e.fd = cfg.listener ∧ acceptExhausted o.accept

/-- The descriptor that a step is about. -/
def concerned (s : Server) : Label → Option ℕ
  | .wait _ => none
  | .handle _ => s.batch.head?.map Event.fd

/-- No event of the batch reports an error of the listener. -/
def Quiet (cfg : Config) (s : Server) : Prop :=
  ∀ e ∈ s.batch, e.fd = cfg.listener → e.events.epollerr = false

theorem epollCtl_of_succeeds {r : SysResult Unit} (h : Succeeds r) (fd : ℕ) (status : FdStatus) :
    ∃ s', s.epollCtl r fd status = .running s' := by
  rw [h]
  exact ⟨_, rfl⟩

theorem applyStatus_of_succeeds {r : SysResult Unit} (h : Succeeds r) (fd : ℕ)
    (v : PeerTable × FdStatus) : ∃ s', applyStatus r fd v s = .running s' := by
  unfold applyStatus
  dsimp only
  split
  · exact ⟨_, rfl⟩
  · exact epollCtl_of_succeeds h _ _

theorem acceptPeer_of_spared (ho : Provoked cfg (.handle o)) (hspared : ¬acceptExhausted o.accept)
    {p : Process Server} (hs : acceptPeer cfg o s = some p) : ∃ s', p = .running s' := by
  obtain ⟨haccept, hfcntl, hctl⟩ := ho
  unfold acceptPeer at hs
  cases hr : o.accept with
  | error e =>
      rw [hr] at haccept hspared
      simp only [hr, if_pos (transient_of_provoked haccept hspared)] at hs
      cases hs
      exact ⟨_, rfl⟩
  | ok fd =>
      simp only [hr, Option.ite_none_right_eq_some] at hs
      obtain ⟨_, hs⟩ := hs
      split at hs
      · cases hs
        exact ⟨_, rfl⟩
      · rw [hfcntl] at hs
        simp only [Option.some.injEq] at hs
        obtain ⟨s', hrun⟩ := epollCtl_of_succeeds hctl _ _
        exact ⟨s', hs.symm.trans hrun⟩

theorem readyPeer_of_succeeds (hctl : Succeeds o.epollCtl) {e : Event} {p : Process Server}
    (hs : readyPeer o e s = some p) : ∃ s', p = .running s' := by
  unfold readyPeer at hs
  split at hs
  · simp only [Option.ite_none_right_eq_some, Option.some.injEq] at hs
    obtain ⟨s', hrun⟩ := applyStatus_of_succeeds hctl e.fd _
    exact ⟨s', hs.2.symm.trans hrun⟩
  · split at hs
    · simp only [Option.some.injEq] at hs
      obtain ⟨s', hrun⟩ := applyStatus_of_succeeds hctl e.fd _
      exact ⟨s', hs.symm.trans hrun⟩
    · cases hs
      exact ⟨_, rfl⟩

theorem exited_of_exhausts (hquiet : Quiet cfg s) (h : Exhausts cfg s l) {p : Process Server}
    (hs : s.step cfg l = some p) : p = .exited := by
  cases l with
  | wait r => exact absurd h id
  | handle o =>
      obtain ⟨e, batch, hbatch, hfd, hexhausted⟩ := h
      have herr := hquiet e (by simp [hbatch]) hfd
      cases hr : o.accept with
      | ok fd =>
          rw [hr] at hexhausted
          exact absurd hexhausted id
      | error x =>
          rw [hr] at hexhausted
          have hfatal := not_transient_of_exhaustion hexhausted
          simp only [Server.step, hbatch, Epoll.handle, herr, hfd, acceptPeer, hr,
            if_neg hfatal] at hs
          exact (Option.some.inj hs).symm

theorem running_of_spared (hquiet : Quiet cfg s) (hl : Provoked cfg l)
    (hspared : ¬Exhausts cfg s l) {p : Process Server} (hs : s.step cfg l = some p) :
    ∃ s', p = .running s' := by
  cases l with
  | wait r =>
      simp only [Server.step, Option.ite_none_right_eq_some] at hs
      obtain ⟨_, hs⟩ := hs
      cases r with
      | error e =>
          have he : e = .eintr := hl
          simp only [he] at hs
          exact ⟨s, (Option.some.inj hs).symm⟩
      | ok events =>
          simp only [Option.ite_none_right_eq_some, Option.some.injEq] at hs
          exact ⟨_, hs.2.symm⟩
  | handle o =>
      cases hbatch : s.batch with
      | nil => simp [Server.step, hbatch] at hs
      | cons e batch =>
          simp only [Server.step, hbatch, Epoll.handle] at hs
          by_cases hfd : e.fd = cfg.listener
          · have herr := hquiet e (by simp [hbatch]) hfd
            simp only [herr, hfd] at hs
            exact acceptPeer_of_spared hl (fun hx => hspared ⟨e, batch, hbatch, hfd, hx⟩) hs
          · rw [if_neg hfd, if_neg hfd] at hs
            split at hs
            · exact ⟨_, (Option.some.inj hs).symm⟩
            · exact readyPeer_of_succeeds hl.2.2 hs

/-- Whatever happens, a step that does not end the process closes no connection
but the one it is about. -/
theorem spares_of_step (h : Valid cfg s) (hs : s.step cfg l = some (.running s')) :
    s.descriptors.Spares s'.descriptors (concerned s l) := by
  intro fd c howner hne
  cases l with
  | wait r =>
      simp only [Server.step, Option.ite_none_right_eq_some] at hs
      obtain ⟨_, hs⟩ := hs
      cases r with
      | error e =>
          simp only at hs
          split at hs
          · cases hs
            exact howner
          · cases hs
      | ok events =>
          simp only [Option.ite_none_right_eq_some, Option.some.injEq] at hs
          obtain ⟨_, hs⟩ := hs
          cases hs
          exact howner
  | handle o =>
      cases hbatch : s.batch with
      | nil => simp [Server.step, hbatch] at hs
      | cons e batch =>
          simp only [Server.step, hbatch] at hs
          have hcurrent := h.batch e (by simp [hbatch])
          obtain ⟨_, _, t, ht, hstep⟩ := handle_running hs hcurrent.within
          have hopen : s.descriptors.owner fd ≠ none := by simp [howner]
          have hother : t ≠ some fd := by
            intro heq
            apply hne
            simp [concerned, hbatch, ht fd heq]
          exact (hstep.frame hopen hother).1.trans howner

theorem Quiet.step (h : Quiet cfg s) (hvalid : Valid cfg s) (hl : Provoked cfg l)
    (hs : s.step cfg l = some (.running s')) : Quiet cfg s' := by
  cases l with
  | wait r =>
      simp only [Server.step, Option.ite_none_right_eq_some] at hs
      obtain ⟨_, hs⟩ := hs
      cases r with
      | error e =>
          have he : e = .eintr := hl
          simp only [he] at hs
          cases hs
          exact h
      | ok events =>
          simp only [Option.ite_none_right_eq_some, Option.some.injEq] at hs
          obtain ⟨_, hs⟩ := hs
          cases hs
          intro e he hfd
          obtain ⟨p, hp, rfl⟩ := List.mem_map.mp he
          exact hl p hp hfd
  | handle o =>
      cases hbatch : s.batch with
      | nil => simp [Server.step, hbatch] at hs
      | cons e batch =>
          simp only [Server.step, hbatch] at hs
          have hcurrent := hvalid.batch e (by simp [hbatch])
          obtain ⟨hrest, _⟩ := handle_running hs hcurrent.within
          intro e' he'
          rw [hrest] at he'
          exact h e' (by simp [hbatch, he'])

/-- A step that peers can bring about and for which no resource runs out. -/
def Spared (cfg : Config) (p : Process Server) (l : Label) : Prop :=
  Provoked cfg l ∧ p.All fun s => ¬Exhausts cfg s l

theorem spared_invariant {p : Process Server} (h : (server cfg).ReachableBy (Spared cfg) p) :
    ∃ s, p = .running s ∧ Quiet cfg s := by
  refine Machine.ReachableBy.invariant (P := fun p => ∃ s, p = .running s ∧ Quiet cfg s) ?_ ?_ h
  · rintro _ ⟨s, rfl, rfl⟩
    exact ⟨_, rfl, nofun⟩
  · rintro _ l p hreach ⟨s, rfl, hquiet⟩ ⟨hl, hspared⟩ hs
    obtain ⟨s', rfl⟩ := running_of_spared hquiet hl hspared hs
    exact ⟨s', rfl, hquiet.step (reachable_valid hreach) hl hs⟩

end Epoll

/-! ## The select server -/

namespace Select

variable {cfg : Config} {s s' : Server} {l : Label} {o : Outcome}

/-- The outcomes of one step that peers can bring about. -/
def Provoked : Label → Prop
  | .select (.ok _) => True
  | .select (.error e) => e = .eintr
  | .visit o => acceptProvoked o.accept ∧ Succeeds o.fcntl
  | .finish => True

/-- The step calls `accept`, and a resource has run out. -/
def Exhausts (cfg : Config) (s : Server) : Label → Prop
  | .visit o => ∃ v, s.sweep = some v ∧ v.fd = cfg.listener ∧ v.fd ∈ v.readfds ∧
      acceptExhausted o.accept
  | _ => False

/-- The descriptor that a step is about. -/
def concerned (s : Server) : Label → Option ℕ
  | .visit _ => s.sweep.map Sweep.fd
  | _ => none

theorem acceptPeer_of_spared (ho : Provoked (.visit o)) (hspared : ¬acceptExhausted o.accept)
    {p : Process Server} (hs : acceptPeer cfg o s = some p) : ∃ s', p = .running s' := by
  obtain ⟨haccept, hfcntl⟩ := ho
  unfold acceptPeer at hs
  cases hr : o.accept with
  | error e =>
      rw [hr] at haccept hspared
      simp only [hr, if_pos (transient_of_provoked haccept hspared)] at hs
      cases hs
      exact ⟨_, rfl⟩
  | ok fd =>
      simp only [hr, Option.ite_none_right_eq_some] at hs
      obtain ⟨_, hs⟩ := hs
      split at hs
      · cases hs
        exact ⟨_, rfl⟩
      · rw [hfcntl] at hs
        exact ⟨_, (Option.some.inj hs).symm⟩

theorem readPart_of_spared {v : Sweep} (ho : Provoked (.visit o))
    (hspared : v.fd = cfg.listener → v.fd ∈ v.readfds → ¬acceptExhausted o.accept)
    {p : Process (Server × Sweep × Bool)} (hs : readPart cfg o v s = some p) :
    ∃ q, p = .running q := by
  unfold readPart at hs
  split at hs
  · next hmem =>
      split at hs
      · next hfd =>
          obtain ⟨p', haccept, rfl⟩ := Option.map_eq_some_iff.mp hs
          obtain ⟨s', rfl⟩ := acceptPeer_of_spared ho (hspared hfd hmem) haccept
          exact ⟨_, rfl⟩
      · simp only [Option.ite_none_right_eq_some, Option.some.injEq] at hs
        exact ⟨_, hs.2.symm⟩
  · exact ⟨_, (Option.some.inj hs).symm⟩

theorem exited_of_exhausts (h : Exhausts cfg s l) {p : Process Server}
    (hs : s.step cfg l = some p) : p = .exited := by
  cases l with
  | select r => exact absurd h id
  | finish => exact absurd h id
  | visit o =>
      obtain ⟨v, hsweep, hfd, hmem, hexhausted⟩ := h
      cases hr : o.accept with
      | ok fd =>
          rw [hr] at hexhausted
          exact absurd hexhausted id
      | error x =>
          rw [hr] at hexhausted
          have hfatal := not_transient_of_exhaustion hexhausted
          have hread : readPart cfg o v s = some .exited := by
            simp only [readPart, if_pos hmem, if_pos hfd, acceptPeer, hr, if_neg hfatal]
            rfl
          simp only [Server.step, hsweep, Select.visit, hread, Option.ite_none_right_eq_some] at hs
          exact (Option.some.inj hs.2).symm

theorem running_of_spared (hl : Provoked l) (hspared : ¬Exhausts cfg s l) {p : Process Server}
    (hs : s.step cfg l = some p) : ∃ s', p = .running s' := by
  cases l with
  | select r =>
      simp only [Server.step] at hs
      split at hs
      · cases hs
      · next e _ =>
          have he : e = .eintr := hl
          rw [if_pos he] at hs
          exact ⟨_, (Option.some.inj hs).symm⟩
      · simp only [Option.ite_none_right_eq_some, Option.some.injEq] at hs
        exact ⟨_, hs.2.symm⟩
  | visit o =>
      simp only [Server.step] at hs
      split at hs
      · next v hsweep =>
          simp only [Option.ite_none_right_eq_some] at hs
          obtain ⟨_, hs⟩ := hs
          obtain ⟨p', hread, rfl⟩ := Option.map_eq_some_iff.mp hs
          obtain ⟨q, rfl⟩ := readPart_of_spared hl
            (fun hfd hmem hx => hspared ⟨v, hsweep, hfd, hmem, hx⟩) hread
          exact ⟨_, rfl⟩
      · cases hs
  | finish =>
      simp only [Server.step] at hs
      split at hs
      · simp only [Option.ite_none_left_eq_some, Option.some.injEq] at hs
        exact ⟨_, hs.2.symm⟩
      · cases hs

/-- Whatever happens, a step that does not end the process closes no connection
but the one it is about. -/
theorem spares_of_step (h : Invariant cfg s) (hs : s.step cfg l = some (.running s')) :
    s.descriptors.Spares s'.descriptors (concerned s l) := by
  intro fd c howner hne
  cases l with
  | select r =>
      simp only [Server.step] at hs
      split at hs
      · cases hs
      · split at hs
        · cases hs
          exact howner
        · cases hs
      · simp only [Option.ite_none_right_eq_some, Option.some.injEq, Process.running.injEq] at hs
        obtain ⟨_, rfl⟩ := hs
        exact howner
  | visit o =>
      simp only [Server.step] at hs
      split at hs
      · next v hsweep =>
          simp only [Option.ite_none_right_eq_some] at hs
          obtain ⟨s₁, v₁, t, ht, hfollows, _, rfl⟩ :=
            visit_running h.valid (h.sweeping v hsweep) hs.2
          have hopen : s.descriptors.owner fd ≠ none := by simp [howner]
          have hother : t ≠ some fd := by
            intro heq
            apply hne
            simp [concerned, hsweep, ht fd heq]
          exact (hfollows.loop.frame hopen hother).1.trans howner
      · cases hs
  | finish =>
      simp only [Server.step] at hs
      split at hs
      · simp only [Option.ite_none_left_eq_some, Option.some.injEq, Process.running.injEq] at hs
        obtain ⟨_, rfl⟩ := hs
        exact howner
      · cases hs

/-- A step that peers can bring about and for which no resource runs out. -/
def Spared (cfg : Config) (p : Process Server) (l : Label) : Prop :=
  Provoked l ∧ p.All fun s => ¬Exhausts cfg s l

theorem spared_invariant {p : Process Server} (h : (server cfg).ReachableBy (Spared cfg) p) :
    ∃ s, p = .running s := by
  refine Machine.ReachableBy.invariant (P := fun p => ∃ s, p = .running s) ?_ ?_ h
  · rintro _ ⟨s, rfl, rfl⟩
    exact ⟨_, rfl⟩
  · rintro _ l p _ ⟨s, rfl⟩ ⟨hl, hspared⟩ hs
    exact running_of_spared hl hspared hs

end Select

/-! ## Main result -/

/-- As long as no `accept` has run into exhaustion, no outcomes that peers can
bring about have ended either server. A further such step goes on with every
connection but the one concerned still open, exactly if it is not itself an
`accept` that fails for lack of descriptors or memory. -/
theorem peers_isolated (cfg : Epoll.Config) (cfg' : Select.Config) :
    (∀ p, (Epoll.server cfg).ReachableBy (Epoll.Spared cfg) p → ∃ s, p = .running s ∧
      ∀ l q, Epoll.Provoked cfg l → s.step cfg l = some q →
        ((∃ s', q = .running s' ∧ s.descriptors.Spares s'.descriptors (Epoll.concerned s l)) ↔
          ¬Epoll.Exhausts cfg s l)) ∧
    ∀ p, (Select.server cfg').ReachableBy (Select.Spared cfg') p → ∃ s, p = .running s ∧
      ∀ l q, Select.Provoked l → s.step cfg' l = some q →
        ((∃ s', q = .running s' ∧ s.descriptors.Spares s'.descriptors (Select.concerned s l)) ↔
          ¬Select.Exhausts cfg' s l) := by
  constructor
  · intro p h
    obtain ⟨s, rfl, hquiet⟩ := Epoll.spared_invariant h
    refine ⟨s, rfl, fun l q hl hs => ?_⟩
    constructor
    · rintro ⟨s', rfl, _⟩ hexhausts
      cases Epoll.exited_of_exhausts hquiet hexhausts hs
    · intro hspared
      obtain ⟨s', rfl⟩ := Epoll.running_of_spared hquiet hl hspared hs
      exact ⟨s', rfl, Epoll.spares_of_step (Epoll.reachable_valid h.reachable) hs⟩
  · intro p h
    obtain ⟨s, rfl⟩ := Select.spared_invariant h
    refine ⟨s, rfl, fun l q hl hs => ?_⟩
    constructor
    · rintro ⟨s', rfl, _⟩ hexhausts
      cases Select.exited_of_exhausts hexhausts hs
    · intro hspared
      obtain ⟨s', rfl⟩ := Select.running_of_spared hl hspared hs
      exact ⟨s', rfl, Select.spares_of_step (Select.reachable_invariant h.reachable) hs⟩

/-- After a first connection, another one is waiting and `accept` fails. -/
def epollExhausted : List Epoll.Label :=
  [.wait (.ok [(3, Epoll.readable)]), .handle Epoll.success, .wait (.ok [(3, Epoll.readable)]),
    .handle ⟨.error .emfile, .ok (), .ok (), .ok [], .ok 0⟩]

def selectExhausted : List Select.Label :=
  [.select (.ok ({1}, ∅)), Select.iteration 0, Select.iteration 0, .finish,
    .select (.ok ({1}, ∅)), Select.iteration 2,
    .visit ⟨.error .emfile, .ok (), .ok [], .ok 0⟩]

/-- Peers alone can end both servers, by opening connections until `accept`
returns `EMFILE`. -/
theorem exhaustion_ends_readiness_servers :
    ((∀ l ∈ epollExhausted, Epoll.Provoked Epoll.smallConfig l) ∧
      (Epoll.server Epoll.smallConfig).run (.running (.start Epoll.smallConfig)) epollExhausted =
        some .exited) ∧
    (∀ l ∈ selectExhausted, Select.Provoked l) ∧
      (Select.server Select.smallConfig).run (.running (.start Select.smallConfig))
        selectExhausted = some .exited := by
  refine ⟨⟨?_, rfl⟩, ?_, rfl⟩
  · simp [epollExhausted, Epoll.Provoked, Epoll.readable, Epoll.success, acceptProvoked, Succeeds,
      Errno.Exhaustion]
  · simp [selectExhausted, Select.Provoked, Select.iteration, acceptProvoked, Succeeds,
      Errno.Exhaustion]

theorem peers_isolated_firstConnection :
    ∃ p, (Epoll.server Epoll.smallConfig).run (.running (.start Epoll.smallConfig))
        [.wait (.ok [(3, Epoll.readable)])] = some p ∧
      ∃ s, p = .running s ∧ ∀ l q, Epoll.Provoked Epoll.smallConfig l →
        s.step Epoll.smallConfig l = some q →
        ((∃ s', q = .running s' ∧ s.descriptors.Spares s'.descriptors (Epoll.concerned s l)) ↔
          ¬Epoll.Exhausts Epoll.smallConfig s l) := by
  refine ⟨_, rfl, (peers_isolated Epoll.smallConfig Select.smallConfig).1 _ ?_⟩
  refine .step (.wait (.ok [(3, Epoll.readable)])) (.init ⟨_, rfl, rfl⟩) ⟨?_, id⟩ rfl
  simp [Epoll.Provoked, Epoll.readable]

end ConcurrentServers

import ConcurrentServers.Epoll.Model
import ConcurrentServers.EventLoop

/-!
# What every run of the epoll server guarantees

Without the listener, the kernel's interest set is what the abstract loop
watches, and every handled event is a step of that loop. The events of a batch
stay valid until they are handled, because a step leaves every open connection
but its own alone and no descriptor is in a batch twice.
-/

namespace ConcurrentServers.Epoll

open Systems

/-! ## The server follows the loop -/

def Interest.status (i : Interest) : FdStatus := ⟨i.epollin, i.epollout⟩

theorem Interest.eq_of_status {i j : Interest} (h : i.status = j.status) : i = j := by
  cases i
  cases j
  simpa [Interest.status] using h

def Server.toLoop (cfg : Config) (s : Server) : EventLoop where
  table := s.table
  interest fd := if fd = cfg.listener then none else (s.interest fd).map Interest.status
  descriptors := s.descriptors
  closes := s.closes

variable {cfg : Config} {s s' : Server} {fd : ℕ}

theorem toLoop_interest (hne : fd ≠ cfg.listener) :
    (s.toLoop cfg).interest fd = (s.interest fd).map Interest.status :=
  if_neg hne

/-- An update of the interest set, seen by the loop. -/
theorem toLoop_update (hne : fd ≠ cfg.listener) (i : Option Interest) :
    ({ s with interest := Function.update s.interest fd i } : Server).toLoop cfg =
      { s.toLoop cfg with
        interest := Function.update (s.toLoop cfg).interest fd (i.map Interest.status) } := by
  simp only [Server.toLoop, EventLoop.mk.injEq, true_and, and_true]
  funext fd'
  by_cases hfd : fd' = fd
  · rw [hfd, Function.update_self, Function.update_self, if_neg hne]
  · rw [Function.update_of_ne hfd, Function.update_of_ne hfd]

theorem toLoop_close (hne : fd ≠ cfg.listener) :
    (s.close fd).toLoop cfg = (s.toLoop cfg).close fd := by
  have hupdate := toLoop_update (s := s) hne none
  simp only [Server.toLoop, EventLoop.mk.injEq] at hupdate
  simp only [Server.toLoop, Server.close, EventLoop.close, hupdate.2.1]
  rfl

theorem epollCtl_running {r : SysResult Unit} {status : FdStatus} (hne : fd ≠ cfg.listener)
    (hs : s.epollCtl r fd status = .running s') :
    s'.batch = s.batch ∧ s'.handled = s.handled ∧
      s'.toLoop cfg = (s.toLoop cfg).watch fd status := by
  cases r with
  | error e => cases hs
  | ok u =>
      cases hs
      exact ⟨rfl, rfl, toLoop_update hne _⟩

theorem applyStatus_running {r : SysResult Unit} {v : PeerTable × FdStatus}
    (hne : fd ≠ cfg.listener) (hs : applyStatus r fd v s = .running s') :
    s'.batch = s.batch ∧ s'.handled = s.handled ∧
      s'.toLoop cfg = (s.toLoop cfg).apply fd v := by
  unfold applyStatus at hs
  unfold EventLoop.apply
  by_cases hnorw : v.2 = fdStatusNORW
  · rw [if_pos ((wants_nothing_iff _).mpr hnorw)] at hs
    cases hs
    rw [if_pos hnorw]
    exact ⟨rfl, rfl, toLoop_close hne⟩
  · rw [if_neg (fun h => hnorw ((wants_nothing_iff _).mp h))] at hs
    rw [if_neg hnorw]
    exact epollCtl_running hne hs

theorem acceptPeer_running {o : Outcome} (hs : acceptPeer cfg o s = some (.running s')) :
    s'.batch = s.batch ∧ s'.handled = s.handled ∧
      (s.toLoop cfg).Step cfg.reserved none (s'.toLoop cfg) := by
  unfold acceptPeer at hs
  cases haccept : o.accept with
  | error e =>
      simp only [haccept] at hs
      split at hs
      · cases hs
        exact ⟨rfl, rfl, .idle none⟩
      · cases hs
  | ok fd =>
      simp only [haccept, Option.ite_none_right_eq_some] at hs
      obtain ⟨⟨hnone, hres⟩, hs⟩ := hs
      have hne : fd ≠ cfg.listener := fun heq => hres (heq ▸ cfg.listener_mem)
      split at hs
      · cases hs
        refine ⟨rfl, rfl, ?_⟩
        rw [toLoop_close hne]
        exact .reject hnone
      · next hrange =>
          have hlt := lt_capacity_of_inRange (by simpa using hrange)
          cases hfcntl : o.fcntl with
          | error e => simp [hfcntl] at hs
          | ok u =>
              simp only [hfcntl, Option.some.injEq] at hs
              obtain ⟨hbatch, hhandled, hloop⟩ := epollCtl_running hne hs
              refine ⟨hbatch, hhandled, ?_⟩
              rw [hloop]
              exact .connect hnone hres hlt

theorem toLoop_interest_some (hne : fd ≠ cfg.listener) {i : Interest}
    (hi : s.interest fd = some i) : (s.toLoop cfg).interest fd = some i.status := by
  rw [toLoop_interest hne, hi]
  rfl

theorem readyPeer_running {o : Outcome} {e : Event} (hne : e.fd ≠ cfg.listener) {i : Interest}
    (hi : s.interest e.fd = some i) (hwithin : e.events.within i = true)
    (hs : readyPeer o e s = some (.running s')) :
    s'.batch = s.batch ∧ s'.handled = s.handled ∧
      (s.toLoop cfg).Step cfg.reserved (some e.fd) (s'.toLoop cfg) := by
  have hstatus := toLoop_interest_some hne hi
  simp only [Reported.within, Bool.and_eq_true, Bool.or_eq_true, Bool.not_eq_true'] at hwithin
  unfold readyPeer at hs
  split at hs
  · next hin =>
      have hread : i.status.wantRead = true := hwithin.1.resolve_left (by simp [hin])
      simp only [Option.ite_none_right_eq_some, Option.some.injEq] at hs
      obtain ⟨hallows, hs⟩ := hs
      obtain ⟨hbatch, hhandled, hloop⟩ := applyStatus_running hne hs
      refine ⟨hbatch, hhandled, ?_⟩
      rw [hloop]
      exact .recv hstatus hread hallows
  · split at hs
    · next hout =>
        have hwrite : i.status.wantWrite = true := hwithin.2.resolve_left (by simp [hout])
        simp only [Option.some.injEq] at hs
        obtain ⟨hbatch, hhandled, hloop⟩ := applyStatus_running hne hs
        refine ⟨hbatch, hhandled, ?_⟩
        rw [hloop]
        exact .send hstatus hwrite o.send
    · cases hs
      exact ⟨rfl, rfl, .idle _⟩

/-- Handling an event is a step of the loop, if the event reports what the
descriptor is watched for. -/
theorem handle_running {o : Outcome} {e : Event} (hs : handle cfg o e s = some (.running s'))
    (hvalid : e.fd ≠ cfg.listener →
      ∃ i, s.interest e.fd = some i ∧ e.events.within i = true) :
    s'.batch = s.batch ∧ s'.handled = s.handled ∧
      ∃ t, (∀ fd, t = some fd → fd = e.fd) ∧
        (s.toLoop cfg).Step cfg.reserved t (s'.toLoop cfg) := by
  unfold handle at hs
  split at hs
  · split at hs
    · cases hs
    · next hne =>
        cases hs
        obtain ⟨i, hi, _⟩ := hvalid hne
        refine ⟨rfl, rfl, some e.fd, fun fd heq => (Option.some.inj heq).symm, ?_⟩
        rw [toLoop_close hne]
        exact .drop (toLoop_interest_some hne hi)
  · split at hs
    · obtain ⟨hbatch, hhandled, hstep⟩ := acceptPeer_running hs
      exact ⟨hbatch, hhandled, none, nofun, hstep⟩
    · next hne =>
        obtain ⟨i, hi, hwithin⟩ := hvalid hne
        obtain ⟨hbatch, hhandled, hstep⟩ := readyPeer_running hne hi hwithin hs
        exact ⟨hbatch, hhandled, some e.fd, fun fd heq => (Option.some.inj heq).symm, hstep⟩

/-! ## The invariant -/

/-- The event reports the connection that is behind its descriptor now, and
nothing that the descriptor is not registered for. -/
structure Current (cfg : Config) (s : Server) (e : Event) : Prop where
  conn : e.conn = s.descriptors.owner e.fd
  within : e.fd ≠ cfg.listener → ∃ i, s.interest e.fd = some i ∧ e.events.within i = true

structure Valid (cfg : Config) (s : Server) : Prop where
  sound : EventLoop.Sound cfg.reserved none (s.toLoop cfg)
  capacity : s.table.peerCapacity = maxFds
  nodup : (s.batch.map Event.fd).Nodup
  batch : ∀ e ∈ s.batch, Current cfg s e
  handled : ∀ r ∈ s.handled, r.2 = r.1.conn ∧ (r.1.fd ≠ cfg.listener → r.1.conn ≠ none)

/-- The listener is not a connection. -/
theorem owner_listener (h : EventLoop.Sound cfg.reserved none (s.toLoop cfg)) :
    s.descriptors.owner cfg.listener = none :=
  h.unwatched cfg.listener (by simp) (if_pos rfl)

theorem Valid.wait (h : Valid cfg s) {events : List (ℕ × Reported)} (hallows : s.allows events) :
    Valid cfg { s with batch := events.map fun p => ⟨p.1, p.2, s.descriptors.owner p.1⟩ } := by
  refine ⟨h.sound, h.capacity, ?_, ?_, h.handled⟩
  · have hfds : (events.map fun p => (⟨p.1, p.2, s.descriptors.owner p.1⟩ : Event)).map Event.fd =
        events.map Prod.fst := by
      rw [List.map_map]
      rfl
    rw [hfds]
    exact hallows.1
  · intro e he
    obtain ⟨p, hp, rfl⟩ := List.mem_map.mp he
    refine ⟨rfl, fun _ => ?_⟩
    exact (Option.any_eq_true _ _).mp (hallows.2 p hp)

/-- An event stays current while other descriptors are handled. -/
theorem Current.step {e : Event} (h : Current cfg s e)
    (hsound : EventLoop.Sound cfg.reserved none (s.toLoop cfg)) {t : Option ℕ}
    (hs : (s.toLoop cfg).Step cfg.reserved t (s'.toLoop cfg)) (hne : t ≠ some e.fd) :
    Current cfg s' e := by
  by_cases hfd : e.fd = cfg.listener
  · refine ⟨?_, fun hne => absurd hfd hne⟩
    rw [h.conn, hfd, owner_listener hsound, owner_listener (hsound.step hs)]
  · obtain ⟨i, hi, hwithin⟩ := h.within hfd
    have hopen := hsound.owner_ne_none (toLoop_interest_some hfd hi)
    obtain ⟨howner, hinterest⟩ := hs.frame hopen hne
    rw [toLoop_interest hfd, toLoop_interest hfd, hi] at hinterest
    refine ⟨h.conn.trans howner.symm, fun _ => ?_⟩
    obtain ⟨j, hj, hstatus⟩ := Option.map_eq_some_iff.mp hinterest
    exact ⟨i, Interest.eq_of_status hstatus ▸ hj, hwithin⟩

theorem Valid.handle (h : Valid cfg s) {o : Outcome} {e : Event} {batch : List Event}
    (hbatch : s.batch = e :: batch)
    (hs : Epoll.handle cfg o e { s with
      batch := batch
      handled := s.handled ++ [(e, s.descriptors.owner e.fd)] } = some (.running s')) :
    Valid cfg s' := by
  have hcurrent : Current cfg s e := h.batch e (by simp [hbatch])
  have hnodup := h.nodup
  rw [hbatch, List.map_cons, List.nodup_cons] at hnodup
  obtain ⟨hbatch', hhandled', t, ht, hstep⟩ := handle_running hs hcurrent.within
  have hsound : EventLoop.Sound cfg.reserved none (s.toLoop cfg) := h.sound
  refine ⟨hsound.step hstep, ?_, ?_, ?_, ?_⟩
  · exact hstep.capacity.trans h.capacity
  · rw [hbatch']
    exact hnodup.2
  · intro e' he'
    rw [hbatch'] at he'
    apply (h.batch e' (by simp [hbatch, he'])).step hsound hstep
    intro heq
    apply hnodup.1
    rw [← ht _ heq]
    exact List.mem_map_of_mem he'
  · intro r hr
    rw [hhandled'] at hr
    rcases List.mem_append.mp hr with hr | hr
    · exact h.handled r hr
    · rw [List.mem_singleton.mp hr]
      refine ⟨hcurrent.conn.symm, fun hne => ?_⟩
      obtain ⟨i, hi, _⟩ := hcurrent.within hne
      rw [hcurrent.conn]
      exact h.sound.owner_ne_none (toLoop_interest_some hne hi)

theorem Valid.step (h : Valid cfg s) {l : Label} (hs : s.step cfg l = some (.running s')) :
    Valid cfg s' := by
  cases l with
  | wait r =>
      simp only [Server.step, Option.ite_none_right_eq_some] at hs
      obtain ⟨_, hs⟩ := hs
      cases r with
      | error e =>
          simp only at hs
          split at hs
          · cases hs
            exact h
          · cases hs
      | ok events =>
          simp only [Option.ite_none_right_eq_some, Option.some.injEq] at hs
          obtain ⟨hallows, hs⟩ := hs
          cases hs
          exact h.wait hallows
  | handle o =>
      cases hbatch : s.batch with
      | nil => simp [Server.step, hbatch] at hs
      | cons e batch =>
          simp only [Server.step, hbatch] at hs
          exact h.handle hbatch hs

theorem valid_start (cfg : Config) : Valid cfg (Server.start cfg) := by
  refine ⟨⟨?_, fun _ _ _ => rfl, rfl⟩, rfl, List.nodup_nil, nofun, nofun⟩
  intro fd status _ hstatus
  by_cases hfd : fd = cfg.listener <;> simp [Server.toLoop, Server.start, hfd] at hstatus

theorem reachable_valid (h : (server cfg).Reachable (.running s)) : Valid cfg s := by
  apply Process.machine_invariant _ _ h
  · rintro _ rfl
    exact valid_start cfg
  · intro s l s' hvalid hs
    exact hvalid.step hs

/-! ## Main results -/

theorem Valid.watched (h : Valid cfg s) (hne : fd ≠ cfg.listener) {i : Interest}
    (hi : s.interest fd = some i) :
    EventLoop.Watched cfg.reserved (s.toLoop cfg) fd i.status :=
  h.sound.watched fd i.status (by simp) (toLoop_interest_some hne hi)

/-- Between two events, every registered descriptor but the listener is an open
connection inside the table. It is registered for writing if output is pending,
and otherwise for reading, with room. Every open connection is registered, and
no event of the batch leads a handler into its branch for a missing buffer. -/
theorem registered_interest (h : (server cfg).Reachable (.running s)) :
    (∀ fd i, fd ≠ cfg.listener → s.interest fd = some i →
      (∃ c, s.descriptors.owner fd = some c) ∧ fd < maxFds ∧
      (peerPending s.table fd ≠ [] → i = ⟨false, true⟩) ∧
      (peerPending s.table fd = [] → i = ⟨true, false⟩ ∧ 0 < peerRecvRoom s.table fd)) ∧
    (∀ fd c, s.descriptors.owner fd = some c →
      fd ≠ cfg.listener ∧ ∃ i, s.interest fd = some i) ∧
    ∀ e ∈ s.batch, e.fd ≠ cfg.listener →
      (e.events.epollin = true → peerRecvRoom s.table e.fd ≠ 0) ∧
      (e.events.epollout = true → (peerPending s.table e.fd).length ≠ 0) := by
  have hvalid := reachable_valid h
  refine ⟨?_, ?_, ?_⟩
  · intro fd i hne hi
    have hwatched := hvalid.watched hne hi
    refine ⟨hwatched.isOpen, hvalid.capacity ▸ hwatched.fd_lt, ?_, ?_⟩
    · intro hpending
      rcases hwatched.agrees with ⟨⟨hstatus, _⟩ | ⟨_, hnil, _⟩⟩
      · exact Interest.eq_of_status hstatus
      · exact absurd hnil hpending
    · intro hpending
      rcases hwatched.agrees with ⟨⟨_, hpending'⟩ | ⟨hstatus, _, hroom⟩⟩
      · exact absurd hpending hpending'
      · exact ⟨Interest.eq_of_status hstatus, hroom⟩
  · intro fd c howner
    have hne : fd ≠ cfg.listener := by
      rintro rfl
      rw [owner_listener hvalid.sound] at howner
      cases howner
    refine ⟨hne, ?_⟩
    cases hi : s.interest fd with
    | some i => exact ⟨i, rfl⟩
    | none =>
        have hnone : (s.toLoop cfg).interest fd = none := by
          rw [toLoop_interest hne, hi]
          rfl
        have hclosed : s.descriptors.owner fd = none := hvalid.sound.unwatched fd (by simp) hnone
        rw [howner] at hclosed
        cases hclosed
  · intro e he hne
    obtain ⟨i, hi, hwithin⟩ := (hvalid.batch e he).within hne
    have hwatched := hvalid.watched hne hi
    simp only [Reported.within, Bool.and_eq_true, Bool.or_eq_true, Bool.not_eq_true'] at hwithin
    refine ⟨fun hin => ?_, fun hout => ?_⟩
    · have hread : i.status.wantRead = true := hwithin.1.resolve_left (by simp [hin])
      exact Nat.pos_iff_ne_zero.mp (hwatched.recvRoom_pos hread)
    · have hwrite : i.status.wantWrite = true := hwithin.2.resolve_left (by simp [hout])
      intro hzero
      exact hwatched.pending_ne_nil hwrite (List.length_eq_zero_iff.mp hzero)

theorem reachable_of_labels (cfg : Config) {p : Process Server} (labels : List Label)
    (h : (server cfg).run (.running (.start cfg)) labels = some p) : (server cfg).Reachable p :=
  Machine.reachable_of_run labels ⟨_, rfl, rfl⟩ h

def smallConfig : Config := ⟨3, [0, 1, 2, 3, 4], by decide⟩

def readable : Reported := ⟨true, false, false, false⟩

def writable : Reported := ⟨false, true, false, false⟩

def failed : Reported := ⟨false, false, true, true⟩

/-- All calls succeed: `accept` returns 5, `recv` a frame and `send` one byte. -/
def success : Outcome := ⟨.ok 5, .ok (), .ok (), .ok (['^', 'a'].map Char.toUInt8), .ok 1⟩

/-- A client connects as descriptor 5, is acknowledged and sends a frame. -/
def firstFrame : List Label :=
  [.wait (.ok [(3, readable)]), .handle success, .wait (.ok [(5, writable)]), .handle success,
    .wait (.ok [(5, readable)]), .handle success]

theorem registered_interest_firstFrame :
    ∃ s, (server smallConfig).run (.running (.start smallConfig)) firstFrame =
        some (.running s) ∧
      s.interest 5 = some ⟨false, true⟩ ∧ ∃ c, s.descriptors.owner 5 = some c := by
  refine ⟨_, rfl, rfl, ?_⟩
  have hregistered := registered_interest (reachable_of_labels smallConfig firstFrame rfl)
  exact (hregistered.1 5 ⟨false, true⟩ (by decide) rfl).1

/-- Every handled event found the connection behind its descriptor that it was
reported for, and an open one unless it was the listener's. The events still in
the batch will. Every `close` was of an open connection, no two of the same. -/
theorem events_reach_their_connection (h : (server cfg).Reachable (.running s)) :
    (∀ r ∈ s.handled, r.2 = r.1.conn ∧ (r.1.fd ≠ cfg.listener → r.2 ≠ none)) ∧
    (∀ e ∈ s.batch, e.conn = s.descriptors.owner e.fd) ∧
    (∀ c ∈ s.closes, c ≠ none) ∧ s.closes.Nodup := by
  have hvalid := reachable_valid h
  have hcloses : s.closes = s.descriptors.closed.map some := hvalid.sound.closes
  refine ⟨?_, fun e he => (hvalid.batch e he).conn, ?_, ?_⟩
  · intro r hr
    obtain ⟨hconn, hopen⟩ := hvalid.handled r hr
    exact ⟨hconn, fun hne => hconn ▸ hopen hne⟩
  · intro c hc
    rw [hcloses] at hc
    obtain ⟨d, _, rfl⟩ := List.mem_map.mp hc
    simp
  · rw [hcloses]
    exact s.descriptors.closed_nodup.map (Option.some_injective _)

/-- In one batch the connection behind descriptor 5 is closed on an error, and
the listener accepts a new one with the same number. -/
def reusedDescriptor : List Label :=
  [.wait (.ok [(3, readable)]), .handle success,
    .wait (.ok [(5, failed), (3, readable)]), .handle success, .handle success,
    .wait (.ok [(5, writable)]), .handle success]

theorem events_reach_their_connection_reusedDescriptor :
    ∃ s, (server smallConfig).run (.running (.start smallConfig)) reusedDescriptor =
        some (.running s) ∧
      s.handled.map Prod.snd = [none, some 0, none, some 1] ∧ s.closes = [some 0] ∧
      ∀ r ∈ s.handled, r.2 = r.1.conn ∧ (r.1.fd ≠ smallConfig.listener → r.2 ≠ none) := by
  refine ⟨_, rfl, rfl, rfl, ?_⟩
  exact (events_reach_their_connection (reachable_of_labels smallConfig reusedDescriptor rfl)).1

end ConcurrentServers.Epoll

import ConcurrentServers.Echo
import ConcurrentServers.Protocol.Stream

/-!
# Servers that call `serve_connection`

What the blocking servers have in common, whatever threads they run it on. A
connection is accepted, `serve_connection` is called on it once, and it is closed
when that call has returned, or before any call if the server has to refuse it.
Each server is shown to refine this machine, which refines the echo service.
-/

namespace ConcurrentServers.Protocol

open Systems

/-- What the function has returned. -/
def Connection.result (v : Connection) : Option ServeResult :=
  match v.control with
  | .returned r => some r
  | _ => none

/-- A record of the calls, under the connections behind their numbers. -/
def recordCall (d : Descriptors) (calls : ℕ → Option Connection) (fd : ℕ) (v : Connection) :
    ℕ → Option Connection :=
  match d.owner fd with
  | some c => Function.update calls c (some v)
  | none => calls

theorem recordCall_of_owner {d : Descriptors} {fd c : ℕ} (howner : d.owner fd = some c)
    (calls : ℕ → Option Connection) (v : Connection) :
    recordCall d calls fd v = Function.update calls c (some v) := by
  unfold recordCall
  rw [howner]

/-- The calls of `serve_connection`, by connection, and the connections that were
closed without one. -/
structure Service where
  descriptors : Descriptors
  calls : ℕ → Option Connection
  refused : List ℕ

namespace Service

inductive Label where
  | accept (fd : ℕ)
  | enter (fd : ℕ) (state : ProcessingState) (recvbuf : List.Vector UInt8 recvbufSize)
  | answer (fd : ℕ) (a : Answer)
  | close (fd : ℕ)
  | refuse (fd : ℕ)
  | exit

def setCall (s : Service) (c : ℕ) (v : Connection) : Service :=
  { s with calls := Function.update s.calls c (some v) }

def step (s : Service) : Label → Option (Process Service)
  | .accept fd =>
      if s.descriptors.owner fd = none then
        some (.running { s with descriptors := s.descriptors.accept fd })
      else none
  | .enter fd state recvbuf =>
      (s.descriptors.owner fd).bind fun c =>
        if (s.calls c).isNone then some (.running (s.setCall c (.entry state recvbuf))) else none
  | .answer fd a =>
      (s.descriptors.owner fd).bind fun c =>
        (s.calls c).bind fun v => (v.step a).map fun v' => .running (s.setCall c v')
  | .close fd =>
      (s.descriptors.owner fd).bind fun c =>
        (s.calls c).bind fun v =>
          v.result.map fun _ => .running { s with descriptors := s.descriptors.close fd }
  | .refuse fd =>
      (s.descriptors.owner fd).bind fun c =>
        if (s.calls c).isNone then
          some (.running { s with
            descriptors := s.descriptors.close fd
            refused := s.refused ++ [c] })
        else none
  | .exit => some .exited

end Service

def service : Machine (Process Service) Service.Label :=
  Process.machine (· = ⟨.empty, fun _ => none, []⟩) Service.step

namespace Service

variable {s s' : Service} {fd c : ℕ} {v v' : Connection}

/-! ## Steps on a connection -/

theorem run_accept (hnone : s.descriptors.owner fd = none) :
    service.run (.running s) [.accept fd] =
      some (.running { s with descriptors := s.descriptors.accept fd }) :=
  Machine.run_singleton (M := service) (if_pos hnone)

theorem run_enter (howner : s.descriptors.owner fd = some c) (hcall : s.calls c = none)
    (state : ProcessingState) (recvbuf : List.Vector UInt8 recvbufSize) :
    service.run (.running s) [.enter fd state recvbuf] =
      some (.running (s.setCall c (.entry state recvbuf))) := by
  apply Machine.run_singleton (M := service)
  change (s.descriptors.owner fd).bind _ = _
  rw [howner]
  apply if_pos
  rw [hcall]
  rfl

theorem run_answer (howner : s.descriptors.owner fd = some c) (hcall : s.calls c = some v)
    {a : Answer} (hv : v.step a = some v') :
    service.run (.running s) [.answer fd a] = some (.running (s.setCall c v')) := by
  apply Machine.run_singleton (M := service)
  change (s.descriptors.owner fd).bind _ = _
  rw [howner, Option.bind_some, hcall, Option.bind_some, hv]
  rfl

theorem run_close (howner : s.descriptors.owner fd = some c) (hcall : s.calls c = some v)
    {r : ServeResult} (hr : v.result = some r) : service.run (.running s) [.close fd] =
      some (.running { s with descriptors := s.descriptors.close fd }) := by
  apply Machine.run_singleton (M := service)
  change (s.descriptors.owner fd).bind _ = _
  rw [howner, Option.bind_some, hcall, Option.bind_some, hr]
  rfl

theorem run_refuse (howner : s.descriptors.owner fd = some c) (hcall : s.calls c = none) :
    service.run (.running s) [.refuse fd] =
      some (.running { s with
        descriptors := s.descriptors.close fd
        refused := s.refused ++ [c] }) := by
  apply Machine.run_singleton (M := service)
  change (s.descriptors.owner fd).bind _ = _
  rw [howner]
  apply if_pos
  rw [hcall]
  rfl

/-! ## What one step can do -/

inductive Moves (s : Service) : Service → Prop where
  | accept {fd : ℕ} (hnone : s.descriptors.owner fd = none) :
      Moves s { s with descriptors := s.descriptors.accept fd }
  | enter {fd c : ℕ} (howner : s.descriptors.owner fd = some c) (hcall : s.calls c = none)
      (state : ProcessingState) (recvbuf : List.Vector UInt8 recvbufSize) :
      Moves s (s.setCall c (.entry state recvbuf))
  | answer {fd c : ℕ} {v v' : Connection} {a : Answer}
      (howner : s.descriptors.owner fd = some c) (hcall : s.calls c = some v)
      (hv : v.step a = some v') : Moves s (s.setCall c v')
  | close {fd c : ℕ} {v : Connection} {r : ServeResult}
      (howner : s.descriptors.owner fd = some c) (hcall : s.calls c = some v)
      (hr : v.result = some r) :
      Moves s { s with descriptors := s.descriptors.close fd }
  | refuse {fd c : ℕ} (howner : s.descriptors.owner fd = some c) (hcall : s.calls c = none) :
      Moves s { s with descriptors := s.descriptors.close fd, refused := s.refused ++ [c] }

theorem moves_of_step {l : Label} (hs : s.step l = some (.running s')) : Moves s s' := by
  cases l with
  | accept fd =>
      obtain ⟨hnone, hs⟩ := Option.ite_none_right_eq_some.mp hs
      cases hs
      exact .accept hnone
  | enter fd state recvbuf =>
      obtain ⟨c, howner, hs⟩ := Option.bind_eq_some_iff.mp hs
      obtain ⟨hcall, hs⟩ := Option.ite_none_right_eq_some.mp hs
      cases hs
      exact .enter howner (Option.isNone_iff_eq_none.mp hcall) state recvbuf
  | answer fd a =>
      obtain ⟨c, howner, hs⟩ := Option.bind_eq_some_iff.mp hs
      obtain ⟨v, hcall, hs⟩ := Option.bind_eq_some_iff.mp hs
      obtain ⟨v', hv, hs⟩ := Option.map_eq_some_iff.mp hs
      cases hs
      exact .answer howner hcall hv
  | close fd =>
      obtain ⟨c, howner, hs⟩ := Option.bind_eq_some_iff.mp hs
      obtain ⟨v, hcall, hs⟩ := Option.bind_eq_some_iff.mp hs
      obtain ⟨r, hr, hs⟩ := Option.map_eq_some_iff.mp hs
      cases hs
      exact .close howner hcall hr
  | refuse fd =>
      obtain ⟨c, howner, hs⟩ := Option.bind_eq_some_iff.mp hs
      obtain ⟨hcall, hs⟩ := Option.ite_none_right_eq_some.mp hs
      cases hs
      exact .refuse howner (Option.isNone_iff_eq_none.mp hcall)
  | exit => cases hs

/-! ## Every connection is served once, to the end -/

structure Sound (s : Service) : Prop where
  genuine : ∀ c v, s.calls c = some v → serveConnection.Reachable v
  fresh : ∀ c, s.descriptors.fresh ≤ c → s.calls c = none
  closed : ∀ c ∈ s.descriptors.closed,
    c ∈ s.refused ∧ s.calls c = none ∨ ∃ v r, s.calls c = some v ∧ v.result = some r
  refused : ∀ c ∈ s.refused, c ∈ s.descriptors.closed

theorem mem_closed_close (howner : s.descriptors.owner fd = some c) {c' : ℕ} :
    c' ∈ (s.descriptors.close fd).closed ↔ c' ∈ s.descriptors.closed ∨ c' = c := by
  change c' ∈ s.descriptors.closed ++ (s.descriptors.owner fd).toList ↔ _
  rw [howner]
  simp

/-- A call changes on a connection that is open. -/
theorem Sound.setCall (h : s.Sound) (howner : s.descriptors.owner fd = some c)
    (hv : serveConnection.Reachable v) : (s.setCall c v).Sound := by
  have hopen := s.descriptors.owner_notMem_closed howner
  have hlt := s.descriptors.owner_lt howner
  refine ⟨?_, ?_, ?_, h.refused⟩
  · apply (Function.forall_update_iff s.calls
      (p := fun _ call => ∀ v, call = some v → serveConnection.Reachable v)).mpr
    refine ⟨?_, fun c' _ => h.genuine c'⟩
    rintro _ ⟨⟩
    exact hv
  · intro c' hc'
    have hne : c' ≠ c := by
      rintro rfl
      exact absurd hlt (Nat.not_lt.mpr hc')
    exact (Function.update_of_ne hne _ _).trans (h.fresh c' hc')
  · intro c' hc'
    have hne : c' ≠ c := by
      rintro rfl
      exact hopen hc'
    have hsame : (s.setCall c v).calls c' = s.calls c' := Function.update_of_ne hne _ _
    rw [hsame]
    exact h.closed c' hc'

theorem Sound.moves (h : s.Sound) (hm : Moves s s') : s'.Sound := by
  cases hm with
  | accept hnone =>
      exact ⟨h.genuine, fun c hc => h.fresh c (Nat.le_of_succ_le hc), h.closed, h.refused⟩
  | enter howner hcall state recvbuf => exact h.setCall howner (.init ⟨state, recvbuf, rfl⟩)
  | @answer fd c v v' a howner hcall hv =>
      exact h.setCall howner ((h.genuine c v hcall).step a hv)
  | close howner hcall hr =>
      refine ⟨h.genuine, h.fresh, ?_, ?_⟩
      · intro c' hc'
        rcases (mem_closed_close howner).mp hc' with hc' | rfl
        · exact h.closed c' hc'
        · exact Or.inr ⟨_, _, hcall, hr⟩
      · intro c' hc'
        exact (mem_closed_close howner).mpr (Or.inl (h.refused c' hc'))
  | refuse howner hcall =>
      refine ⟨h.genuine, h.fresh, ?_, ?_⟩
      · intro c' hc'
        rcases (mem_closed_close howner).mp hc' with hc' | rfl
        · rcases h.closed c' hc' with ⟨hmem, hnone⟩ | hserved
          · exact Or.inl ⟨List.mem_append_left _ hmem, hnone⟩
          · exact Or.inr hserved
        · exact Or.inl ⟨by simp, hcall⟩
      · intro c' hc'
        apply (mem_closed_close howner).mpr
        rcases List.mem_append.mp hc' with hc' | hc'
        · exact Or.inl (h.refused c' hc')
        · exact Or.inr (List.mem_singleton.mp hc')

theorem reachable_sound (h : service.Reachable (.running s)) : s.Sound := by
  apply Process.machine_invariant _ _ h
  · rintro _ rfl
    exact ⟨nofun, fun _ _ => rfl, nofun, nofun⟩
  · intro s l s' hsound hs
    exact hsound.moves (moves_of_step hs)

/-! ## The echo service -/

def traffic (s : Service) : Traffic where
  delivered c := (s.calls c).elim [] Connection.received
  sent c := (s.calls c).elim [] Connection.accepted

def toEcho (s : Service) : Echo := ⟨s.descriptors, s.traffic⟩

theorem streams_of_call (hcall : s.calls c = some v) :
    s.traffic.delivered c = v.received ∧ s.traffic.sent c = v.accepted := by
  simp only [traffic, hcall]
  exact ⟨rfl, rfl⟩

theorem traffic_setCall (s : Service) (c : ℕ) (v : Connection) :
    (s.setCall c v).traffic = ⟨Function.update s.traffic.delivered c v.received,
      Function.update s.traffic.sent c v.accepted⟩ := by
  have hcall : ∀ (f : Connection → List UInt8) (c' : ℕ),
      ((s.setCall c v).calls c').elim [] f =
        Function.update (fun c' => (s.calls c').elim [] f) c (f v) c' := by
    intro f c'
    by_cases hne : c' = c
    · subst hne
      simp [setCall]
    · simp [setCall, hne]
  simp only [traffic, hcall]

end Service

theorem Connection.transformByte_streams (v : Connection) (len i nsend : ℕ) :
    (v.transformByte len i nsend).received = v.received ∧
      (v.transformByte len i nsend).accepted = v.accepted := by
  unfold Connection.transformByte
  dsimp only
  split
  · exact ⟨rfl, rfl⟩
  · split <;> exact ⟨rfl, rfl⟩

/-- A step either sends the next bytes of what is owed, or takes input when nothing is. -/
theorem Connection.Follows.streams {v v' : Connection} {a : Answer} (h : v.Follows)
    (hs : v.step a = some v') :
    (v'.received = v.received ∧ ∃ data, v'.accepted = v.accepted ++ data) ∨
      (v'.accepted = v.accepted ∧ v.accepted = Frame.reply v.received ∧
        ∃ data, v'.received = v.received ++ data) := by
  have hmoves := moves_of_step hs
  cases hc : v.control with
  | recv =>
      rw [hc] at hmoves
      have hall := h.accepted_eq (Or.inl hc)
      cases hmoves with
      | interrupted => exact Or.inl ⟨rfl, [], (List.append_nil _).symm⟩
      | recvFailed he => exact Or.inl ⟨rfl, [], (List.append_nil _).symm⟩
      | closed => exact Or.inl ⟨rfl, [], (List.append_nil _).symm⟩
      | block hlen => exact Or.inr ⟨rfl, hall, _, rfl⟩
  | transform len i nsend =>
      rw [hc] at hmoves
      left
      cases hmoves with
      | byte hi =>
          obtain ⟨hreceived, haccepted⟩ := v.transformByte_streams len i nsend
          exact ⟨hreceived, [], haccepted.trans (List.append_nil _).symm⟩
      | reply hi hpos => exact ⟨rfl, [], (List.append_nil _).symm⟩
      | silent hi hzero => exact ⟨rfl, [], (List.append_nil _).symm⟩
  | sendAck k =>
      rw [hc] at hmoves
      cases hmoves <;> exact Or.inl ⟨rfl, _, rfl⟩
  | sendReply k =>
      rw [hc] at hmoves
      cases hmoves <;> exact Or.inl ⟨rfl, _, rfl⟩
  | returned r =>
      rw [hc] at hmoves
      cases hmoves

namespace Service

variable {s s' : Service}

theorem Moves.echo (hm : Moves s s') (h : s.Sound) :
    ∃ bs, echo.run (.running s.toEcho) bs = some (.running s'.toEcho) := by
  cases hm with
  | @accept fd hnone => exact ⟨[.accept fd], Echo.run_accept hnone⟩
  | @close fd c v r howner hcall hr => exact ⟨[.close fd], Echo.run_close howner⟩
  | @refuse fd c howner hcall => exact ⟨[.close fd], Echo.run_close howner⟩
  | @enter fd c howner hcall state recvbuf =>
      -- The streams of the connection are empty before the call and at its entry.
      refine ⟨[], ?_⟩
      have hdelivered : s.traffic.delivered c = [] := by
        simp only [traffic, hcall]
        rfl
      have hsent : s.traffic.sent c = [] := by
        simp only [traffic, hcall]
        rfl
      have hsame : (s.setCall c (.entry state recvbuf)).traffic = s.traffic := by
        rw [traffic_setCall]
        change Traffic.mk (Function.update s.traffic.delivered c [])
          (Function.update s.traffic.sent c []) = s.traffic
        rw [Function.update_eq_self_iff.mpr hdelivered.symm,
          Function.update_eq_self_iff.mpr hsent.symm]
      rw [toEcho, toEcho, hsame]
      rfl
  | @answer fd c v v' a howner hcall hv =>
      have hreach := h.genuine c v hcall
      have hfollows := reachable_follows hreach
      have hdue := Connection.Follows.accepted_prefix (reachable_follows (hreach.step a hv))
      obtain ⟨hdelivered, hsent⟩ := streams_of_call hcall
      have htraffic := traffic_setCall s c v'
      rcases hfollows.streams hv with ⟨hsame, data, hdata⟩ | ⟨hsame, hall, data, hdata⟩
      · refine ⟨[.send fd data], ?_⟩
        rw [hsame, hdata, ← hdelivered, ← hsent, Function.update_eq_self] at htraffic
        rw [toEcho, toEcho, htraffic]
        apply Echo.run_send howner
        change s.traffic.sent c ++ data <+: Frame.reply (s.traffic.delivered c)
        rwa [hdelivered, hsent, ← hdata, ← hsame]
      · refine ⟨[.deliver fd data], ?_⟩
        rw [hsame, hdata, ← hdelivered, ← hsent, Function.update_eq_self] at htraffic
        rw [toEcho, toEcho, htraffic]
        apply Echo.run_deliver howner
        change s.traffic.sent c = Frame.reply (s.traffic.delivered c)
        rwa [hdelivered, hsent]

end Service

theorem service_refines_echo : Refines service echo (Process.map Service.toEcho) := by
  refine Process.refines ?_ ?_ ?_
  · rintro _ rfl
    rfl
  · intro s l s' hreach hs
    exact (Service.moves_of_step hs).echo (Service.reachable_sound hreach)
  · intro s l _
    exact ⟨.exit, rfl⟩

end ConcurrentServers.Protocol

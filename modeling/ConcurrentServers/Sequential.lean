import ConcurrentServers.Protocol.Service

/-!
# `sequential_server.c`

One thread accepts a connection, calls `serve_connection` on it, closes it, and
only then accepts the next one. The record of the calls is not in the source.
-/

namespace ConcurrentServers.Sequential

open Systems Protocol

/-- The points of the loop of `main`. The argument is `newsockfd`, and `serving` holds
the variables of the call. -/
inductive Pc where
  | accept
  | serve (fd : ℕ)
  | serving (fd : ℕ) (v : Connection)

structure Server where
  pc : Pc
  descriptors : Descriptors
  calls : ℕ → Option Connection

inductive Label where
  | accept (r : SysResult ℕ)
  | enter (state : Protocol.ProcessingState) (recvbuf : List.Vector UInt8 recvbufSize)
  | answer (a : Answer)
  | close

/-- The call on `fd` is at `v`. -/
def Server.setCall (s : Server) (fd : ℕ) (v : Connection) : Server :=
  { s with pc := .serving fd v, calls := recordCall s.descriptors s.calls fd v }

/-- The kernel does not return a descriptor that is open. -/
def acceptReturns (r : SysResult ℕ) (s : Server) : Option (Process Server) :=
  match r with
  | .error e => some (if e = .eintr ∨ e = .econnaborted then .running s else .exited)
  | .ok fd =>
      if s.descriptors.owner fd = none then
        some (.running { s with pc := .serve fd, descriptors := s.descriptors.accept fd })
      else none

def Server.step (s : Server) (l : Label) : Option (Process Server) :=
  match s.pc, l with
  | .accept, .accept r => acceptReturns r s
  | .serve fd, .enter state recvbuf => some (.running (s.setCall fd (.entry state recvbuf)))
  | .serving fd v, .answer a => (v.step a).map fun v' => .running (s.setCall fd v')
  | .serving fd v, .close =>
      v.result.map fun _ =>
        .running { s with pc := .accept, descriptors := s.descriptors.close fd }
  | _, _ => none

def sequential : Machine (Process Server) Label :=
  Process.machine (· = ⟨.accept, .empty, fun _ => none⟩) Server.step

/-! ## What one step can do -/

inductive Moves (s : Server) : Pc → Server → Prop where
  | interrupted : Moves s .accept s
  | accept {fd : ℕ} (hnone : s.descriptors.owner fd = none) :
      Moves s .accept { s with pc := .serve fd, descriptors := s.descriptors.accept fd }
  | enter {fd : ℕ} (state : Protocol.ProcessingState) (recvbuf : List.Vector UInt8 recvbufSize) :
      Moves s (.serve fd) (s.setCall fd (.entry state recvbuf))
  | answer {fd : ℕ} {v v' : Connection} {a : Answer} (hv : v.step a = some v') :
      Moves s (.serving fd v) (s.setCall fd v')
  | close {fd : ℕ} {v : Connection} {r : ServeResult} (hr : v.result = some r) :
      Moves s (.serving fd v) { s with pc := .accept, descriptors := s.descriptors.close fd }

variable {s s' : Server}

theorem moves_of_step {l : Label} (hs : s.step l = some (.running s')) : Moves s s.pc s' := by
  unfold Server.step at hs
  split at hs
  · next r hpc =>
      rw [hpc]
      unfold acceptReturns at hs
      cases r with
      | error e =>
          obtain hs := Option.some.inj hs
          split at hs
          · cases hs
            exact .interrupted
          · cases hs
      | ok fd =>
          obtain ⟨hnone, hs⟩ := Option.ite_none_right_eq_some.mp hs
          cases hs
          exact .accept hnone
  · next fd state recvbuf hpc =>
      rw [hpc]
      cases hs
      exact .enter state recvbuf
  · next fd v a hpc =>
      rw [hpc]
      obtain ⟨v', hv, hs⟩ := Option.map_eq_some_iff.mp hs
      cases hs
      exact .answer hv
  · next fd v hpc =>
      rw [hpc]
      obtain ⟨r, hr, hs⟩ := Option.map_eq_some_iff.mp hs
      cases hs
      exact .close hr
  · cases hs

/-! ## One connection at a time, in the order of arrival -/

def Pc.hand : Pc → Option ℕ
  | .accept => none
  | .serve fd => some fd
  | .serving fd _ => some fd

def Pc.call : Pc → Option Connection
  | .serving _ v => some v
  | _ => none

/-- The connections that are closed are the first ones that were accepted. The only
other one is in the hand of the loop, and it is the next. -/
structure Server.Ordered (s : Server) : Prop where
  closed : s.descriptors.closed = List.range s.descriptors.closed.length
  fresh : s.descriptors.fresh = s.descriptors.closed.length + s.pc.hand.toList.length
  owner : ∀ fd, s.descriptors.owner fd =
    if s.pc.hand = some fd then some s.descriptors.closed.length else none
  calls : ∀ c, s.descriptors.closed.length ≤ c →
    s.calls c = if c = s.descriptors.closed.length then s.pc.call else none

theorem Server.Ordered.owner_hand (h : s.Ordered) {fd : ℕ} (hfd : s.pc.hand = some fd) :
    s.descriptors.owner fd = some s.descriptors.closed.length :=
  (h.owner fd).trans (if_pos hfd)

theorem Server.Ordered.setCall (h : s.Ordered) {fd : ℕ} (hfd : s.pc.hand = some fd)
    (v : Connection) : (s.setCall fd v).Ordered where
  closed := h.closed
  fresh := by
    have hfresh := h.fresh
    rwa [hfd] at hfresh
  owner := by
    have howner := h.owner
    rwa [hfd] at howner
  calls := by
    intro c hc
    change recordCall s.descriptors s.calls fd v c = _
    rw [recordCall_of_owner (h.owner_hand hfd)]
    by_cases heq : c = s.descriptors.closed.length
    · rw [heq, Function.update_self]
      exact (if_pos rfl).symm
    · rw [Function.update_of_ne heq, h.calls c hc, if_neg heq]
      exact (if_neg heq).symm

theorem Server.Ordered.accept (h : s.Ordered) (hpc : s.pc = .accept) (fd : ℕ) :
    Server.Ordered { s with pc := .serve fd, descriptors := s.descriptors.accept fd } := by
  have hhand : s.pc.hand = none := by rw [hpc]; rfl
  have hfresh : s.descriptors.fresh = s.descriptors.closed.length := by
    rw [h.fresh, hhand]
    rfl
  refine ⟨h.closed, ?_, ?_, ?_⟩
  · exact congrArg (· + 1) hfresh
  · intro fd'
    by_cases hfd : fd' = fd
    · rw [hfd, Descriptors.owner_accept_same, hfresh]
      exact (if_pos rfl).symm
    · have hne : ¬(some fd = some fd') := fun heq => hfd (Option.some.inj heq).symm
      rw [Descriptors.owner_accept_ne _ hfd, h.owner, hhand, if_neg (Option.some_ne_none fd').symm]
      exact (if_neg hne).symm
  · intro c hc
    rw [h.calls c hc, hpc]
    rfl

theorem Server.Ordered.close (h : s.Ordered) {fd : ℕ} (hfd : s.pc.hand = some fd) :
    Server.Ordered { s with pc := .accept, descriptors := s.descriptors.close fd } := by
  have howner := h.owner_hand hfd
  have hclosed : (s.descriptors.close fd).closed =
      s.descriptors.closed ++ [s.descriptors.closed.length] := by
    change s.descriptors.closed ++ (s.descriptors.owner fd).toList = _
    rw [howner]
    rfl
  have hlength : (s.descriptors.close fd).closed.length = s.descriptors.closed.length + 1 := by
    rw [hclosed, List.length_append]
    rfl
  refine ⟨?_, ?_, ?_, ?_⟩
  · change (s.descriptors.close fd).closed = List.range (s.descriptors.close fd).closed.length
    rw [hlength, hclosed, List.range_succ, ← h.closed]
  · change s.descriptors.fresh = (s.descriptors.close fd).closed.length
    rw [hlength, h.fresh, hfd]
    rfl
  · intro fd'
    change (s.descriptors.close fd).owner fd' = none
    by_cases heq : fd' = fd
    · rw [heq, Descriptors.owner_close_same]
    · rw [Descriptors.owner_close_ne _ heq, h.owner, hfd]
      exact if_neg fun hsame => heq (Option.some.inj hsame).symm
  · intro c hc
    change (s.descriptors.close fd).closed.length ≤ c at hc
    rw [hlength] at hc
    change s.calls c = if _ then none else none
    rw [h.calls c (Nat.le_of_succ_le hc), if_neg (Nat.ne_of_gt hc), ite_self]

theorem Server.Ordered.moves (h : s.Ordered) {pc : Pc} (hpc : s.pc = pc) (hm : Moves s pc s') :
    s'.Ordered := by
  cases hm with
  | interrupted => exact h
  | accept hnone => exact h.accept hpc _
  | enter state recvbuf => exact h.setCall (congrArg Pc.hand hpc) _
  | answer hv => exact h.setCall (congrArg Pc.hand hpc) _
  | close hr => exact h.close (congrArg Pc.hand hpc)

theorem reachable_ordered (h : sequential.Reachable (.running s)) : s.Ordered := by
  apply Process.machine_invariant _ _ h
  · rintro _ rfl
    refine ⟨rfl, rfl, fun _ => rfl, fun c _ => ?_⟩
    exact (ite_self _).symm
  · intro s l s' hordered hs
    exact hordered.moves rfl (moves_of_step hs)

/-! ## The calls -/

/-- No connection is refused. -/
def Server.toService (s : Server) : Service := ⟨s.descriptors, s.calls, []⟩

theorem toService_setCall (h : s.Ordered) {fd : ℕ} (hfd : s.pc.hand = some fd) (v : Connection) :
    (s.setCall fd v).toService = s.toService.setCall s.descriptors.closed.length v := by
  unfold Server.toService Server.setCall Service.setCall
  rw [recordCall_of_owner (h.owner_hand hfd)]

theorem Server.Ordered.call (h : s.Ordered) :
    s.calls s.descriptors.closed.length = s.pc.call :=
  (h.calls _ le_rfl).trans (if_pos rfl)

theorem Moves.service (h : s.Ordered) {pc : Pc} (hpc : s.pc = pc) (hm : Moves s pc s') :
    ∃ bs, service.run (.running s.toService) bs = some (.running s'.toService) := by
  have hcall := h.call
  rw [hpc] at hcall
  cases hm with
  | interrupted => exact ⟨[], rfl⟩
  | @accept fd hnone => exact ⟨[.accept fd], Service.run_accept hnone⟩
  | @enter fd state recvbuf =>
      have hhand : s.pc.hand = some fd := congrArg Pc.hand hpc
      refine ⟨[.enter fd state recvbuf], ?_⟩
      rw [toService_setCall h hhand]
      exact Service.run_enter (h.owner_hand hhand) hcall state recvbuf
  | @answer fd v v' a hv =>
      have hhand : s.pc.hand = some fd := congrArg Pc.hand hpc
      refine ⟨[.answer fd a], ?_⟩
      rw [toService_setCall h hhand]
      exact Service.run_answer (h.owner_hand hhand) hcall hv
  | @close fd v r hr =>
      have hhand : s.pc.hand = some fd := congrArg Pc.hand hpc
      exact ⟨[.close fd], Service.run_close (h.owner_hand hhand) hcall hr⟩

theorem sequential_refines_service :
    Refines sequential service (Process.map Server.toService) := by
  refine Process.refines ?_ ?_ ?_
  · rintro _ rfl
    rfl
  · intro s l s' hreach hs
    exact (moves_of_step hs).service (reachable_ordered hreach) rfl
  · intro s l _
    exact ⟨.exit, rfl⟩

/-- Connections are served one at a time, in the order in which they were accepted, and
each call has returned before its connection is closed. -/
theorem sequential_in_order (h : sequential.Reachable (.running s)) :
    s.descriptors.closed = List.range s.descriptors.closed.length ∧
      s.descriptors.fresh ≤ s.descriptors.closed.length + 1 ∧
      (∀ fd c, s.descriptors.owner fd = some c → c = s.descriptors.closed.length) ∧
      ∀ c < s.descriptors.closed.length, ∃ v r, s.calls c = some v ∧
        serveConnection.Reachable v ∧ v.result = some r := by
  have hordered := reachable_ordered h
  have hsound := Service.reachable_sound (sequential_refines_service.reachable h)
  refine ⟨hordered.closed, ?_, ?_, ?_⟩
  · rw [hordered.fresh]
    cases s.pc <;> simp [Pc.hand]
  · intro fd c howner
    rw [hordered.owner] at howner
    obtain ⟨-, hc⟩ := Option.ite_none_right_eq_some.mp howner
    exact (Option.some.inj hc).symm
  · intro c hc
    have hmem : c ∈ s.descriptors.closed := by
      rw [hordered.closed]
      exact List.mem_range.mpr hc
    rcases hsound.closed c hmem with ⟨hrefused, -⟩ | ⟨v, r, hcall, hr⟩
    · exact absurd hrefused List.not_mem_nil
    · exact ⟨v, r, hcall, hsound.genuine c v hcall, hr⟩

/-- A peer that sends nothing and leaves, and then the next one behind the same number. -/
def silentPeer : List Label :=
  [.accept (.ok 5), .enter .waitForMsg (.replicate _ 0), .answer (.send (.ok 1)),
    .answer (.recv (.ok [])), .close, .accept (.error .eintr), .accept (.ok 5)]

theorem sequential_in_order_silentPeer :
    ∃ s, sequential.run (.running ⟨.accept, .empty, fun _ => none⟩) silentPeer =
        some (.running s) ∧
      s.descriptors.closed = [0] ∧ s.descriptors.owner 5 = some 1 ∧
      ∃ v r, s.calls 0 = some v ∧ serveConnection.Reachable v ∧ v.result = some r := by
  refine ⟨_, rfl, rfl, rfl, ?_⟩
  have hreach := Machine.reachable_of_run (M := sequential) silentPeer ⟨_, rfl, rfl⟩ rfl
  exact (sequential_in_order hreach).2.2.2 0 Nat.one_pos

end ConcurrentServers.Sequential

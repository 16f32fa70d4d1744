import ConcurrentServers.Threaded.Safety

/-!
# The threaded server serves every connection once

Each step of `main` or of a thread is a step of the service in `Protocol.Service`
or does not show there. In every interleaving a connection is therefore closed
after the one call of `serve_connection` on it has returned, or without any call
if `pthread_create` failed for it.
-/

namespace ConcurrentServers.Threaded

open Systems Protocol

def Server.toService (s : Server) : Service := ⟨s.descriptors, s.calls, s.refused⟩

variable {s s' : Server}

theorem toService_setCall {t fd c : ℕ} (howner : s.descriptors.owner fd = some c)
    (v : Connection) : (s.setCall t fd v).toService = s.toService.setCall c v := by
  unfold Server.toService Server.setCall Server.setThread Service.setCall
  rw [recordCall_of_owner howner]

theorem Server.Custody.thread (h : s.Custody) {t fd : ℕ} {pc : ThreadPc}
    (hpc : s.threads t = some pc) (hfd : pc.fd s.heap = some fd) :
    ∃ c, s.descriptors.owner fd = some c ∧ s.calls c = pc.call := by
  have hheld : s.fd (some t) = some fd := (fd_thread hpc).trans hfd
  obtain ⟨c, howner⟩ := h.exists_owner hheld
  exact ⟨c, howner, (h.made hheld howner).trans (call_thread hpc)⟩

theorem Moves.service (hm : Moves s s') (h : s.Custody) :
    ∃ bs, service.run (.running s.toService) bs = some (.running s'.toService) := by
  cases hm with
  | @accept fd hpc hnone => exact ⟨[.accept fd], Service.run_accept hnone⟩
  | @drop fd hpc =>
      have hheld : s.fd none = some fd := congrArg MainPc.fd hpc
      obtain ⟨c, howner⟩ := h.exists_owner hheld
      refine ⟨[.refuse fd], ?_⟩
      rw [howner]
      exact Service.run_refuse howner (h.made hheld howner)
  | @enter t fd state recvbuf hpc =>
      obtain ⟨c, howner, hcall⟩ := h.thread hpc rfl
      refine ⟨[.enter fd state recvbuf], ?_⟩
      rw [toService_setCall howner]
      exact Service.run_enter howner hcall state recvbuf
  | @answer t fd v v' a hpc hv =>
      obtain ⟨c, howner, hcall⟩ := h.thread hpc rfl
      refine ⟨[.answer fd a], ?_⟩
      rw [toService_setCall howner]
      exact Service.run_answer howner hcall hv
  | @close t fd v r hpc hr =>
      obtain ⟨c, howner, hcall⟩ := h.thread hpc rfl
      exact ⟨[.close fd], Service.run_close howner hcall hr⟩
  | _ => exact ⟨[], rfl⟩

theorem threaded_refines_service : Refines threaded service (Process.map Server.toService) := by
  refine Process.refines ?_ ?_ ?_
  · rintro _ rfl
    rfl
  · intro s l s' hreach hs
    exact (moves_of_step hs).service (reachable_safe hreach).custody
  · intro s l _
    exact ⟨.exit, rfl⟩

end ConcurrentServers.Threaded

import ConcurrentServers.Echo
import ConcurrentServers.Uring.Contract

/-!
# The completion loop refines the echo service

The kernel accepts, receives and sends when it completes an operation, and the
server closes when it handles one. Each of these is a step of the service. What a
handler may do besides is to queue an operation, which can end the process only
if the kernel takes no entry from a full ring.
-/

namespace ConcurrentServers.Uring

open Systems

variable {cfg : Config} {s s' t : Server} {k k₁ k₂ fd : ℕ}

/-! ## What a handler changes -/

/-- The streams are the kernel's, and the ring is not filled beyond its size. -/
structure Kept (cfg : Config) (s s' : Server) : Prop where
  descriptors : s'.descriptors = s.descriptors
  delivered : s'.delivered = s.delivered
  sent : s'.sent = s.sent
  fits : s.sq.length ≤ cfg.queueDepth → s'.sq.length ≤ cfg.queueDepth

/-- The same, but that one descriptor may have been closed. -/
structure Handled (cfg : Config) (fd : ℕ) (s s' : Server) : Prop where
  descriptors : s'.descriptors = s.descriptors ∨ s'.descriptors = s.descriptors.close fd
  delivered : s'.delivered = s.delivered
  sent : s'.sent = s.sent
  fits : s.sq.length ≤ cfg.queueDepth → s'.sq.length ≤ cfg.queueDepth

theorem Kept.handled (h : Kept cfg s s') (fd : ℕ) : Handled cfg fd s s' :=
  ⟨Or.inl h.descriptors, h.delivered, h.sent, h.fits⟩

theorem Kept.trans (h : Kept cfg s t) (h' : Handled cfg fd t s') : Handled cfg fd s s' := by
  refine ⟨?_, h'.delivered.trans h.delivered, h'.sent.trans h.sent, fun hs => h'.fits (h.fits hs)⟩
  rw [← h.descriptors]
  exact h'.descriptors

/-- An entry goes to a slot that was free. -/
theorem kept_push (hs : getSqe cfg k s = .running t) (e : Sqe) : Kept cfg s (t.push e) := by
  have hroom : t.sq.length < cfg.queueDepth := by
    unfold getSqe at hs
    split at hs
    · next hlt =>
        cases hs
        exact hlt
    · split at hs
      · next hlt =>
          cases hs
          exact hlt
      · cases hs
  obtain ⟨k', rfl⟩ := getSqe_running hs
  refine ⟨rfl, rfl, rfl, fun _ => ?_⟩
  change ((s.submit k').sq ++ [e]).length ≤ _
  rw [List.length_append]
  exact hroom

theorem queueAccept_kept (hs : queueAccept cfg k s = .running s') : Kept cfg s s' := by
  obtain ⟨t, ht, hs⟩ := Process.andThen_eq_running hs
  cases hs
  exact kept_push ht _

theorem queueRecv_kept (hs : queueRecv cfg k fd s = .running s') : Kept cfg s s' := by
  obtain ⟨t, ht, hs⟩ := Process.andThen_eq_running hs
  cases hs
  exact kept_push ht _

theorem queueSend_kept (hs : queueSend cfg k fd s = .running s') : Kept cfg s s' := by
  unfold queueSend at hs
  split at hs
  · exact queueRecv_kept hs
  · obtain ⟨t, ht, hs⟩ := Process.andThen_eq_running hs
    cases hs
    obtain ⟨hdescriptors, hdelivered, hsent, hfits⟩ := kept_push ht (sendSqe s fd)
    exact ⟨hdescriptors, hdelivered, hsent, hfits⟩

theorem armNext_handled {v : PeerTable × FdStatus} (hs : armNext cfg k fd v s = .running s') :
    Handled cfg fd s s' := by
  have htable : Kept cfg s { s with table := v.1 } := ⟨rfl, rfl, rfl, id⟩
  apply htable.trans
  unfold armNext at hs
  dsimp only at hs
  split at hs
  · cases hs
    exact ⟨Or.inr rfl, rfl, rfl, id⟩
  · split at hs
    · exact (queueSend_kept hs).handled fd
    · exact (queueRecv_kept hs).handled fd

theorem handleRecv_handled {res : SysResult ℕ} (hs : handleRecv cfg k fd res s = .running s') :
    Handled cfg fd s s' := by
  unfold handleRecv at hs
  split at hs
  · split at hs
    · exact (queueRecv_kept hs).handled fd
    · exact armNext_handled hs
  · exact armNext_handled hs
  · exact armNext_handled hs

theorem handleSend_handled {res : SysResult ℕ} (hs : handleSend cfg k fd res s = .running s') :
    Handled cfg fd s s' := by
  unfold handleSend at hs
  split at hs
  · split at hs
    · exact (queueSend_kept hs).handled fd
    · exact armNext_handled hs
  · exact armNext_handled hs

/-- The descriptor that a completion is about. -/
def Cqe.about (c : Cqe) : ℕ :=
  match unpackOp c.sqe.userData, c.res with
  | some .opAccept, .ok fd => fd
  | _, _ => unpackFd c.sqe.userData

theorem handle_handled {c : Cqe} (hs : handle cfg k₁ k₂ c s = .running s') :
    Handled cfg c.about s s' := by
  unfold handle at hs
  dsimp only at hs
  cases hop : unpackOp c.sqe.userData with
  | none =>
      simp only [hop] at hs
      cases hs
      exact ⟨Or.inl rfl, rfl, rfl, id⟩
  | some op =>
      cases op with
      | opAccept =>
          simp only [hop, handleAccept] at hs
          obtain ⟨t, ht, hs⟩ := Process.andThen_eq_running hs
          apply (queueAccept_kept ht).trans
          cases hres : c.res with
          | error e =>
              simp only [hres] at hs
              cases hs
              exact ⟨Or.inl rfl, rfl, rfl, id⟩
          | ok fd =>
              simp only [hres] at hs
              have habout : c.about = fd := by simp only [Cqe.about, hop, hres]
              rw [habout]
              split at hs
              · cases hs
                exact ⟨Or.inr rfl, rfl, rfl, id⟩
              · exact armNext_handled hs
      | opRecv =>
          simp only [hop] at hs
          have habout : c.about = unpackFd c.sqe.userData := by simp only [Cqe.about, hop]
          rw [habout]
          exact handleRecv_handled hs
      | opSend =>
          simp only [hop] at hs
          have habout : c.about = unpackFd c.sqe.userData := by simp only [Cqe.about, hop]
          rw [habout]
          exact handleSend_handled hs

/-! ## The echo service -/

def Server.toEcho (s : Server) : Echo := ⟨s.descriptors, ⟨s.delivered, s.sent⟩⟩

theorem Handled.echo (h : Handled cfg fd s s') :
    ∃ bs, echo.run (.running s.toEcho) bs = some (.running s'.toEcho) := by
  have hecho : s'.toEcho = { s.toEcho with descriptors := s'.descriptors } := by
    unfold Server.toEcho
    rw [h.delivered, h.sent]
  rw [hecho]
  rcases h.descriptors with hsame | hclose
  · exact ⟨[], by rw [hsame]; rfl⟩
  · rw [hclose]
    exact Echo.exists_run_close s.toEcho fd

theorem echo_of_complete (h : Sound cfg none s) {i : ℕ} {e : Sqe} (he : s.inflight[i]? = some e)
    {c : Completion}
    (hs : complete cfg { s with inflight := s.inflight.eraseIdx i } e c = some s')
    (hsound : Sound cfg none s') :
    ∃ bs, echo.run (.running s.toEcho) bs = some (.running s'.toEcho) := by
  have hmem : e ∈ s.inflight := List.mem_of_getElem? he
  have hring : e ∈ s.sq ++ s.inflight := List.mem_append_right _ hmem
  have hout : e ∈ s.outstanding := List.mem_append_left _ hring
  cases c with
  | accept r =>
      cases r with
      | error x =>
          cases hs
          exact ⟨[], rfl⟩
      | ok fd =>
          obtain ⟨⟨-, hnone, -⟩, hs⟩ := Option.ite_none_right_eq_some.mp hs
          cases hs
          exact ⟨[.accept fd], Echo.run_accept hnone⟩
  | recv r =>
      cases r with
      | error x =>
          cases hs
          exact ⟨[], rfl⟩
      | ok data =>
          obtain ⟨⟨hop, -⟩, hs⟩ := Option.ite_none_right_eq_some.mp hs
          cases hs
          obtain ⟨c, howner, hconn, -, -⟩ := h.transfer hout (by simp [hop])
          have hanswered : s.toEcho.Answered c := h.sent_eq hring hop hconn
          refine ⟨[.deliver e.fd data], ?_⟩
          unfold Server.toEcho
          rw [hconn]
          exact Echo.run_deliver (s := s.toEcho) howner hanswered data
  | send r =>
      cases r with
      | error x =>
          cases hs
          exact ⟨[], rfl⟩
      | ok n =>
          obtain ⟨⟨hop, -⟩, hs⟩ := Option.ite_none_right_eq_some.mp hs
          cases hs
          obtain ⟨c, howner, hconn, -, -⟩ := h.transfer hout (by simp [hop])
          have hdue := Sound.sent_prefix hsound c
          simp only [hconn, record, Function.update_self] at hdue
          refine ⟨[.send e.fd (Buffer.slice (s.iobufs e.fd) 0 n)], ?_⟩
          unfold Server.toEcho
          rw [hconn]
          exact Echo.run_send howner hdue

theorem echo_of_step {l : Label} (h : Sound cfg none s)
    (hs : s.step cfg l = some (.running s')) :
    ∃ bs, echo.run (.running s.toEcho) bs = some (.running s'.toEcho) := by
  have hsound := h.step hs
  cases l with
  | submit k =>
      obtain ⟨-, hs⟩ := Option.ite_none_right_eq_some.mp hs
      cases hs
      exact ⟨[], rfl⟩
  | wait r =>
      obtain ⟨-, hs⟩ := Option.ite_none_right_eq_some.mp hs
      cases r with
      | ok _ =>
          obtain ⟨-, hs⟩ := Option.ite_none_left_eq_some.mp hs
          cases hs
          exact ⟨[], rfl⟩
      | error e =>
          dsimp only at hs
          split at hs
          · cases hs
            exact ⟨[], rfl⟩
          · cases hs
  | post i c =>
      simp only [Server.step] at hs
      split at hs
      · next e he =>
          obtain ⟨t, ht, heq⟩ := Option.map_eq_some_iff.mp hs
          cases heq
          exact echo_of_complete h he ht hsound
      · cases hs
  | handle k₁ k₂ =>
      obtain ⟨-, hs⟩ := Option.ite_none_right_eq_some.mp hs
      cases hcq : s.cq with
      | nil =>
          rw [hcq] at hs
          cases hs
      | cons c cq =>
          rw [hcq] at hs
          exact Handled.echo (s := { s with cq := cq }) (handle_handled (Option.some.inj hs))
  | advance =>
      obtain ⟨-, hs⟩ := Option.ite_none_right_eq_some.mp hs
      cases hs
      exact ⟨[], rfl⟩

theorem uring_refines_echo (cfg : Config) :
    Refines (server cfg) echo (Process.map Server.toEcho) := by
  refine Process.refines ?_ ?_ ?_
  · rintro _ rfl
    rfl
  · intro s l s' hreach hs
    exact echo_of_step (reachable_sound hreach) hs
  · intro s l _
    exact ⟨.exit, rfl⟩

end ConcurrentServers.Uring

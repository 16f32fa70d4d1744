import ConcurrentServers.Library.Http
import ConcurrentServers.Metrics.Length
import ConcurrentServers.MetricsServer.Serve
import ConcurrentServers.Protocol.Stream

/-!
# The response of `send_metrics`

The text of the metrics fits into `body` and the head into `head`, whatever the
counters and the label are. What `write_all` puts on the wire is followed from
the head to the body, and read by a client as one response.
-/

namespace ConcurrentServers.MetricsServer

open Systems
open Systems.Text (ascii decimal)
open Protocol (SendAll)
open Metrics (Registry metricsRender exposition length_exposition_le)

/-! ## The head -/

theorem length_headText (status contentType : List UInt8) (n : ℕ) :
    (headText status contentType n).length =
      9 + status.length + 16 + contentType.length + 18 + (decimal n).length + 23 := by
  simp only [headText, List.length_append]
  rfl

theorem length_metricsHead {n : ℕ} (h : n < bodyMax) :
    0 < (metricsHead n).length ∧ (metricsHead n).length < headSize := by
  have hstatus : (ascii "200 OK").length = 6 := rfl
  have htype : (ascii "text/plain; version=0.0.4; charset=utf-8").length = 40 := rfl
  have hdecimal : (decimal n).length ≤ 5 :=
    Text.length_decimal_le (by decide) (h.trans (by decide))
  rw [metricsHead, length_headText, hstatus, htype, headSize]
  omega

/-- What a client reads. -/
def response (status contentType body : List UInt8) : Http.Response where
  status := status
  fields :=
    [⟨ascii "Content-Type", contentType⟩, ⟨ascii "Content-Length", decimal body.length⟩,
      ⟨ascii "Connection", ascii "close"⟩]
  body := body

theorem headText_append (status contentType body : List UInt8) :
    headText status contentType body.length ++ body = (response status contentType body).text := by
  have htype : ascii "\r\nContent-Type: " =
      [Http.cr, Http.lf] ++ ascii "Content-Type" ++ [Http.colon, Http.space] := by decide
  have hlength : ascii "\r\nContent-Length: " =
      [Http.cr, Http.lf] ++ ascii "Content-Length" ++ [Http.colon, Http.space] := by decide
  have hend : ascii "\r\nConnection: close\r\n\r\n" =
      [Http.cr, Http.lf] ++ ascii "Connection" ++ [Http.colon, Http.space] ++ ascii "close" ++
        [Http.cr, Http.lf] ++ [Http.cr, Http.lf] := by decide
  simp only [headText, htype, hlength, hend, response, Http.Response.text, Http.version, Http.line,
    Http.Field.text, List.flatMap_cons, List.flatMap_nil, List.append_assoc, List.nil_append]

theorem lf_notMem_decimal (n : ℕ) : Http.lf ∉ decimal n :=
  fun hmem => absurd (Text.isDigit_of_mem_decimal hmem) (by decide)

theorem parse_headText {status contentType : List UInt8} (hstatus : Http.lf ∉ status)
    (htype : Http.lf ∉ contentType) (body : List UInt8) :
    Http.parse (headText status contentType body.length ++ body) =
      some (response status contentType body) := by
  rw [headText_append]
  refine Http.parse_text ⟨hstatus, ?_⟩
  have hname : ∀ name ∈ [ascii "Content-Type", ascii "Content-Length", ascii "Connection"],
      Http.colon ∉ name ∧ Http.lf ∉ name := by decide
  simp only [List.forall_mem_cons] at hname
  obtain ⟨htypeName, hlengthName, hconnection, -⟩ := hname
  simp only [response, List.forall_mem_cons]
  exact ⟨⟨htypeName.1, htypeName.2, htype⟩, ⟨hlengthName.1, hlengthName.2, lf_notMem_decimal _⟩,
    ⟨hconnection.1, hconnection.2, by decide⟩, by simp⟩

theorem contentLength_response (status contentType body : List UInt8) :
    (response status contentType body).contentLength = some body.length := by
  have htype : (ascii "Content-Type" = ascii "Content-Length") = False := eq_false (by decide)
  simp only [Http.Response.contentLength, response, List.find?_cons, htype, decide_false,
    decide_true, Option.bind_some]
  exact Text.parseNat_decimal _

/-- The only response of `send_status` that `serve` sends. -/
def notFoundResponse : Http.Response :=
  response (ascii "404 Not Found") (ascii "text/plain; charset=utf-8") (ascii "not found\n")

def metricsResponse (g : Registry) : Http.Response :=
  response (ascii "200 OK") (ascii "text/plain; version=0.0.4; charset=utf-8") (exposition g)

/-! ## The call -/

/-- The text fits, so the branch for a buffer that is too small is not taken. -/
theorem sendMetrics_eq (s : Serve) (g : Registry) (body : List.Vector UInt8 bodyMax) :
    s.sendMetrics g body =
      { s with
        reply := some .metrics
        control := .sendHead ⟨metricsHead (exposition g).length, 0⟩ (exposition g) } := by
  have hlt : (exposition g).length < bodyMax := (length_exposition_le g).trans_lt (by decide)
  obtain ⟨buf, hrender, hslice⟩ := Metrics.metricsRender_full g body hlt
  simp only [Serve.sendMetrics, hrender, if_neg (Nat.not_le.mpr hlt), Option.getD_some, hslice,
    Serve.respond, if_pos (length_metricsHead hlt)]

/-! ## What is put on the wire -/

/-- The response `total` is being written. `P` holds of what was accepted when the
function returns. -/
def Responding (total : List UInt8) (P : List UInt8 → Prop) (accepted : List UInt8) :
    Control → Prop
  | .sendHead k body => ∃ head, k.Owes accepted head ∧ head ++ body = total
  | .sendBody k => k.Owes accepted total
  | .returned => P accepted
  | _ => False

theorem writeFails_of_round {k : SendAll} {r : SysResult ℕ} {e : Errno}
    (h : k.round r = .failed e) : WriteFails (.send r) := by
  cases r with
  | error e' =>
      refine ⟨e', rfl, ?_⟩
      rintro rfl
      cases h
  | ok n =>
      simp only [SendAll.round] at h
      split at h <;> cases h

theorem responding_startBody {total head body : List UInt8} {P : List UInt8 → Prop}
    (hP : P total) (htotal : head ++ body = total) :
    Responding total P head (Serve.startBody body) := by
  unfold Serve.startBody
  split
  · next hpos => exact ⟨hpos, htotal⟩
  · next hzero =>
      have hnil : body = [] := List.length_eq_zero_iff.mp (Nat.eq_zero_of_not_pos hzero)
      rw [hnil, List.append_nil] at htotal
      exact htotal ▸ hP

/-- One step of a response. -/
theorem Responding.step {total : List UInt8} {P : List UInt8 → Prop} {s t : Serve} {a : Event}
    (h : Responding total P s.accepted s.control) (hP : P total)
    (hfail : WriteFails a → ∀ accepted, accepted <+: total → P accepted)
    (hstep : s.step a = some t) : Responding total P t.accepted t.control := by
  have hmove := moves_of_step hstep
  generalize s.control = c at h hmove
  cases hmove with
  | read => exact h.elim
  | render => exact h.elim
  | head hwritten =>
      obtain ⟨head, howes, htotal⟩ := h
      cases hwritten with
      | again hallow hk => exact ⟨head, howes.again hallow hk, htotal⟩
      | done hallow hk => exact responding_startBody hP (howes.done hallow hk ▸ htotal)
      | failed hallow hk =>
          refine hfail (writeFails_of_round hk) _ ((howes.failed hallow hk).trans ?_)
          exact ⟨_, htotal⟩
  | body hwritten =>
      cases hwritten with
      | again hallow hk => exact SendAll.Owes.again h hallow hk
      | done hallow hk => exact SendAll.Owes.done h hallow hk ▸ hP
      | failed hallow hk =>
          exact hfail (writeFails_of_round hk) _ (SendAll.Owes.failed h hallow hk)

theorem Responding.isPrefix {total : List UInt8} {P : List UInt8 → Prop} {s : Serve}
    (h : Responding total P s.accepted s.control)
    (hP : ∀ accepted, P accepted → accepted <+: total) : s.accepted <+: total := by
  generalize s.control = c at h
  cases c with
  | sendHead k body =>
      obtain ⟨head, howes, htotal⟩ := h
      exact ⟨k.buf.drop k.sent ++ body, by rw [← List.append_assoc, howes.split, htotal]⟩
  | sendBody k => exact ⟨_, SendAll.Owes.split h⟩
  | returned => exact hP _ h
  | reading => exact h.elim
  | rendering => exact h.elim

theorem Responding.run {total : List UInt8} {P : List UInt8 → Prop} {s t : Serve}
    {as : List Event} (h : Responding total P s.accepted s.control) (hP : P total)
    (hfail : ∀ a ∈ as, WriteFails a → ∀ accepted, accepted <+: total → P accepted)
    (hrun : serve.run s as = some t) : Responding total P t.accepted t.control :=
  Machine.run_invariant_of_mem (P := fun s => Responding total P s.accepted s.control)
    (fun a ha _ _ hs hstep => hs.step hP (hfail a ha) hstep) h hrun

/-- What `write_all` has sent when the call returns behind the events `as`. -/
def Part (as : List Event) (total accepted : List UInt8) : Prop :=
  accepted <+: total ∧ ((∀ a ∈ as, ¬WriteFails a) → accepted = total)

theorem part_refl (as : List Event) (total : List UInt8) : Part as total total :=
  ⟨List.prefix_refl _, fun _ => rfl⟩

theorem part_of_writeFails {as : List Event} {a : Event} (ha : a ∈ as) (hfails : WriteFails a)
    {total accepted : List UInt8} (h : accepted <+: total) : Part as total accepted :=
  ⟨h, fun hwrites => absurd hfails (hwrites a ha)⟩

/-- What a call has put on the wire is a part of `r`, and all of `r` when it has returned
without a failed write. A client that reads all of it reads `r`. -/
structure Answers (as : List Event) (s : Serve) (r : Http.Response) : Prop where
  parse : Http.parse r.text = some r
  contentLength : r.contentLength = some r.body.length
  isPrefix : s.accepted <+: r.text
  whole : s.control = .returned → (∀ a ∈ as, ¬WriteFails a) → s.accepted = r.text

theorem Responding.whole {total : List UInt8} {as : List Event} {s : Serve}
    (h : Responding total (Part as total) s.accepted s.control) (hc : s.control = .returned)
    (hwrites : ∀ a ∈ as, ¬WriteFails a) : s.accepted = total := by
  rw [hc] at h
  exact h.2 hwrites

theorem Responding.answers {as : List Event} {s : Serve} {status contentType body : List UInt8}
    (h : Responding (response status contentType body).text
      (Part as (response status contentType body).text) s.accepted s.control)
    (hstatus : Http.lf ∉ status) (htype : Http.lf ∉ contentType) :
    Answers as s (response status contentType body) where
  parse := headText_append status contentType body ▸ parse_headText hstatus htype body
  contentLength := contentLength_response _ _ _
  isPrefix := h.isPrefix fun _ hpart => hpart.1
  whole := h.whole

/-! ## Nothing is sent before a response is chosen -/

def Quiet (reply : Option Reply) (accepted : List UInt8) : Control → Prop
  | .reading => reply = none ∧ accepted = []
  | .rendering => reply = none ∧ accepted = []
  | .returned => reply = none → accepted = []
  | _ => reply ≠ none

theorem Quiet.accepted_eq {reply : Option Reply} {accepted : List UInt8} {c : Control}
    (h : Quiet reply accepted c) (hreply : reply = none) : accepted = [] := by
  cases c with
  | reading => exact h.2
  | rendering => exact h.2
  | sendHead k body => exact absurd hreply h
  | sendBody k => exact absurd hreply h
  | returned => exact h hreply

/-- In a response, or behind it. -/
def Control.Responds : Control → Prop
  | .reading => False
  | .rendering => False
  | _ => True

theorem responds_startBody (body : List UInt8) : (Serve.startBody body).Responds := by
  unfold Serve.startBody
  split <;> trivial

theorem Control.Responds.quiet {c : Control} (h : c.Responds) {reply : Option Reply}
    (hreply : reply ≠ none) (accepted : List UInt8) : Quiet reply accepted c := by
  cases c with
  | reading => exact h.elim
  | rendering => exact h.elim
  | sendHead k body => exact hreply
  | sendBody k => exact hreply
  | returned => exact fun hnone => (hreply hnone).elim

theorem responds_respond (s : Serve) (reply : Reply) (head body : List UInt8) :
    (s.respond reply head body).control.Responds := by
  unfold Serve.respond
  dsimp only
  split <;> trivial

/-- Behind a round of `read_request`. -/
theorem quiet_resumeRead {s : Serve} (hreply : s.reply = none) (haccepted : s.accepted = [])
    (n : ReadRequest.Next requestMax) :
    Quiet (s.resumeRead n).reply (s.resumeRead n).accepted (s.resumeRead n).control := by
  cases n with
  | again c => exact ⟨hreply, haccepted⟩
  | failed c => exact fun _ => haccepted
  | done c =>
      simp only [Serve.resumeRead, Serve.route]
      split
      · exact ⟨hreply, haccepted⟩
      · exact (responds_respond _ _ _ _).quiet (by simp [Serve.sendStatus, Serve.respond]) _

/-- A round of `write_all` stays in the response and keeps the choice. -/
theorem Written.responds {s t : Serve} {k : SendAll} {r : SysResult ℕ}
    {again : SendAll → Control} {done : Control} (h : Written s k r again done t)
    (hagain : ∀ k', (again k').Responds) (hdone : done.Responds) :
    t.control.Responds ∧ t.reply = s.reply ∧ t.request = s.request := by
  cases h with
  | again => exact ⟨hagain _, rfl, rfl⟩
  | done => exact ⟨hdone, rfl, rfl⟩
  | failed => exact ⟨trivial, rfl, rfl⟩

/-- So does every step that sends. -/
theorem responds_of_send {s t : Serve} {r : SysResult ℕ} (hstep : s.step (.send r) = some t) :
    t.control.Responds ∧ t.reply = s.reply ∧ t.request = s.request := by
  have hmove := moves_of_step hstep
  generalize s.control = c at hmove
  cases hmove with
  | head hwritten => exact hwritten.responds (fun _ => trivial) (responds_startBody _)
  | body hwritten => exact hwritten.responds (fun _ => trivial) trivial

theorem Quiet.step {s t : Serve} {a : Event} (h : Quiet s.reply s.accepted s.control)
    (hstep : s.step a = some t) : Quiet t.reply t.accepted t.control := by
  have hmove := moves_of_step hstep
  generalize s.control = c at h hmove
  cases hmove with
  | read => exact quiet_resumeRead h.1 h.2 _
  | render =>
      rw [sendMetrics_eq]
      exact Option.some_ne_none _
  | head | body =>
      obtain ⟨hresponds, hreply, -⟩ := responds_of_send hstep
      exact hresponds.quiet (hreply ▸ h) _

theorem quiet_entry (buf : List.Vector UInt8 requestMax) (stream : List UInt8) :
    Quiet (Serve.entry buf stream).reply (Serve.entry buf stream).accepted
      (Serve.entry buf stream).control :=
  quiet_resumeRead rfl rfl _

theorem reachable_quiet {s : Serve} (h : serve.Reachable s) :
    Quiet s.reply s.accepted s.control := by
  refine Machine.Reachable.invariant (P := fun s => Quiet s.reply s.accepted s.control) ?_ ?_ h
  · rintro s ⟨buf, stream, rfl⟩
    exact quiet_entry buf stream
  · exact fun s a t _ hs hstep => hs.step hstep

/-- The state behind `metrics_render`, where nothing has been sent yet. -/
theorem responding_sendMetrics {s : Serve} (haccepted : s.accepted = []) (g : Registry)
    (body : List.Vector UInt8 bodyMax) (P : List UInt8 → Prop) :
    Responding (metricsResponse g).text P (s.sendMetrics g body).accepted
      (s.sendMetrics g body).control := by
  have hlt : (exposition g).length < bodyMax := (length_exposition_le g).trans_lt (by decide)
  rw [sendMetrics_eq]
  refine ⟨metricsHead (exposition g).length, ⟨(length_metricsHead hlt).1, ?_⟩,
    headText_append _ _ _⟩
  rw [haccepted]
  rfl

/-- The head of the other response fits as well. -/
theorem responding_sendStatus {s : Serve} (haccepted : s.accepted = []) (P : List UInt8 → Prop) :
    Responding notFoundResponse.text P
      (s.sendStatus .notFound (ascii "404 Not Found") (ascii "not found\n")).accepted
      (s.sendStatus .notFound (ascii "404 Not Found") (ascii "not found\n")).control := by
  have hfits : 0 < (statusHead (ascii "404 Not Found") (ascii "not found\n").length).length ∧
      (statusHead (ascii "404 Not Found") (ascii "not found\n").length).length < headSize := by
    decide
  rw [Serve.sendStatus, Serve.respond, if_pos hfits]
  refine ⟨statusHead (ascii "404 Not Found") (ascii "not found\n").length, ⟨hfits.1, ?_⟩,
    headText_append _ _ _⟩
  rw [haccepted]
  rfl

/-- The call of `send_metrics` in `serve`, for any registry. It does not take the branch
for a buffer that is too small. What is on the wire is always a part of one response,
and all of it when the call returns without a failed write. That response carries the
whole text and announces its length. -/
theorem send_metrics_writes_response {s : Serve} (hs : serve.Reachable s)
    (hc : s.control = .rendering) (g : Registry) (body : List.Vector UInt8 bodyMax) :
    ∃ t wire r buf, serve.step s (.render g body) = some t ∧ t.reply = some .metrics ∧
      (metricsHead r.body.length).length < headSize ∧
      Http.parse wire = some r ∧ r.status = ascii "200 OK" ∧
      r.contentLength = some r.body.length ∧ r.body = exposition g ∧
      metricsRender g (some body) = (some buf, r.body.length) ∧
      Buffer.slice buf 0 r.body.length = r.body ∧
      (∀ as u, serve.run t as = some u → u.accepted <+: wire ∧
        (u.control = .returned → (∀ a ∈ as, ¬WriteFails a) → u.accepted = wire)) ∧
      ∃ as u, serve.run t as = some u ∧ (∀ a ∈ as, ¬WriteFails a) ∧ u.control = .returned := by
  have hlt : (exposition g).length < bodyMax := (length_exposition_le g).trans_lt (by decide)
  have haccepted : s.accepted = [] := by
    have hquiet := reachable_quiet hs
    rw [hc] at hquiet
    exact hquiet.2
  have hstatus : Http.lf ∉ ascii "200 OK" := by decide
  have htype : Http.lf ∉ ascii "text/plain; version=0.0.4; charset=utf-8" := by decide
  obtain ⟨buf, hrender, hslice⟩ := Metrics.metricsRender_full g body hlt
  have hanswers : ∀ as u, serve.run (s.sendMetrics g body) as = some u →
      Answers as u (metricsResponse g) := by
    intro as u hrun
    have hresponding := (responding_sendMetrics haccepted g body (Part as _)).run
      (part_refl _ _) (fun a ha hfails _ => part_of_writeFails ha hfails) hrun
    exact hresponding.answers hstatus htype
  refine ⟨s.sendMetrics g body, (metricsResponse g).text, metricsResponse g, buf, ?_, ?_,
    (length_metricsHead hlt).2, (hanswers [] _ rfl).parse, rfl, contentLength_response _ _ _, rfl,
    hrender, hslice, ?_, ?_⟩
  · simp only [serve, Serve.step, hc]
  · rw [sendMetrics_eq]
  · exact fun as u hrun => ⟨(hanswers as u hrun).isPrefix, (hanswers as u hrun).whole⟩
  · obtain ⟨as, u, hrun, hkind, hreturned⟩ :=
      exists_run_returned (remaining_sendMetrics_le s g body).1.ready
    exact ⟨as, u, hrun, fun a ha => (hkind a ha).2, hreturned⟩

/-- A request in one piece, and a registry that was never set up. -/
theorem send_metrics_writes_response_unset :
    ∃ s t, serve.run (.entry (.replicate _ 0) (ascii "GET /metrics\n\n"))
        [.recv (.ok (ascii "GET /metrics\n\n"))] = some s ∧
      s.control = .rendering ∧
      serve.step s (.render ⟨.replicate _ 0, 0, 0, 0, 0, 0, fun _ => 0, 0⟩ (.replicate _ 0)) =
        some t ∧ t.reply = some .metrics := by
  obtain ⟨s, hrun, hc⟩ : ∃ s, serve.run (.entry (.replicate _ 0) (ascii "GET /metrics\n\n"))
      [.recv (.ok (ascii "GET /metrics\n\n"))] = some s ∧ s.control = .rendering :=
    ⟨_, rfl, rfl⟩
  have hs : serve.Reachable s := Machine.reachable_of_run _ ⟨_, _, rfl⟩ hrun
  obtain ⟨t, -, -, -, hstep, hreply, -⟩ := send_metrics_writes_response hs hc
    ⟨.replicate _ 0, 0, 0, 0, 0, 0, fun _ => 0, 0⟩ (.replicate _ 0)
  exact ⟨s, t, hrun, hc, hstep, hreply⟩

end ConcurrentServers.MetricsServer

import ConcurrentServers.MetricsServer.Response

/-!
# How `serve` chooses a response

`read_request` stops at the end of the stream, at a blank line, or when the
buffer is full. Where it stops depends on how the stream was cut into pieces, but
the first twelve bytes do not: if it has stopped before it had twelve, either
there were no more, or one of them is a line feed, which `GET /metrics` does not
contain.
-/

namespace ConcurrentServers.MetricsServer

open Systems
open Systems.Text (ascii)
open Metrics (cString Registry)

/-! ## `read_request` -/

namespace ReadRequest

variable {cap : ℕ} {c c' : ReadRequest cap} {stream : List UInt8}

/-- The buffer holds what was delivered of the stream, and all writes were inside it. -/
structure Holds (c : ReadRequest cap) (stream : List UInt8) : Prop where
  len_lt : c.len < cap
  split : Buffer.slice c.buf 0 c.len ++ c.unread = stream
  writes : ∀ i ∈ c.writes, i < cap

theorem holds_entry (hcap : 0 < cap) (buf : List.Vector UInt8 cap) (stream : List UInt8) :
    (entry buf stream).Holds stream where
  len_lt := hcap
  split := by simp [entry]
  writes := by simp [entry]

theorem Holds.terminate (h : c.Holds stream) : c.terminate.Holds stream where
  len_lt := h.len_lt
  split := by
    rw [← h.split]
    exact congrArg (· ++ c.unread) (Buffer.slice_store_of_le c.buf 0 (le_refl c.len))
  writes := by
    intro i hi
    rcases List.mem_append.mp hi with hi | hi
    · exact h.writes i hi
    · rw [List.mem_singleton.mp hi]
      exact h.len_lt

theorem Holds.receive (h : c.Holds stream) {data : List UInt8}
    (hallow : c.allows (.ok data) = true) : (c.receive data).Holds stream := by
  have hlt := h.len_lt
  simp only [allows, Bool.and_eq_true, List.isPrefixOf_iff_prefix, decide_eq_true_eq] at hallow
  obtain ⟨⟨hdata, hlength⟩, -⟩ := hallow
  refine ⟨?_, ?_, ?_⟩
  · change c.len + data.length < cap
    omega
  · have hunread : data ++ c.unread.drop data.length = c.unread := by
      obtain ⟨rest, hrest⟩ := hdata
      rw [← hrest, List.drop_left]
    change Buffer.slice (Buffer.write c.buf c.len data) 0 (c.len + data.length) ++
      c.unread.drop data.length = stream
    rw [Buffer.slice_write c.buf (by omega), List.append_assoc, hunread, h.split]
  · intro i hi
    rcases List.mem_append.mp hi with hi | hi
    · exact h.writes i hi
    · have hlast := (List.mem_range'_1.mp hi).2
      omega

/-! ## Where it stops -/

theorem mem_of_strstr {haystack needle : List UInt8} (h : strstr haystack needle = true)
    {x : UInt8} (hx : x ∈ needle) : x ∈ haystack := by
  obtain ⟨tail, htail, hprefix⟩ := List.any_eq_true.mp h
  exact ((List.mem_tails _ _).mp htail).subset ((List.isPrefixOf_iff_prefix.mp hprefix).subset hx)

/-- The string ends with what was received, or before. -/
def Terminated (c : ReadRequest cap) : Prop :=
  cString c.buf = (Buffer.slice c.buf 0 c.len).takeWhile (· ≠ 0)

theorem Holds.terminated (h : c.Holds stream) : c.terminate.Terminated := by
  have hslice : Buffer.slice c.terminate.buf 0 c.terminate.len = Buffer.slice c.buf 0 c.len :=
    Buffer.slice_store_of_le c.buf 0 (le_refl c.len)
  rw [Terminated, hslice, cString]
  change ((Buffer.store c.buf c.len 0).1).takeWhile _ = _
  rw [Buffer.store_val c.buf h.len_lt, List.takeWhile_append]
  split
  · next hall =>
      rw [List.takeWhile_cons_of_neg (by simp), List.append_nil]
      exact (List.takeWhile_prefix _).eq_of_length hall |>.symm
  · rfl

theorem lf_mem_of_complete (hterm : c.Terminated) (h : c.complete = true) :
    Http.lf ∈ Buffer.slice c.buf 0 c.len := by
  have hmem : Http.lf ∈ cString c.buf := by
    rcases Bool.or_eq_true_iff.mp h with h | h
    · exact mem_of_strstr h (by decide)
    · exact mem_of_strstr h (by decide)
  rw [hterm] at hmem
  exact (List.takeWhile_prefix _).subset hmem

/-- The call returns with a request. -/
structure Stopped (c : ReadRequest cap) : Prop where
  pos : 0 < c.len
  terminated : c.Terminated
  reason : cap ≤ c.len + 1 ∨ c.unread = [] ∨ Http.lf ∈ Buffer.slice c.buf 0 c.len

/-- What is known of a call when it goes on and when it returns. -/
def Next.Sound (stream : List UInt8) : Next cap → Prop
  | .again c => c.Holds stream ∧ c.len + 1 < cap
  | .done c => c.Holds stream ∧ c.Stopped
  | .failed c => c.Holds stream

theorem sound_entry (hcap : 0 < cap) (buf : List.Vector UInt8 cap) (stream : List UInt8) :
    (entry buf stream).loopHead.Sound stream := by
  have hentry := holds_entry hcap buf stream
  unfold loopHead
  split
  · next hroom => exact ⟨hentry, hroom⟩
  · exact hentry.terminate

theorem Holds.rounds (h : c.Holds stream) (hroom : c.len + 1 < cap)
    {r : SysResult (List UInt8)} {next : Next cap} (hallow : c.allows r = true)
    (hrounds : c.Rounds r next) : next.Sound stream := by
  cases hrounds with
  | interrupted => exact ⟨h, hroom⟩
  | error he => exact h
  | nothing hzero => exact h.terminate
  | ended hpos =>
      have hunread : c.unread = [] := by simpa [allows] using hallow
      exact ⟨h.terminate, hpos, h.terminated, Or.inr (Or.inl hunread)⟩
  | complete hdata hcomplete =>
      have hreceive := h.receive hallow
      refine ⟨hreceive.terminate, ?_, hreceive.terminated, Or.inr (Or.inr ?_)⟩
      · exact Nat.add_pos_right _ (List.length_pos_of_ne_nil hdata)
      · exact lf_mem_of_complete hreceive.terminated hcomplete
  | more hdata hmore => exact ⟨(h.receive hallow).terminate, hmore⟩
  | full hdata hfull =>
      have hreceive := (h.receive hallow).terminate
      refine ⟨hreceive.terminate, ?_, hreceive.terminated, Or.inl hfull⟩
      exact Nat.add_pos_right _ (List.length_pos_of_ne_nil hdata)

/-- A call that fails without an error of `recv` has received nothing. -/
theorem Rounds.failed {r : SysResult (List UInt8)} (h : c.Rounds r (.failed c'))
    (hallow : c.allows r = true) (hr : ∀ e, r = .error e → e = .eintr) :
    c'.len = 0 ∧ c'.unread = [] := by
  cases h with
  | error he => exact absurd (hr _ rfl) he
  | nothing hzero =>
      have hunread : c.unread = [] := by simpa [allows] using hallow
      exact ⟨hzero, hunread⟩

theorem Next.Sound.writes {n : Next cap} (h : n.Sound stream) :
    ∀ i ∈ n.call.writes, i < cap := by
  cases n with
  | again c => exact h.1.writes
  | done c => exact h.1.writes
  | failed c => exact Holds.writes h

theorem reachable_sound (hcap : 0 < cap) {n : Next cap} (h : (readRequest cap).Reachable n) :
    ∃ stream, n.Sound stream := by
  refine Machine.Reachable.invariant (P := fun n => ∃ stream, n.Sound stream) ?_ ?_ h
  · rintro n ⟨buf, stream, rfl⟩
    exact ⟨stream, sound_entry hcap buf stream⟩
  · rintro n r n' - ⟨stream, hn⟩ hstep
    cases n with
    | again c =>
        obtain ⟨hallow, hround⟩ := Option.ite_none_right_eq_some.mp hstep
        cases hround
        exact ⟨stream, hn.1.rounds hn.2 hallow (rounds_round hn.2 r)⟩
    | done c => cases hstep
    | failed c => cases hstep

end ReadRequest

/-! ## The choice -/

theorem take_twelve_eq_iff (xs : List UInt8) : xs.take 12 = getMetrics ↔ getMetrics <+: xs := by
  have hlength : getMetrics.length = 12 := rfl
  rw [List.prefix_iff_eq_take, hlength, eq_comm]

/-- The response that a stream asks for. -/
def requested (stream : List UInt8) : Option Reply :=
  if stream = [] then none
  else if stream.take 12 = getMetrics then some .metrics
  else some .notFound

/-- NULs in the buffer do not matter, since there is none in the text that is looked
for. -/
theorem strncmpEq_iff (xs : List UInt8) :
    strncmpEq (xs.takeWhile (· ≠ 0)) getMetrics 12 = true ↔ getMetrics <+: xs := by
  have hall : ∀ x ∈ getMetrics, decide (x ≠ 0) = true := List.all_eq_true.mp (by decide)
  have htake : getMetrics.take 12 = getMetrics := rfl
  rw [strncmpEq, htake, beq_iff_eq, take_twelve_eq_iff]
  constructor
  · exact fun h => h.trans (List.takeWhile_prefix _)
  · rintro ⟨rest, rfl⟩
    rw [List.takeWhile_append_of_pos hall]
    exact List.prefix_append _ _

/-- Where the call has stopped, it has seen enough of the stream. -/
theorem ReadRequest.Stopped.prefix_iff {c : ReadRequest requestMax} {stream : List UInt8}
    (h : c.Stopped) (hc : c.Holds stream) :
    getMetrics <+: Buffer.slice c.buf 0 c.len ↔ getMetrics <+: stream := by
  have hprefix : Buffer.slice c.buf 0 c.len <+: stream := ⟨_, hc.split⟩
  have hlength : (Buffer.slice c.buf 0 c.len).length = c.len := by
    rw [Buffer.length_slice c.buf hc.len_lt.le, Nat.sub_zero]
  have htwelve : getMetrics.length = 12 := rfl
  refine ⟨fun hmatch => hmatch.trans hprefix, fun hmatch => ?_⟩
  rcases Nat.lt_or_ge c.len 12 with hshort | hlong
  · rcases h.reason with hfull | hunread | hlf
    · have hmax : requestMax = 2048 := rfl
      omega
    · have hsplit := hc.split
      rw [hunread, List.append_nil] at hsplit
      rwa [hsplit]
    · -- A line feed among the first twelve bytes would be one of the text.
      have hpart := List.prefix_of_prefix_length_le hprefix hmatch (by omega)
      exact absurd (hpart.subset hlf) (by decide)
  · exact List.prefix_of_prefix_length_le hmatch hprefix (by omega)

/-- `serve` at each control point, when `recv` has not failed. -/
def Decides (stream : List UInt8) (reply : Option Reply) : Control → Prop
  | .reading => reply = none
  | .rendering => requested stream = some .metrics
  | _ => reply = requested stream

theorem Control.Responds.decides {c : Control} (h : c.Responds) {stream : List UInt8}
    {reply : Option Reply} (hreply : reply = requested stream) : Decides stream reply c := by
  cases c with
  | reading => exact h.elim
  | rendering => exact h.elim
  | sendHead k body => exact hreply
  | sendBody k => exact hreply
  | returned => exact hreply

theorem requested_of_holds {c : ReadRequest requestMax} {stream : List UInt8}
    (h : c.Stopped) (hc : c.Holds stream) :
    requested stream =
      if strncmpEq (cString c.buf) getMetrics 12 then some .metrics else some .notFound := by
  have hne : stream ≠ [] := by
    rintro rfl
    have hlength := congrArg List.length hc.split
    rw [List.length_append, Buffer.length_slice c.buf hc.len_lt.le, List.length_nil] at hlength
    have hpos := h.pos
    omega
  have hiff : strncmpEq (cString c.buf) getMetrics 12 = true ↔ stream.take 12 = getMetrics := by
    rw [h.terminated, strncmpEq_iff, h.prefix_iff hc, take_twelve_eq_iff]
  unfold requested
  rw [if_neg hne]
  simp only [hiff]

/-! ## Runs of `serve` -/

/-- The buffer of `serve`, in every run. -/
structure Follows (stream : List UInt8) (s : Serve) : Prop where
  holds : s.request.Holds stream
  ready : s.Ready

variable {stream : List UInt8} {s t : Serve} {a : Event}

theorem request_route (s : Serve) : s.route.request = s.request := by
  unfold Serve.route
  split <;> rfl

theorem follows_resumeRead (s : Serve) {n : ReadRequest.Next requestMax} (hn : n.Sound stream) :
    Follows stream (s.resumeRead n) := by
  cases n with
  | again c => exact ⟨hn.1, fun _ => hn.2⟩
  | done c =>
      refine ⟨?_, (past_route _).ready⟩
      change (Serve.route _).request.Holds stream
      rw [request_route]
      exact hn.1
  | failed c => exact ⟨hn, (past_failed s c).ready⟩

theorem follows_entry (buf : List.Vector UInt8 requestMax) (stream : List UInt8) :
    Follows stream (.entry buf stream) :=
  follows_resumeRead _ (ReadRequest.sound_entry (by decide) buf stream)

/-- Behind a round of `read_request`. -/
theorem Follows.rounds (h : Follows stream s) (hc : s.control = .reading)
    {r : SysResult (List UInt8)} (hallow : s.request.allows r = true) :
    s.request.Rounds r (s.request.round r) ∧ (s.request.round r).Sound stream :=
  ⟨ReadRequest.rounds_round (h.ready hc) r,
    h.holds.rounds (h.ready hc) hallow (ReadRequest.rounds_round (h.ready hc) r)⟩

theorem Control.Responds.ready (h : s.control.Responds) : s.Ready := by
  intro hc
  rw [hc] at h
  exact h.elim

theorem Follows.step (h : Follows stream s) (hstep : s.step a = some t) : Follows stream t := by
  have hmove := moves_of_step hstep
  generalize hc : s.control = c at hmove
  cases hmove with
  | read hallow => exact follows_resumeRead s (h.rounds hc hallow).2
  | render =>
      rw [sendMetrics_eq]
      exact ⟨h.holds, fun hc => by simp at hc⟩
  | head | body =>
      obtain ⟨hresponds, -, hrequest⟩ := responds_of_send hstep
      exact ⟨hrequest ▸ h.holds, hresponds.ready⟩

theorem decides_resumeRead (hreply : s.reply = none) {n : ReadRequest.Next requestMax}
    (hn : n.Sound stream) (hfailed : ∀ c, n = .failed c → c.len = 0 ∧ c.unread = []) :
    Decides stream (s.resumeRead n).reply (s.resumeRead n).control := by
  cases n with
  | again c => exact hreply
  | done c =>
      have hrequested := requested_of_holds hn.2 hn.1
      simp only [Serve.resumeRead, Serve.route]
      split
      · next hmatch =>
          rw [if_pos hmatch] at hrequested
          exact hrequested
      · next hmatch =>
          rw [if_neg hmatch] at hrequested
          exact (responds_respond _ _ _ _).decides hrequested.symm
  | failed c =>
      -- Nothing was received and nothing is left, so the stream is empty.
      obtain ⟨hlen, hunread⟩ := hfailed c rfl
      have hsplit := ReadRequest.Holds.split hn
      rw [hlen, hunread, Buffer.slice_self, List.append_nil] at hsplit
      subst hsplit
      exact hreply

theorem Decides.step (hd : Decides stream s.reply s.control) (h : Follows stream s)
    (ha : ¬ReadFails a) (hstep : s.step a = some t) : Decides stream t.reply t.control := by
  have hmove := moves_of_step hstep
  generalize hc : s.control = c at hd hmove
  cases hmove with
  | @read r hallow =>
      obtain ⟨hrounds, hsound⟩ := h.rounds hc hallow
      refine decides_resumeRead hd hsound fun c hfailed => ?_
      rw [hfailed] at hrounds
      refine hrounds.failed hallow ?_
      rintro e rfl
      by_contra he
      exact ha ⟨e, rfl, he⟩
  | render =>
      rw [sendMetrics_eq]
      exact hd.symm
  | head | body =>
      obtain ⟨hresponds, hreply, -⟩ := responds_of_send hstep
      exact hresponds.decides (hreply.trans hd)

theorem decides_entry (buf : List.Vector UInt8 requestMax) (stream : List UInt8) :
    Decides stream (Serve.entry buf stream).reply (Serve.entry buf stream).control := by
  have hlt : 0 + 1 < requestMax := by decide
  have hroom : (ReadRequest.entry buf stream).loopHead = .again (.entry buf stream) := if_pos hlt
  rw [Serve.entry, hroom]
  rfl

theorem reachable_ready (h : serve.Reachable s) : s.Ready := by
  have hfollows : ∃ stream, Follows stream s := by
    refine Machine.Reachable.invariant (P := fun s => ∃ stream, Follows stream s) ?_ ?_ h
    · rintro s ⟨buf, stream, rfl⟩
      exact ⟨stream, follows_entry buf stream⟩
    · rintro s a t - ⟨stream, hs⟩ hstep
      exact ⟨stream, hs.step hstep⟩
  obtain ⟨_, hs⟩ := hfollows
  exact hs.ready

section Run

variable {buf : List.Vector UInt8 requestMax} {as : List Event}

theorem follows_run (hrun : serve.run (.entry buf stream) as = some s) : Follows stream s :=
  Machine.run_invariant (fun _ _ _ h hstep => h.step hstep) (follows_entry buf stream) hrun

theorem decides_run (hrun : serve.run (.entry buf stream) as = some s)
    (hreads : ∀ a ∈ as, ¬ReadFails a) : Decides stream s.reply s.control := by
  have hboth := Machine.run_invariant_of_mem
    (P := fun s => Follows stream s ∧ Decides stream s.reply s.control)
    (fun a ha s t hs hstep => ⟨hs.1.step hstep, hs.2.step hs.1 (hreads a ha) hstep⟩)
    ⟨follows_entry buf stream, decides_entry buf stream⟩ hrun
  exact hboth.2

theorem Decides.eq_requested {reply : Option Reply} {c : Control} (h : Decides stream reply c)
    (hc : c.Responds) : reply = requested stream := by
  cases c with
  | reading => exact hc.elim
  | rendering => exact hc.elim
  | sendHead k body => exact h
  | sendBody k => exact h
  | returned => exact h

end Run

/-! ## What is sent -/

/-- The responses that the replies stand for, in a call with the events `as`. There is
none for `tooSmall`, which is never chosen. -/
inductive Reply.Means (as : List Event) : Reply → Http.Response → Prop where
  | notFound : Means as .notFound notFoundResponse
  | metrics {g : Registry} {body : List.Vector UInt8 bodyMax} (h : .render g body ∈ as) :
      Means as .metrics (metricsResponse g)

/-- The response that was chosen is being written. -/
structure Sending (as : List Event) (s : Serve) : Prop where
  quiet : Quiet s.reply s.accepted s.control
  responding : ∀ reply, s.reply = some reply → ∃ r, reply.Means as r ∧
    Responding r.text (Part as r.text) s.accepted s.control

theorem sending_resumeRead {as : List Event} (hreply : s.reply = none)
    (haccepted : s.accepted = []) (n : ReadRequest.Next requestMax) :
    Sending as (s.resumeRead n) := by
  refine ⟨quiet_resumeRead hreply haccepted n, ?_⟩
  intro reply hsome
  cases n with
  | again c => cases hreply.symm.trans hsome
  | failed c => cases hreply.symm.trans hsome
  | done c =>
      simp only [Serve.resumeRead, Serve.route] at hsome ⊢
      split
      · next hmatch =>
          rw [if_pos hmatch] at hsome
          cases hreply.symm.trans hsome
      · next hmatch =>
          rw [if_neg hmatch] at hsome
          cases hsome
          exact ⟨_, .notFound, responding_sendStatus haccepted _⟩

theorem Sending.step {as : List Event} (h : Sending as s) (ha : a ∈ as)
    (hstep : s.step a = some t) : Sending as t := by
  have hmove := moves_of_step hstep
  have hkeep : t.reply = s.reply → Sending as t := by
    intro heq
    refine ⟨h.quiet.step hstep, fun reply hreply => ?_⟩
    obtain ⟨r, hmeans, hresponding⟩ := h.responding reply (heq ▸ hreply)
    exact ⟨r, hmeans, hresponding.step (part_refl _ _)
      (fun hfails _ => part_of_writeFails ha hfails) hstep⟩
  generalize hc : s.control = c at hmove
  have hquiet := h.quiet
  rw [hc] at hquiet
  cases hmove with
  | read => exact sending_resumeRead hquiet.1 hquiet.2 _
  | render =>
      refine ⟨h.quiet.step hstep, fun reply hreply => ?_⟩
      rw [sendMetrics_eq] at hreply
      cases hreply
      exact ⟨_, .metrics ha, responding_sendMetrics hquiet.2 _ _ _⟩
  | head | body => exact hkeep (responds_of_send hstep).2.1

theorem sending_entry (as : List Event) (buf : List.Vector UInt8 requestMax)
    (stream : List UInt8) : Sending as (.entry buf stream) := by
  rw [Serve.entry]
  exact sending_resumeRead rfl rfl _

theorem sending_run {buf : List.Vector UInt8 requestMax} {as : List Event}
    (hrun : serve.run (.entry buf stream) as = some s) : Sending as s :=
  Machine.run_invariant_of_mem (P := Sending as) (fun _ ha _ _ hs hstep => hs.step ha hstep)
    (sending_entry as buf stream) hrun

theorem Sending.answers_notFound {as : List Event} (h : Sending as s)
    (hreply : s.reply = some .notFound) : Answers as s notFoundResponse := by
  obtain ⟨r, hmeans, hresponding⟩ := h.responding _ hreply
  cases hmeans with
  | notFound => exact hresponding.answers (by decide) (by decide)

theorem Sending.answers_metrics {as : List Event} (h : Sending as s)
    (hreply : s.reply = some .metrics) :
    ∃ g body, .render g body ∈ as ∧ Answers as s (metricsResponse g) := by
  obtain ⟨r, hmeans, hresponding⟩ := h.responding _ hreply
  cases hmeans with
  | metrics hrender => exact ⟨_, _, hrender, hresponding.answers (by decide) (by decide)⟩

theorem requested_eq_metrics_iff :
    requested stream = some .metrics ↔ stream.take 12 = ascii "GET /metrics" := by
  change _ ↔ stream.take 12 = getMetrics
  unfold requested
  split
  · next hnil =>
      rw [hnil]
      exact iff_of_false (by simp) (by decide)
  · split <;> simp_all

theorem requested_eq_notFound_iff :
    requested stream = some .notFound ↔
      stream ≠ [] ∧ stream.take 12 ≠ ascii "GET /metrics" := by
  change _ ↔ stream ≠ [] ∧ stream.take 12 ≠ getMetrics
  unfold requested
  split
  · simp_all
  · split <;> simp_all

theorem requested_eq_none_iff : requested stream = none ↔ stream = [] := by
  unfold requested
  split
  · simp_all
  · split <;> simp_all

/-- A client sends `stream` and ends it, and the kernel cuts it into pieces in two ways.
Both calls of `serve` choose the same response, by the first twelve bytes of the stream,
and none only for the empty stream. What they put on the wire is the 404 response, the
response with the metrics as they were rendered, or nothing. From every point on the way
there the call can return. All writes of `read_request` are inside its buffer. -/
theorem serve_chooses_by_first_bytes (stream : List UInt8)
    (buf buf' : List.Vector UInt8 requestMax) :
    (∀ as as' s s', serve.run (.entry buf stream) as = some s →
      serve.run (.entry buf' stream) as' = some s' →
      (∀ a ∈ as, ¬ReadFails a) → (∀ a ∈ as', ¬ReadFails a) →
      s.control.Responds → s'.control.Responds →
        s.reply = s'.reply ∧
        (s.reply = some .metrics ↔ stream.take 12 = ascii "GET /metrics") ∧
        (s.reply = some .notFound ↔ stream ≠ [] ∧ stream.take 12 ≠ ascii "GET /metrics") ∧
        (s.reply = none ↔ stream = []) ∧ (s.reply = none → s.accepted = []) ∧
        (stream.take 12 = ascii "GET /metrics" →
          (∃ g body, .render g body ∈ as ∧ Answers as s (metricsResponse g)) ∧
          ∃ g body, .render g body ∈ as' ∧ Answers as' s' (metricsResponse g)) ∧
        (stream ≠ [] → stream.take 12 ≠ ascii "GET /metrics" →
          Answers as s notFoundResponse ∧ Answers as' s' notFoundResponse) ∧
        (stream = [] → s.accepted = [] ∧ s'.accepted = [])) ∧
    (∀ as s, serve.run (.entry buf stream) as = some s →
      (∀ i ∈ s.request.writes, i < requestMax) ∧
      ∃ as' t, serve.run s as' = some t ∧ (∀ a ∈ as', ¬ReadFails a ∧ ¬WriteFails a) ∧
        t.control = .returned) ∧
    ∀ cap n, 0 < cap → (readRequest cap).Reachable n → ∀ i ∈ n.call.writes, i < cap := by
  refine ⟨?_, ?_, ?_⟩
  · intro as as' s s' hrun hrun' hreads hreads' hs hs'
    have hreply := (decides_run hrun hreads).eq_requested hs
    have hreply' := (decides_run hrun' hreads').eq_requested hs'
    have hsending := sending_run hrun
    have hsending' := sending_run hrun'
    refine ⟨hreply.trans hreply'.symm, ?_, ?_, ?_, hsending.quiet.accepted_eq, ?_, ?_, ?_⟩
    · rw [hreply, requested_eq_metrics_iff]
    · rw [hreply, requested_eq_notFound_iff]
    · rw [hreply, requested_eq_none_iff]
    · intro hmatch
      have hrequested := requested_eq_metrics_iff.mpr hmatch
      exact ⟨hsending.answers_metrics (hreply.trans hrequested),
        hsending'.answers_metrics (hreply'.trans hrequested)⟩
    · intro hne hother
      have hrequested := requested_eq_notFound_iff.mpr ⟨hne, hother⟩
      exact ⟨hsending.answers_notFound (hreply.trans hrequested),
        hsending'.answers_notFound (hreply'.trans hrequested)⟩
    · intro hnil
      have hrequested := requested_eq_none_iff.mpr hnil
      exact ⟨hsending.quiet.accepted_eq (hreply.trans hrequested),
        hsending'.quiet.accepted_eq (hreply'.trans hrequested)⟩
  · intro as s hrun
    have hfollows := follows_run hrun
    exact ⟨hfollows.holds.writes, exists_run_returned hfollows.ready⟩
  · intro cap n hcap hn
    obtain ⟨stream, hsound⟩ := ReadRequest.reachable_sound hcap hn
    exact hsound.writes

/-- A stream that ends too early, in one piece and in two with an interruption. Both
clients read the same response, though one of them in three pieces. -/
theorem serve_chooses_by_first_bytes_cut :
    ∃ s s', serve.run (.entry (.replicate _ 0) (ascii "GET /"))
        [.recv (.ok (ascii "GET /")), .recv (.ok []), .send (.ok 106), .send (.ok 10)] = some s ∧
      serve.run (.entry (.replicate _ 0) (ascii "GET /"))
        [.recv (.ok (ascii "GE")), .recv (.error .eintr), .recv (.ok (ascii "T /")),
          .recv (.ok []), .send (.ok 100), .send (.ok 6), .send (.ok 10)] = some s' ∧
      s.reply = some .notFound ∧ s'.reply = some .notFound ∧
      s.accepted = notFoundResponse.text ∧ s'.accepted = notFoundResponse.text := by
  obtain ⟨s, hrun, hs⟩ : ∃ s, serve.run (.entry (.replicate _ 0) (ascii "GET /"))
      [.recv (.ok (ascii "GET /")), .recv (.ok []), .send (.ok 106), .send (.ok 10)] = some s ∧
      s.control = .returned :=
    ⟨_, rfl, rfl⟩
  obtain ⟨s', hrun', hs'⟩ : ∃ s', serve.run (.entry (.replicate _ 0) (ascii "GET /"))
      [.recv (.ok (ascii "GE")), .recv (.error .eintr), .recv (.ok (ascii "T /")),
        .recv (.ok []), .send (.ok 100), .send (.ok 6), .send (.ok 10)] = some s' ∧
      s'.control = .returned :=
    ⟨_, rfl, rfl⟩
  obtain ⟨heq, -, hnotFound, -, -, -, hanswers, -⟩ :=
    (serve_chooses_by_first_bytes (ascii "GET /") _ _).1 _ _ s s' hrun hrun'
      (by simp [ReadFails]) (by simp [ReadFails]) (hs ▸ trivial) (hs' ▸ trivial)
  have hreply := hnotFound.mpr (by decide)
  obtain ⟨hfirst, hsecond⟩ := hanswers (by decide) (by decide)
  exact ⟨s, s', hrun, hrun', hreply, heq ▸ hreply, hfirst.whole hs (by simp [WriteFails]),
    hsecond.whole hs' (by simp [WriteFails])⟩

end ConcurrentServers.MetricsServer

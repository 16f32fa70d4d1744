import ConcurrentServers.Metrics.Render
import ConcurrentServers.Protocol.ServeConnection

/-!
# `serve` of `metrics_server.c`

One connection to the metrics endpoint, stepped from one kernel answer to the
next. The control is at `recv` in `read_request`, at `metrics_render`, in one of
the two `write_all` calls of a response, or behind a return. `write_all` is the
loop of `send_all`. What the client sends before it ends its stream is fixed at
the start; the kernel cuts it into pieces.
-/

namespace ConcurrentServers.MetricsServer

open Systems
open Systems.Text (ascii decimal)
open Protocol (SendAll)
open Metrics (Registry metricsRender cString)

def requestMax : ℕ := 2048

def bodyMax : ℕ := 16384

/-- The size of the arrays `head`. -/
def headSize : ℕ := 256

/-! ## `read_request` -/

def strstr (haystack needle : List UInt8) : Bool := haystack.tails.any needle.isPrefixOf

/-- Whether `strncmp` returns zero. -/
def strncmpEq (s t : List UInt8) (n : ℕ) : Bool := s.take n == t.take n

def getMetrics : List UInt8 := ascii "GET /metrics"

/-- A call of `read_request`, with what the kernel still has to deliver and the indices
of `buf` that were written. -/
structure ReadRequest (cap : ℕ) where
  buf : List.Vector UInt8 cap
  len : ℕ
  unread : List UInt8
  writes : List ℕ

namespace ReadRequest

variable {cap : ℕ}

inductive Next (cap : ℕ) where
  | again (c : ReadRequest cap)
  | done (c : ReadRequest cap)
  | failed (c : ReadRequest cap)

def Next.call : Next cap → ReadRequest cap
  | .again c => c
  | .done c => c
  | .failed c => c

/-- `buf[len] = '\0'`. -/
def terminate (c : ReadRequest cap) : ReadRequest cap :=
  { c with buf := Buffer.store c.buf c.len 0, writes := c.writes ++ [c.len] }

def receive (c : ReadRequest cap) (data : List UInt8) : ReadRequest cap where
  -- `recv` is given the cells behind the first `len` ones.
  buf := Buffer.write c.buf c.len data
  len := c.len + data.length
  unread := c.unread.drop data.length
  writes := c.writes ++ List.range' c.len data.length

def finish (c : ReadRequest cap) : Next cap :=
  -- Behind the loop: the terminator is written before `len` is tested.
  if 0 < c.len then .done c.terminate else .failed c.terminate

def loopHead (c : ReadRequest cap) : Next cap :=
  if c.len + 1 < cap then .again c else c.finish

def complete (c : ReadRequest cap) : Bool :=
  strstr (cString c.buf) (ascii "\r\n\r\n") || strstr (cString c.buf) (ascii "\n\n")

/-- One round of the loop, for the answer of `recv`. -/
def round (c : ReadRequest cap) : SysResult (List UInt8) → Next cap
  -- `continue` goes through the test of the loop again.
  | .error e => if e = .eintr then c.loopHead else .failed c
  | .ok [] => c.finish
  | .ok data =>
      let c := (c.receive data).terminate
      if c.complete then .done c else c.loopHead

/-- The kernel delivers the next bytes of the stream, as many as it was asked for or
less, and none only behind the last one. -/
def allows (c : ReadRequest cap) : SysResult (List UInt8) → Bool
  | .error _ => true
  | .ok data =>
      data.isPrefixOf c.unread && data.length ≤ cap - c.len - 1 && (data ≠ [] || c.unread = [])

def entry (buf : List.Vector UInt8 cap) (stream : List UInt8) : ReadRequest cap :=
  ⟨buf, 0, stream, []⟩

end ReadRequest

/-- `read_request` alone, on a buffer of any size. -/
def readRequest (cap : ℕ) : Machine (ReadRequest.Next cap) (SysResult (List UInt8)) where
  init n := ∃ buf stream, n = (ReadRequest.entry buf stream).loopHead
  step n r :=
    match n with
    | .again c => if c.allows r then some (c.round r) else none
    | _ => none

/-! ## Responses -/

/-- The text that both functions print into `head`. -/
def headText (status contentType : List UInt8) (contentLength : ℕ) : List UInt8 :=
  ascii "HTTP/1.1 " ++ status ++ ascii "\r\nContent-Type: " ++ contentType ++
    ascii "\r\nContent-Length: " ++ decimal contentLength ++
    ascii "\r\nConnection: close\r\n\r\n"

/-- The head of `send_status`. -/
def statusHead (status : List UInt8) (contentLength : ℕ) : List UInt8 :=
  headText status (ascii "text/plain; charset=utf-8") contentLength

/-- The head of `send_metrics`. -/
def metricsHead (contentLength : ℕ) : List UInt8 :=
  headText (ascii "200 OK") (ascii "text/plain; version=0.0.4; charset=utf-8") contentLength

inductive Reply where
  | metrics
  | tooSmall
  | notFound
  deriving DecidableEq, Repr

inductive Control where
  | reading
  | rendering
  | sendHead (k : SendAll) (body : List UInt8)
  | sendBody (k : SendAll)
  | returned

/-- The function, with the response it has chosen and what the kernel has accepted of
it. -/
structure Serve where
  control : Control
  request : ReadRequest requestMax
  reply : Option Reply
  accepted : List UInt8

inductive Event where
  | recv (r : SysResult (List UInt8))
  | render (g : Registry) (body : List.Vector UInt8 bodyMax)
  | send (r : SysResult ℕ)

namespace Serve

def respond (s : Serve) (reply : Reply) (head body : List UInt8) : Serve :=
  { s with
    reply := some reply
    -- `snprintf` returns the length of the whole text. A head that was cut is not sent.
    control :=
      if 0 < head.length ∧ head.length < headSize then .sendHead ⟨head, 0⟩ body else .returned }

def sendStatus (s : Serve) (reply : Reply) (status body : List UInt8) : Serve :=
  s.respond reply (statusHead status body.length) body

/-- `send_metrics`, with the array `body` as it comes from the stack. -/
def sendMetrics (s : Serve) (g : Registry) (body : List.Vector UInt8 bodyMax) : Serve :=
  let (out, bodyLen) := metricsRender g (some body)
  if bodyLen ≥ bodyMax then
    s.sendStatus .tooSmall (ascii "500 Internal Server Error") (ascii "metrics buffer too small\n")
  else s.respond .metrics (metricsHead bodyLen) (Buffer.slice (out.getD body) 0 bodyLen)

/-- Behind `read_request`. -/
def route (s : Serve) : Serve :=
  if strncmpEq (cString s.request.buf) getMetrics 12 then
    { s with control := .rendering }
  else s.sendStatus .notFound (ascii "404 Not Found") (ascii "not found\n")

def resumeRead (s : Serve) : ReadRequest.Next requestMax → Serve
  | .again c => { s with control := .reading, request := c }
  | .done c => { s with request := c }.route
  | .failed c => { s with control := .returned, request := c }

/-- At the start of the function, for a client that sends `stream`. -/
def entry (buf : List.Vector UInt8 requestMax) (stream : List UInt8) : Serve :=
  let c := ReadRequest.entry buf stream
  resumeRead ⟨.reading, c, none, []⟩ c.loopHead

def startBody (body : List UInt8) : Control :=
  -- `write_all` returns at once when there is nothing to write.
  if 0 < body.length then .sendBody ⟨body, 0⟩ else .returned

/-- One round of `write_all`, where `done` is behind its loop. -/
def write (s : Serve) (k : SendAll) (r : SysResult ℕ) (again : SendAll → Control)
    (done : Control) : Option Serve :=
  if k.allows r then
    let s := { s with accepted := s.accepted ++ k.taken r }
    match k.round r with
    | .again k' => some { s with control := again k' }
    | .done => some { s with control := done }
    | .failed _ => some { s with control := .returned }
  else none

def step (s : Serve) : Event → Option Serve
  | .recv r =>
      match s.control with
      | .reading => if s.request.allows r then some (s.resumeRead (s.request.round r)) else none
      | _ => none
  | .render g body =>
      match s.control with
      | .rendering => some (s.sendMetrics g body)
      | _ => none
  | .send r =>
      match s.control with
      | .sendHead k body => s.write k r (.sendHead · body) (startBody body)
      | .sendBody k => s.write k r .sendBody .returned
      | _ => none

end Serve

def serve : Machine Serve Event where
  init s := ∃ buf stream, s = .entry buf stream
  step := Serve.step

/-! ## What one step can do -/

namespace ReadRequest

variable {cap : ℕ}

/-- The ways in which a round of `read_request` ends. -/
inductive Rounds (c : ReadRequest cap) : SysResult (List UInt8) → Next cap → Prop where
  | interrupted : Rounds c (.error .eintr) (.again c)
  | error {e : Errno} (he : e ≠ .eintr) : Rounds c (.error e) (.failed c)
  | nothing (hzero : c.len = 0) : Rounds c (.ok []) (.failed c.terminate)
  | ended (hpos : 0 < c.len) : Rounds c (.ok []) (.done c.terminate)
  | complete {data : List UInt8} (hdata : data ≠ [])
      (hcomplete : (c.receive data).terminate.complete = true) :
      Rounds c (.ok data) (.done (c.receive data).terminate)
  | more {data : List UInt8} (hdata : data ≠ []) (hroom : c.len + data.length + 1 < cap) :
      Rounds c (.ok data) (.again (c.receive data).terminate)
  | full {data : List UInt8} (hdata : data ≠ []) (hfull : cap ≤ c.len + data.length + 1) :
      Rounds c (.ok data) (.done (c.receive data).terminate.terminate)

theorem rounds_round {c : ReadRequest cap} (hroom : c.len + 1 < cap)
    (r : SysResult (List UInt8)) : Rounds c r (c.round r) := by
  unfold round
  split
  · next e =>
      split
      · next he =>
          rw [loopHead, if_pos hroom, he]
          exact .interrupted
      · next he => exact .error he
  · unfold finish
    split
    · next hpos => exact .ended hpos
    · next hzero => exact .nothing (Nat.eq_zero_of_not_pos hzero)
  · next data hdata =>
      have hpos : 0 < data.length := List.length_pos_of_ne_nil hdata
      have hlen : (c.receive data).terminate.len = c.len + data.length := rfl
      dsimp only
      split
      · next hcomplete => exact .complete hdata hcomplete
      · unfold loopHead
        split
        · next hmore => exact .more hdata hmore
        · next hfull =>
            -- The call does not fail here, since `len` has just grown.
            rw [finish, if_pos (by omega)]
            exact .full hdata (Nat.not_lt.mp hfull)

end ReadRequest

/-- The ways in which a round of `write_all` ends. -/
inductive Written (s : Serve) (k : SendAll) (r : SysResult ℕ) (again : SendAll → Control)
    (done : Control) : Serve → Prop where
  | again {k' : SendAll} (hallow : k.allows r = true) (hk : k.round r = .again k') :
      Written s k r again done { s with accepted := s.accepted ++ k.taken r, control := again k' }
  | done (hallow : k.allows r = true) (hk : k.round r = .done) :
      Written s k r again done { s with accepted := s.accepted ++ k.taken r, control := done }
  | failed {e : Errno} (hallow : k.allows r = true) (hk : k.round r = .failed e) :
      Written s k r again done
        { s with accepted := s.accepted ++ k.taken r, control := .returned }

/-- The steps from each control point. -/
inductive Moves (s : Serve) : Control → Event → Serve → Prop where
  | read {r : SysResult (List UInt8)} (hallow : s.request.allows r = true) :
      Moves s .reading (.recv r) (s.resumeRead (s.request.round r))
  | render {g : Registry} {body : List.Vector UInt8 bodyMax} :
      Moves s .rendering (.render g body) (s.sendMetrics g body)
  | head {k : SendAll} {body : List UInt8} {r : SysResult ℕ} {t : Serve}
      (h : Written s k r (.sendHead · body) (Serve.startBody body) t) :
      Moves s (.sendHead k body) (.send r) t
  | body {k : SendAll} {r : SysResult ℕ} {t : Serve} (h : Written s k r .sendBody .returned t) :
      Moves s (.sendBody k) (.send r) t

variable {s t : Serve}

theorem written_of_write {k : SendAll} {r : SysResult ℕ} {again : SendAll → Control}
    {done : Control} (h : s.write k r again done = some t) : Written s k r again done t := by
  unfold Serve.write at h
  obtain ⟨hallow, h⟩ := Option.ite_none_right_eq_some.mp h
  cases hk : k.round r with
  | again k' =>
      simp only [hk, Option.some.injEq] at h
      subst h
      exact .again hallow hk
  | done =>
      simp only [hk, Option.some.injEq] at h
      subst h
      exact .done hallow hk
  | failed e =>
      simp only [hk, Option.some.injEq] at h
      subst h
      exact .failed hallow hk

theorem moves_of_step {a : Event} (h : s.step a = some t) : Moves s s.control a t := by
  unfold Serve.step at h
  cases a with
  | recv r =>
      cases hc : s.control with
      | reading =>
          simp only [hc] at h
          obtain ⟨hallow, h⟩ := Option.ite_none_right_eq_some.mp h
          cases h
          exact .read hallow
      | _ => simp [hc] at h
  | render g body =>
      cases hc : s.control with
      | rendering =>
          simp only [hc] at h
          cases h
          exact .render
      | _ => simp [hc] at h
  | send r =>
      cases hc : s.control with
      | sendHead k body =>
          simp only [hc] at h
          exact .head (written_of_write h)
      | sendBody k =>
          simp only [hc] at h
          exact .body (written_of_write h)
      | _ => simp [hc] at h

/-! ## Every call can return -/

/-- A call of `recv` fails for good. -/
def ReadFails (a : Event) : Prop := ∃ e, a = .recv (.error e) ∧ e ≠ .eintr

/-- A call of `send` fails for good. -/
def WriteFails (a : Event) : Prop := ∃ e, a = .send (.error e) ∧ e ≠ .eintr

theorem not_readFails_send (r : SysResult ℕ) : ¬ReadFails (.send r) := by
  rintro ⟨e, he, -⟩
  cases he

theorem not_readFails_ok (data : List UInt8) : ¬ReadFails (.recv (.ok data)) := by
  rintro ⟨e, he, -⟩
  cases he

theorem not_writeFails_recv (r : SysResult (List UInt8)) : ¬WriteFails (.recv r) := by
  rintro ⟨e, he, -⟩
  cases he

theorem not_writeFails_ok (n : ℕ) : ¬WriteFails (.send (.ok n)) := by
  rintro ⟨e, he, -⟩
  cases he

/-- The steps that the function needs if the kernel takes all it is given and delivers
byte by byte. -/
def Control.remaining (unread : List UInt8) : Control → ℕ
  | .reading => unread.length + 4
  | .rendering => 3
  | .sendHead _ _ => 2
  | .sendBody _ => 1
  | .returned => 0

def Serve.remaining (s : Serve) : ℕ := s.control.remaining s.request.unread

/-- `recv` is not called without room for a byte. -/
def Serve.Ready (s : Serve) : Prop := s.control = .reading → s.request.len + 1 < requestMax

def Serve.Past (s : Serve) : Prop := s.control ≠ .reading ∧ s.remaining ≤ 3

theorem Serve.Past.ready {s : Serve} (h : s.Past) : s.Ready := fun hc => (h.1 hc).elim

theorem past_respond (s : Serve) (reply : Reply) (head body : List UInt8) :
    (s.respond reply head body).Past ∧ (s.respond reply head body).remaining ≤ 2 := by
  unfold Serve.Past Serve.remaining Serve.respond
  dsimp only
  split
  · exact ⟨⟨by simp, Nat.le_succ 2⟩, le_refl 2⟩
  · exact ⟨⟨by simp, Nat.zero_le 3⟩, Nat.zero_le 2⟩

theorem past_route (s : Serve) : s.route.Past := by
  unfold Serve.route
  split
  · exact ⟨by simp, le_refl 3⟩
  · exact (past_respond _ _ _ _).1

theorem remaining_sendMetrics_le (s : Serve) (g : Registry) (body : List.Vector UInt8 bodyMax) :
    (s.sendMetrics g body).Past ∧ (s.sendMetrics g body).remaining ≤ 2 := by
  unfold Serve.sendMetrics Serve.sendStatus
  dsimp only
  split
  · exact past_respond _ _ _ _
  · exact past_respond _ _ _ _

theorem past_failed (s : Serve) (c : ReadRequest requestMax) : (s.resumeRead (.failed c)).Past :=
  ⟨by simp [Serve.resumeRead], Nat.zero_le 3⟩

theorem write_whole (s : Serve) (k : SendAll) (again : SendAll → Control) (done : Control) :
    ∃ t, s.write k (.ok (k.buf.length - k.sent)) again done = some t ∧ t.control = done := by
  have hallow : k.allows (.ok (k.buf.length - k.sent)) = true := by simp [SendAll.allows]
  have hround : k.round (.ok (k.buf.length - k.sent)) = .done := by
    have hall : ¬k.sent + (k.buf.length - k.sent) < k.buf.length := by omega
    simp only [SendAll.round, if_neg hall]
  unfold Serve.write
  rw [if_pos hallow, hround]
  exact ⟨_, rfl, rfl⟩

theorem remaining_startBody_lt (body unread : List UInt8) :
    (Serve.startBody body).remaining unread < 2 := by
  unfold Serve.startBody
  split
  · exact Nat.lt_succ_self 1
  · exact Nat.zero_lt_two

theorem exists_recv_progress (h : s.Ready) (hc : s.control = .reading) :
    ∃ data t, s.step (.recv (.ok data)) = some t ∧ t.Ready ∧ t.remaining < s.remaining := by
  -- The kernel delivers the next byte, or the end of the stream when there is none.
  have hroom := h hc
  have hremaining : s.remaining = s.request.unread.length + 4 := by
    rw [Serve.remaining, hc, Control.remaining]
  have hpast : ∀ t : Serve, t.Past → t.Ready ∧ t.remaining < s.remaining :=
    fun t ht => ⟨ht.ready, ht.2.trans_lt (by omega)⟩
  have hallow : s.request.allows (.ok (s.request.unread.take 1)) = true := by
    have hprefix := List.take_prefix 1 s.request.unread
    have hlength : min 1 s.request.unread.length ≤ requestMax - s.request.len - 1 := by omega
    simp only [ReadRequest.allows, List.isPrefixOf_iff_prefix.mpr hprefix, List.length_take,
      hlength, decide_true, Bool.true_and, Bool.or_eq_true, decide_eq_true_eq]
    cases s.request.unread with
    | nil => exact Or.inr rfl
    | cons b rest => exact Or.inl (List.cons_ne_nil _ _)
  have hlength : (s.request.unread.take 1).length ≤ s.request.unread.length :=
    List.length_take_le' 1 _
  generalize s.request.unread.take 1 = data at hallow hlength
  have hrounds := ReadRequest.rounds_round hroom (.ok data)
  refine ⟨data, s.resumeRead (s.request.round (.ok data)),
    by simp only [Serve.step, hc, hallow, if_true], ?_⟩
  generalize s.request.round (.ok data) = next at hrounds ⊢
  cases hrounds with
  | nothing hzero => exact hpast _ (past_failed _ _)
  | ended hpos => exact hpast _ (past_route _)
  | complete hdata hcomplete => exact hpast _ (past_route _)
  | full hdata hfull => exact hpast _ (past_route _)
  | more hdata hmore =>
      have hpos := List.length_pos_of_ne_nil hdata
      refine ⟨fun _ => hmore, ?_⟩
      rw [hremaining]
      change (s.request.unread.drop data.length).length + 4 < _
      rw [List.length_drop]
      omega

theorem exists_progress {s : Serve} (h : s.Ready) (hc : s.control ≠ .returned) :
    ∃ a t, (¬ReadFails a ∧ ¬WriteFails a) ∧ s.step a = some t ∧ t.Ready ∧
      t.remaining < s.remaining := by
  cases hs : s.control with
  | returned => exact absurd hs hc
  | reading =>
      obtain ⟨data, t, hstep, hready, hlt⟩ := exists_recv_progress h hs
      exact ⟨_, t, ⟨not_readFails_ok data, not_writeFails_recv _⟩, hstep, hready, hlt⟩
  | rendering =>
      let g : Registry := ⟨.replicate _ 0, 0, 0, 0, 0, 0, fun _ => 0, 0⟩
      obtain ⟨hpast, hle⟩ := remaining_sendMetrics_le s g (.replicate _ 0)
      refine ⟨.render g (.replicate _ 0), _, ⟨?_, ?_⟩, by simp only [Serve.step, hs],
        hpast.ready, ?_⟩
      · rintro ⟨e, he, -⟩
        cases he
      · rintro ⟨e, he, -⟩
        cases he
      · have hremaining : s.remaining = 3 := by
          rw [Serve.remaining, hs]
          rfl
        rw [hremaining]
        exact Nat.lt_succ_of_le hle
  | sendHead k body =>
      obtain ⟨t, ht, htc⟩ := write_whole s k (.sendHead · body) (Serve.startBody body)
      have hlt := remaining_startBody_lt body t.request.unread
      refine ⟨.send _, t, ⟨not_readFails_send _, not_writeFails_ok _⟩,
        by simpa only [Serve.step, hs] using ht, ?_, ?_⟩
      · intro hreading
        rw [← htc, hreading, Control.remaining] at hlt
        omega
      · rw [Serve.remaining, Serve.remaining, hs, htc]
        exact hlt
  | sendBody k =>
      obtain ⟨t, ht, htc⟩ := write_whole s k .sendBody .returned
      refine ⟨.send _, t, ⟨not_readFails_send _, not_writeFails_ok _⟩,
        by simpa only [Serve.step, hs] using ht, ?_, ?_⟩
      · intro hreading
        cases htc.symm.trans hreading
      · rw [Serve.remaining, Serve.remaining, hs, htc]
        exact Nat.zero_lt_one

theorem exists_run_returned {s : Serve} (h : s.Ready) :
    ∃ as t, serve.run s as = some t ∧ (∀ a ∈ as, ¬ReadFails a ∧ ¬WriteFails a) ∧
      t.control = .returned := by
  have hprogress : ∀ s : Serve, s.Ready → ¬s.control = .returned →
      ∃ a t, True ∧ (¬ReadFails a ∧ ¬WriteFails a) ∧ serve.step s a = some t ∧ t.Ready ∧
        t.remaining < s.remaining := by
    intro s hs hc
    obtain ⟨a, t, hkind, hstep, hready, hlt⟩ := exists_progress hs hc
    exact ⟨a, t, trivial, hkind, hstep, hready, hlt⟩
  obtain ⟨as, t, hrun, -, hkind, -, hc⟩ :=
    Machine.exists_run_of_progress Serve.remaining hprogress h
  exact ⟨as, t, hrun, hkind, hc⟩

end ConcurrentServers.MetricsServer

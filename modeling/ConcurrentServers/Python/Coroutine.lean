import ConcurrentServers.Library.Generator
import ConcurrentServers.Python.ThreadPool

/-!
# `threadpool_server_coroutine.py`

The protocol is a generator, `client_protocol`, that sends its replies to another
one, `reply_processor`, and keeps its state in where it is suspended. It is compared
with the loop over a `ProcessingState` of `threadpool_server.py`.
-/

namespace ConcurrentServers.Python.Coroutine

open Systems

/-! ## The generators -/

inductive Thrown where
  | exception (e : Exception)
  | typeError
  | stopIteration
  | runtimeError
  deriving DecidableEq, Repr

/-- A `StopIteration` that leaves a generator becomes a `RuntimeError`. -/
def signals : Signals Thrown where
  unstarted := .typeError
  exhausted := .stopIteration
  escaping
    | .stopIteration => .runtimeError
    | e => e

/-- The decorator `coroutine`. -/
def coroutine {σ : Type} (body : Code UInt8 σ Thrown) : Generator UInt8 σ Thrown :=
  Generator.start (.created body)

/-- `sockobj.send` of one byte. The state is what was sent so far. -/
def sockSend (sends : ℕ → SysResult Unit) (b : UInt8) : EStateM Thrown (List UInt8) Unit :=
  fun sent =>
    match sends sent.length with
    | .ok _ => .ok () (sent ++ [b])
    | .error e => .error (.exception (.ioError e)) sent

/-- The body of the loop of `reply_processor`. -/
def replyProcessor (sends : ℕ → SysResult Unit) : Code UInt8 (List UInt8) Thrown :=
  .call (sockSend sends)

abbrev Target : Type := Generator UInt8 (List UInt8) Thrown

/-- `target.send(bytes([b + 1]))`. -/
def sendSuccessor (b : UInt8) : EStateM Thrown (Target × List UInt8) Unit := fun s =>
  match bytes (b.toNat + 1) with
  | .ok reply => Generator.send signals reply s
  | .error e => .error (.exception e) s

/-- The body of the inner loop of `client_protocol`. -/
def processFrame : Code UInt8 (Target × List UInt8) Thrown :=
  .seq (.cond (· == '$'.toUInt8) .leave) (.call sendSuccessor)

/-- The body of the outer loop of `client_protocol`. -/
def clientProtocol : Code UInt8 (Target × List UInt8) Thrown :=
  .cond (· == '^'.toUInt8) (.receive processFrame)

/-! ## `serve_connection` -/

structure Serving where
  protocol : Generator UInt8 (Target × List UInt8) Thrown
  target : Target
  taken : ℕ
  sent : List UInt8

structure Raised where
  thrown : Thrown
  taken : ℕ
  sent : List UInt8

/-- `protocol.send(b)`. -/
def Serving.byte (s : Serving) (b : UInt8) : Except Raised Serving :=
  match Generator.send signals b (s.protocol, s.target, s.sent) with
  | .ok _ (protocol, target, sent) => .ok ⟨protocol, target, s.taken + 1, sent⟩
  | .error e (_, _, sent) => .error ⟨e, s.taken + 1, sent⟩

inductive Left where
  | waiting (s : Serving)
  | closed (s : Serving)

def Serving.loop (s : Serving) : List (SysResult (List UInt8)) → Except Raised Left
  | [] => .ok (.waiting s)
  | .error _ :: _ => .ok (.closed s)
  | .ok [] :: _ => .ok (.closed s)
  | .ok buf :: recvs => do
      let s ← buf.foldlM Serving.byte s
      s.loop recvs

def serveConnection (sends : ℕ → SysResult Unit) (recvs : List (SysResult (List UInt8))) :
    Except Raised Left :=
  match sockSend sends '*'.toUInt8 [] with
  | .ok _ sent =>
      Serving.loop ⟨coroutine clientProtocol, coroutine (replyProcessor sends), 0, sent⟩ recvs
  | .error e sent => .error ⟨e, 0, sent⟩

/-! ## Where the generators are suspended -/

/-- The `yield` at which `client_protocol` waits in each state of the explicit machine. -/
def position : Protocol.ProcessingState → Code.Position UInt8 (Target × List UInt8) Thrown
  | .waitForMsg => ⟨clientProtocol, []⟩
  | .inMsg => ⟨processFrame, [.loop clientProtocol]⟩

/-- `reply_processor` between two replies. -/
def ready (sends : ℕ → SysResult Unit) : Target := .suspended ⟨replyProcessor sends, []⟩

/-- `client_protocol` has come as far as the explicit machine. -/
structure Follows (sends : ℕ → SysResult Unit) (c : Serving) (s : Python.Serving) : Prop where
  protocol : c.protocol = .suspended (position s.state)
  target : c.target = ready sends
  taken : c.taken = s.taken
  sent : c.sent = s.sent

structure SameRaise (r : Raised) (r' : Python.Raised) : Prop where
  thrown : r.thrown = .exception r'.exception
  taken : r.taken = r'.serving.taken
  sent : r.sent = r'.serving.sent

variable {sends : ℕ → SysResult Unit}

theorem target_send_ok {sent : List UInt8} {u : Unit} (h : sends sent.length = .ok u)
    (b : UInt8) :
    Generator.send signals b (ready sends, sent) = .ok () (ready sends, sent ++ [b]) := by
  refine Generator.send_of_yield (Code.resume_of_falls ?_)
  simp [replyProcessor, Code.exec, sockSend, h, bind, EStateM.bind, pure, EStateM.pure]

theorem target_send_error {sent : List UInt8} {e : Errno} (h : sends sent.length = .error e)
    (b : UInt8) :
    Generator.send signals b (ready sends, sent) =
      .error (.exception (.ioError e)) (.finished, sent) := by
  refine Generator.send_of_error (e := Thrown.exception (.ioError e)) (Code.resume_of_error ?_)
  simp [replyProcessor, Code.exec, sockSend, h, bind, EStateM.bind]

section Resume

variable {b : UInt8} {s s' : Target × List UInt8} {e : Thrown}

theorem resume_waitForMsg_open :
    (position .waitForMsg).resume '^'.toUInt8 s = .ok (some (position .inMsg)) s :=
  Code.resume_of_yields (q := ⟨processFrame, []⟩) rfl

theorem resume_waitForMsg_skip (hb : b ≠ '^'.toUInt8) :
    (position .waitForMsg).resume b s = .ok (some (position .waitForMsg)) s := by
  have hcond : (b == '^'.toUInt8) = false := beq_eq_false_iff_ne.mpr hb
  refine Code.resume_of_falls ?_
  simp only [position, clientProtocol, Code.exec, hcond]
  rfl

theorem resume_inMsg_close :
    (position .inMsg).resume '$'.toUInt8 s = .ok (some (position .waitForMsg)) s :=
  Code.resume_of_leaves rfl rfl

theorem exec_processFrame (hb : b ≠ '$'.toUInt8) :
    processFrame.exec b s = (sendSuccessor b >>= fun _ => pure .falls) s := by
  have hcond : (b == '$'.toUInt8) = false := beq_eq_false_iff_ne.mpr hb
  simp only [processFrame, Code.exec, hcond, bind, EStateM.bind, pure, EStateM.pure,
    Bool.false_eq_true, if_false]

theorem resume_inMsg_ok (hb : b ≠ '$'.toUInt8) (h : sendSuccessor b s = .ok () s') :
    (position .inMsg).resume b s = .ok (some (position .inMsg)) s' := by
  refine Code.resume_of_falls ((exec_processFrame hb).trans ?_)
  simp only [bind, EStateM.bind, h, pure, EStateM.pure]

theorem resume_inMsg_error (hb : b ≠ '$'.toUInt8) (h : sendSuccessor b s = .error e s') :
    (position .inMsg).resume b s = .error e s' := by
  refine Code.resume_of_error ((exec_processFrame hb).trans ?_)
  simp only [bind, EStateM.bind, h]

end Resume

/-! ## The two loops in step -/

namespace Follows

variable {c : Serving} {s : Python.Serving} {b : UInt8}

theorem byte_of_yield (h : Follows sends c s) {state : Protocol.ProcessingState}
    {sent : List UInt8}
    (hresume : (position s.state).resume b (ready sends, s.sent) =
      .ok (some (position state)) (ready sends, sent)) :
    Agree SameRaise (Follows sends) (c.byte b) (.ok ⟨state, s.taken + 1, sent⟩) := by
  rw [Serving.byte, h.protocol, h.target, h.sent, Generator.send_of_yield hresume, h.taken]
  exact .ok ⟨rfl, rfl, rfl, rfl⟩

theorem byte_of_error (h : Follows sends c s) {e : Exception} {t : Target}
    (hresume : (position s.state).resume b (ready sends, s.sent) =
      .error (.exception e) (t, s.sent)) :
    Agree SameRaise (Follows sends) (c.byte b) (.error ⟨e, { s with taken := s.taken + 1 }⟩) := by
  -- The exception is none that `send` itself raises, so it leaves the generator as it is.
  rw [Serving.byte, h.protocol, h.target, h.sent, Generator.send_of_error hresume, h.taken]
  exact .error ⟨rfl, rfl, rfl⟩

theorem byte_reply {taken : ℕ} {sent : List UInt8} (h : Follows sends c ⟨.inMsg, taken, sent⟩)
    (hb : b ≠ '$'.toUInt8) :
    Agree SameRaise (Follows sends) (c.byte b)
      (Python.Serving.byte sends ⟨.inMsg, taken, sent⟩ b) := by
  simp only [Python.Serving.byte, if_neg hb]
  -- The byte may have no successor, and the reply may fail.
  cases hbytes : bytes (b.toNat + 1) with
  | error e =>
      have hsend : sendSuccessor b (ready sends, sent) =
          .error (.exception e) (ready sends, sent) := by
        simp only [sendSuccessor, hbytes]
      exact h.byte_of_error (resume_inMsg_error hb hsend)
  | ok reply =>
      have hsend : sendSuccessor b (ready sends, sent) =
          Generator.send signals reply (ready sends, sent) := by
        simp only [sendSuccessor, hbytes]
      simp only [Python.Serving.send]
      cases hsends : sends sent.length with
      | ok u => exact h.byte_of_yield (resume_inMsg_ok hb (hsend.trans (target_send_ok hsends _)))
      | error e =>
          exact h.byte_of_error (resume_inMsg_error hb (hsend.trans (target_send_error hsends _)))

theorem byte (h : Follows sends c s) (b : UInt8) :
    Agree SameRaise (Follows sends) (c.byte b) (s.byte sends b) := by
  obtain ⟨state, taken, sent⟩ := s
  cases state with
  | waitForMsg =>
      by_cases hb : b = '^'.toUInt8
      · simp only [Python.Serving.byte, hb, if_true]
        exact h.byte_of_yield resume_waitForMsg_open
      · simp only [Python.Serving.byte, if_neg hb]
        exact h.byte_of_yield (resume_waitForMsg_skip hb)
  | inMsg =>
      by_cases hb : b = '$'.toUInt8
      · simp only [Python.Serving.byte, hb, if_true]
        exact h.byte_of_yield resume_inMsg_close
      · exact h.byte_reply hb

end Follows

inductive SameLeft (sends : ℕ → SysResult Unit) : Left → Python.Left → Prop where
  | waiting {c : Serving} {s : Python.Serving} (h : Follows sends c s) :
      SameLeft sends (.waiting c) (.waiting s)
  | closed {c : Serving} {s : Python.Serving} (h : Follows sends c s) :
      SameLeft sends (.closed c) (.closed s)

theorem Follows.loop {c : Serving} {s : Python.Serving} (h : Follows sends c s)
    (recvs : List (SysResult (List UInt8))) :
    Agree SameRaise (SameLeft sends) (c.loop recvs) (s.loop sends recvs) := by
  induction recvs generalizing c s with
  | nil => exact .ok (.waiting h)
  | cons r recvs ih =>
      match r with
      | .error _ => exact .ok (.closed h)
      | .ok [] => exact .ok (.closed h)
      | .ok (b :: data) =>
          exact (Agree.foldlM (fun c s b h => Follows.byte h b) (b :: data) h).bind
            fun c s h => ih h

theorem serveConnection_agree (sends : ℕ → SysResult Unit)
    (recvs : List (SysResult (List UInt8))) :
    Agree SameRaise (SameLeft sends) (serveConnection sends recvs)
      (Python.serveConnection sends recvs) := by
  unfold serveConnection Python.serveConnection Python.Serving.send sockSend
  cases hsends : sends ([] : List UInt8).length with
  | error e => exact .error ⟨rfl, rfl, rfl⟩
  | ok u => exact Follows.loop ⟨rfl, rfl, rfl, rfl⟩ recvs

/-! ## The same stream in two segmentations -/

theorem loop_segments (s : Python.Serving) {bufs : List (List UInt8)}
    (hbufs : ∀ buf ∈ bufs, buf ≠ []) (last : List (SysResult (List UInt8))) :
    s.loop sends (bufs.map .ok ++ last) =
      bufs.flatten.foldlM (Python.Serving.byte sends) s >>= fun t => t.loop sends last := by
  induction bufs generalizing s with
  | nil => rfl
  | cons buf bufs ih =>
      obtain ⟨b, data, rfl⟩ := List.exists_cons_of_ne_nil (hbufs buf List.mem_cons_self)
      have hloop : s.loop sends (((b :: data) :: bufs).map .ok ++ last) =
          (b :: data).foldlM (Python.Serving.byte sends) s >>= fun t =>
            t.loop sends (bufs.map .ok ++ last) := rfl
      rw [hloop, List.flatten_cons, List.foldlM_append, bind_assoc]
      refine congrArg _ (funext fun t => ih t fun buf hbuf => ?_)
      exact hbufs buf (List.mem_cons_of_mem _ hbuf)

/-- What a client and the log see of a function: the bytes that it took and sent, and
how it came to its end. -/
inductive Report where
  | raised (e : Thrown) (taken : ℕ) (sent : List UInt8)
  | closed (taken : ℕ) (sent : List UInt8)
  | waiting (taken : ℕ) (sent : List UInt8)
  deriving DecidableEq

def report : Except Raised Left → Report
  | .error r => .raised r.thrown r.taken r.sent
  | .ok (.closed s) => .closed s.taken s.sent
  | .ok (.waiting s) => .waiting s.taken s.sent

def explicitReport : Except Python.Raised Python.Left → Report
  | .error r => .raised (.exception r.exception) r.serving.taken r.serving.sent
  | .ok (.closed s) => .closed s.taken s.sent
  | .ok (.waiting s) => .waiting s.taken s.sent

theorem report_of_agree {x : Except Raised Left} {y : Except Python.Raised Python.Left}
    (h : Agree SameRaise (SameLeft sends) x y) : report x = explicitReport y := by
  cases h with
  | error he => simp only [report, explicitReport, he.thrown, he.taken, he.sent]
  | ok hl =>
      cases hl with
      | waiting h => simp only [report, explicitReport, h.taken, h.sent]
      | closed h => simp only [report, explicitReport, h.taken, h.sent]

/-- One stream in any two segmentations, any results of `send`, and behind the stream the
same end of it, error or lasting silence. The coroutines send the same bytes as the
explicit machine. If one of the two raises, so does the other, at the same byte. -/
theorem coroutines_like_explicit_machine (sends : ℕ → SysResult Unit)
    {bufs bufs' : List (List UInt8)} (hbufs : ∀ buf ∈ bufs, buf ≠ [])
    (hbufs' : ∀ buf ∈ bufs', buf ≠ []) (hstream : bufs.flatten = bufs'.flatten)
    (last : List (SysResult (List UInt8))) :
    report (serveConnection sends (bufs.map .ok ++ last)) =
      explicitReport (Python.serveConnection sends (bufs'.map .ok ++ last)) := by
  rw [report_of_agree (serveConnection_agree sends _)]
  unfold Python.serveConnection
  simp only [loop_segments _ hbufs, loop_segments _ hbufs', hstream]

/-- A frame with the byte `255`, cut in two ways: both raise at the third byte. -/
theorem coroutines_like_explicit_machine_cut :
    report (serveConnection obliging [.ok [94], .ok [97, 255, 36], .ok []]) =
      explicitReport (Python.serveConnection obliging [.ok [94, 97], .ok [255, 36], .ok []]) ∧
    report (serveConnection obliging [.ok [94], .ok [97, 255, 36], .ok []]) =
      .raised (.exception .valueError) 3 ['*'.toUInt8, 98] :=
  ⟨@coroutines_like_explicit_machine obliging [[94], [97, 255, 36]] [[94, 97], [255, 36]]
    (by simp) (by simp) rfl [.ok []], by decide⟩

end ConcurrentServers.Python.Coroutine

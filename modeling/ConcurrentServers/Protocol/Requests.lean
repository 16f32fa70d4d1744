import ConcurrentServers.Protocol.ServeConnection

/-!
# What `serve_connection` counts as a request

The function counts the blocks that `recv` returns, and the client counts the
messages that it sends. The blocks are the messages cut anew by the kernel.
-/

namespace ConcurrentServers.Protocol

open Systems

/-! ## Counting blocks -/

/-- The bytes of an answer, if it has some. -/
def Answer.block : Answer → List (List UInt8)
  | .recv (.ok (b :: data)) => [b :: data]
  | _ => []

/-- The blocks in which the kernel delivers the stream. -/
def blocks (as : List Answer) : List (List UInt8) := as.flatMap Answer.block

/-- Whether a block is being served that is not counted yet. -/
def Control.serving : Control → ℕ
  | .transform _ _ _ | .sendReply _ => 1
  | _ => 0

def Control.Returns (k : Control) : Prop := ∃ r, k = .returned r

/-- A step counts the block that it ends and starts serving the block that it
delivers. What was being served at a failure is never counted. -/
structure Counts (c c' : Connection) (bs : List (List UInt8)) : Prop where
  received : c'.received = c.received ++ bs.flatten
  observed : ¬c'.control.Returns →
    c'.observed + c'.control.serving = c.observed + c.control.serving + bs.length

variable {c c' c'' : Connection} {a : Answer}

theorem Counts.refl (c : Connection) : Counts c c [] where
  received := by simp
  observed _ := by simp

theorem counts_of_eq (hreceived : c'.received = c.received) (hobserved : c'.observed = c.observed)
    (hserving : ¬c'.control.Returns → c'.control.serving = c.control.serving) :
    Counts c c' [] where
  received := by simp [hreceived]
  observed hc' := by simp [hobserved, hserving hc']

theorem counts_of_returned {r : ServeResult} (hreceived : c'.received = c.received)
    (hc' : c'.control = .returned r) : Counts c c' [] where
  received := by simp [hreceived]
  observed hnot := absurd ⟨r, hc'⟩ hnot

theorem counts_requestObserved (hserving : c.control.serving = 1) (accepted : List UInt8) :
    Counts c { c with accepted := accepted, control := .recv, observed := c.observed + 1 } [] where
  received := by simp
  observed _ := by
    rw [hserving]
    rfl

/-- A round of the loop leaves the records alone. -/
theorem exists_transformByte_eq (c : Connection) (len i nsend : ℕ) :
    ∃ state recvbuf nsend', c.transformByte len i nsend = { c with
      state := state, recvbuf := recvbuf, control := .transform len (i + 1) nsend' } := by
  unfold Connection.transformByte
  cases c.state with
  | waitForMsg => exact ⟨_, _, nsend, rfl⟩
  | inMsg =>
      dsimp only
      split
      · exact ⟨_, _, nsend, rfl⟩
      · exact ⟨_, _, nsend + 1, rfl⟩

theorem counts_transformByte {len i nsend : ℕ} (hserving : c.control.serving = 1) :
    Counts c (c.transformByte len i nsend) [] := by
  obtain ⟨state, recvbuf, nsend', heq⟩ := exists_transformByte_eq c len i nsend
  rw [heq]
  exact counts_of_eq rfl rfl fun _ => hserving.symm

theorem counts_step (hs : c.step a = some c') : Counts c c' a.block := by
  have hmove := moves_of_step hs
  generalize hc : c.control = k at hmove
  have hserving : c.control.serving = k.serving := congrArg _ hc
  cases hmove with
  | ackAgain hallow hk => exact counts_of_eq rfl rfl fun _ => hserving.symm
  | ackDone hallow hk => exact counts_of_eq rfl rfl fun _ => hserving.symm
  | ackFailed hallow hk => exact counts_of_returned rfl rfl
  | replyAgain hallow hk => exact counts_of_eq rfl rfl fun _ => hserving.symm
  | replyDone hallow hk => exact counts_requestObserved hserving _
  | replyFailed hallow hk => exact counts_of_returned rfl rfl
  | interrupted => exact .refl c
  | recvFailed he => exact counts_of_returned rfl rfl
  | closed => exact counts_of_returned rfl rfl
  | block hlen =>
      refine ⟨by simp [Answer.block], fun _ => ?_⟩
      rw [hserving]
      rfl
  | byte hi => exact counts_transformByte hserving
  | reply hi hpos => exact counts_of_eq rfl rfl fun _ => hserving.symm
  | silent hi hzero => exact counts_requestObserved hserving _

theorem step_of_returned (hc : c.control.Returns) : c.step a = none := by
  obtain ⟨r, hr⟩ := hc
  cases a <;> simp [Connection.step, hr]

theorem Counts.trans {bs bs' : List (List UInt8)} (h : Counts c c' bs) (h' : Counts c' c'' bs')
    (hc' : ¬c'.control.Returns) : Counts c c'' (bs ++ bs') where
  received := by rw [h'.received, h.received, List.append_assoc, List.flatten_append]
  observed hc'' := by
    have hfirst := h.observed hc'
    have hsecond := h'.observed hc''
    rw [List.length_append]
    omega

theorem counts_run {as : List Answer} (hrun : serveConnection.run c as = some c') :
    Counts c c' (blocks as) := by
  induction as generalizing c with
  | nil =>
      cases hrun
      exact .refl _
  | cons a as ih =>
      obtain ⟨d, hd, hrun⟩ := Option.bind_eq_some_iff.mp hrun
      have hstep : Counts c d a.block := counts_step hd
      by_cases hreturns : d.control.Returns
      · -- Behind a return there is no other step.
        cases as with
        | nil =>
            cases hrun
            simpa [blocks] using hstep
        | cons a' as =>
            obtain ⟨e, he, -⟩ := Option.bind_eq_some_iff.mp hrun
            cases he.symm.trans (step_of_returned hreturns)
      · exact hstep.trans (ih hrun) hreturns

/-! ## Every stream is served to its end -/

/-- `c` comes to `c'` while the kernel delivers `bs`. -/
def Delivers (c : Connection) (bs : List (List UInt8)) (c' : Connection) : Prop :=
  ∃ as, serveConnection.run c as = some c' ∧ blocks as = bs

theorem Delivers.trans {bs bs' : List (List UInt8)} (h : Delivers c bs c')
    (h' : Delivers c' bs' c'') : Delivers c (bs ++ bs') c'' := by
  obtain ⟨as, hrun, rfl⟩ := h
  obtain ⟨as', hrun', rfl⟩ := h'
  exact ⟨as ++ as', Machine.run_append hrun hrun', List.flatMap_append⟩

theorem delivers_step (hs : c.step a = some c') : Delivers c a.block c' := by
  refine ⟨[a], ?_, by simp [blocks]⟩
  exact Option.bind_eq_some_iff.mpr ⟨c', hs, rfl⟩

/-- The kernel can accept all that `send_all` is given at once. -/
theorem step_sendReply {buf : List UInt8} (hc : c.control = .sendReply ⟨buf, 0⟩) :
    c.step (.send (.ok buf.length)) =
      some (Connection.requestObserved { c with accepted := c.accepted ++ buf }) := by
  simp [Connection.step, hc, SendAll.allows, SendAll.round, SendAll.taken]

theorem exists_delivers_transform {len i nsend : ℕ} (hc : c.control = .transform len i nsend) :
    ∃ c', Delivers c [] c' ∧ c'.control = .recv := by
  -- Induction on the rounds that are left. The kernel accepts the reply at once.
  induction hleft : len - i generalizing c i nsend with
  | zero =>
      have hend : ¬i < len := by omega
      by_cases hsend : nsend > 0
      · have htick : c.step .tick =
            some { c with control := .sendReply ⟨Buffer.slice c.recvbuf 0 nsend, 0⟩ } := by
          simp [Connection.step, hc, hend, hsend]
        exact ⟨_, (delivers_step htick).trans (delivers_step (step_sendReply rfl)), rfl⟩
      · have htick : c.step .tick = some c.requestObserved := by
          simp [Connection.step, hc, hend, hsend]
        exact ⟨_, delivers_step htick, rfl⟩
  | succ left ih =>
      have htick : c.step .tick = some (c.transformByte len i nsend) := by
        simp [Connection.step, hc, show i < len by omega]
      obtain ⟨state, recvbuf, nsend', heq⟩ := exists_transformByte_eq c len i nsend
      obtain ⟨c', hdelivers, hc'⟩ := ih (congrArg Connection.control heq) (by omega)
      exact ⟨c', (delivers_step htick).trans hdelivers, hc'⟩

theorem exists_delivers_block {b : UInt8} {data : List UInt8} (hc : c.control = .recv)
    (hlength : (b :: data).length ≤ recvbufSize) :
    ∃ c', Delivers c [b :: data] c' ∧ c'.control = .recv := by
  have hrecv : c.step (.recv (.ok (b :: data))) = some { c with
      recvbuf := Buffer.overwrite c.recvbuf (b :: data)
      received := c.received ++ b :: data
      chunk := b :: data
      control := .transform (b :: data).length 0 0 } := by
    simp only [Connection.step, hc]
    exact if_pos hlength
  obtain ⟨c', hdelivers, hc'⟩ := exists_delivers_transform (c := { c with
      recvbuf := Buffer.overwrite c.recvbuf (b :: data)
      received := c.received ++ b :: data
      chunk := b :: data
      control := .transform (b :: data).length 0 0 }) rfl
  exact ⟨c', (delivers_step hrecv).trans hdelivers, hc'⟩

theorem exists_delivers {bs : List (List UInt8)} (hc : c.control = .recv)
    (hbs : ∀ block ∈ bs, block ≠ [] ∧ block.length ≤ recvbufSize) :
    ∃ c', Delivers c bs c' ∧ c'.control = .recv := by
  induction bs generalizing c with
  | nil => exact ⟨c, ⟨[], rfl, rfl⟩, hc⟩
  | cons block bs ih =>
      obtain ⟨hne, hlength⟩ := hbs block List.mem_cons_self
      obtain ⟨b, data, rfl⟩ := List.exists_cons_of_ne_nil hne
      obtain ⟨d, hblock, hd⟩ := exists_delivers_block hc hlength
      obtain ⟨c', hrest, hc'⟩ := ih hd fun block hblock =>
        hbs block (List.mem_cons_of_mem _ hblock)
      exact ⟨c', hblock.trans hrest, hc'⟩

/-- Whatever the blocks are, the function can serve them to the end of the stream. -/
theorem exists_delivers_serveOk (state : ProcessingState)
    (recvbuf : List.Vector UInt8 recvbufSize) {bs : List (List UInt8)}
    (hbs : ∀ block ∈ bs, block ≠ [] ∧ block.length ≤ recvbufSize) :
    ∃ c, Delivers (.entry state recvbuf) bs c ∧ c.control = .returned .serveOk := by
  have hack : Delivers (.entry state recvbuf) [] { Connection.entry state recvbuf with
      control := .recv, state := .waitForMsg, accepted := ['*'.toUInt8] } :=
    delivers_step (a := .send (.ok 1)) rfl
  obtain ⟨d, hdelivers, hd⟩ := exists_delivers (c := { Connection.entry state recvbuf with
      control := .recv, state := .waitForMsg, accepted := ['*'.toUInt8] }) rfl hbs
  have hend : d.step (.recv (.ok [])) = some { d with control := .returned .serveOk } := by
    simp only [Connection.step, hd]
  have hall := (hack.trans hdelivers).trans (delivers_step hend)
  rw [List.nil_append] at hall
  exact ⟨_, by rwa [← List.append_nil bs], rfl⟩

/-! ## Counting messages -/

/-- A message of the client. -/
def message (payload : List UInt8) : List UInt8 :=
  '^'.toUInt8 :: payload ++ ['$'.toUInt8]

/-- Back in `recv`, all messages of the client having been received, the function has
counted as many requests as the client exactly if the kernel has delivered them in as
many blocks. -/
theorem requests_agree_iff (payloads : List (List UInt8)) {state : ProcessingState}
    {recvbuf : List.Vector UInt8 recvbufSize} {as : List Answer}
    (hrun : serveConnection.run (.entry state recvbuf) as = some c) (hc : c.control = .recv)
    (hreceived : c.received = (payloads.map message).flatten) :
    (blocks as).flatten = (payloads.map message).flatten ∧
      (c.observed = payloads.length ↔ (blocks as).length = payloads.length) := by
  have hcounts := counts_run hrun
  have hnot : ¬c.control.Returns := by
    rintro ⟨r, hr⟩
    cases hc.symm.trans hr
  have hobserved := hcounts.observed hnot
  have hstream := hcounts.received
  rw [hc] at hobserved
  simp only [Control.serving, Connection.entry, Nat.zero_add, Nat.add_zero] at hobserved
  simp only [Connection.entry, List.nil_append] at hstream
  rw [← hstream, hobserved]
  exact ⟨hreceived, Iff.rfl⟩

/-- Two messages, each in one block. -/
def wholeMessages : List Answer :=
  [.send (.ok 1), .recv (.ok (message ['a'.toUInt8])), .tick, .tick, .tick, .tick, .send (.ok 1),
    .recv (.ok (message ['b'.toUInt8])), .tick, .tick, .tick, .tick, .send (.ok 1)]

theorem requests_agree_iff_wholeMessages :
    ∃ c, serveConnection.run (.entry .waitForMsg (List.Vector.replicate _ 0)) wholeMessages =
        some c ∧ c.control = .recv ∧ c.observed = 2 ∧
      (c.observed = 2 ↔ (blocks wholeMessages).length = 2) := by
  refine ⟨_, rfl, rfl, rfl, ?_⟩
  exact (requests_agree_iff [['a'.toUInt8], ['b'.toUInt8]] rfl rfl rfl).2

/-- One message that arrives in two blocks, with its echo sent behind the first. -/
def cutMessage : List Answer :=
  [.send (.ok 1), .recv (.ok ['^'.toUInt8, 'a'.toUInt8]), .tick, .tick, .tick, .send (.ok 1),
    .recv (.ok ['$'.toUInt8]), .tick, .tick]

theorem cut_message_counted_twice :
    ∃ c, serveConnection.run (.entry .waitForMsg (List.Vector.replicate _ 0)) cutMessage = some c ∧
      c.control = .recv ∧ c.received = message ['a'.toUInt8] ∧
      c.accepted = ['*'.toUInt8, 'b'.toUInt8] ∧ c.observed = 2 :=
  ⟨_, rfl, rfl, rfl, rfl, rfl⟩

end ConcurrentServers.Protocol

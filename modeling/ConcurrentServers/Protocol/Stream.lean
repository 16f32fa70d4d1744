import ConcurrentServers.Protocol.ServeConnection

/-!
# The reply stream of `serve_connection`

`Follows` gives for each control point how the accepted bytes, the buffer and
the parser state are tied to the received stream. In the loop the write index
never passes the read index, so what is still to be read is what `recv` left
there, and what has been written is the output of the framing machine on what
has been read.
-/

namespace ConcurrentServers.Protocol

open Systems

def ProcessingState.mode : ProcessingState → Frame.Mode
  | .waitForMsg => .outside
  | .inMsg => .inside

/-! ## `send_all` -/

/-- `accepted` and what `send_all` still holds make up the stream `total`. -/
structure SendAll.Owes (k : SendAll) (accepted total : List UInt8) : Prop where
  sent_lt : k.sent < k.buf.length
  split : accepted ++ k.buf.drop k.sent = total

/-- A round either keeps the debt, with the accepted bytes moved over, or has
paid it when it returns. A failed round has accepted a part of it. -/
theorem SendAll.Owes.round {k : SendAll} {accepted total : List UInt8}
    (h : k.Owes accepted total) {r : SysResult ℕ} (hr : k.allows r = true) :
    match k.round r with
    | .again k' => k'.Owes (accepted ++ k.taken r) total
    | .done => accepted ++ k.taken r = total
    | .failed _ => accepted ++ k.taken r <+: total := by
  cases r with
  | error e =>
      have htaken : accepted ++ k.taken (.error e) = accepted := List.append_nil _
      by_cases he : e = .eintr
      · subst he
        simp only [SendAll.round, if_true, htaken]
        exact h
      · simp only [SendAll.round, he, if_false, htaken]
        exact ⟨_, h.split⟩
  | ok n =>
      have hn : n ≤ k.buf.length - k.sent := by simpa [SendAll.allows] using hr
      have hsplit : (accepted ++ k.taken (.ok n)) ++ k.buf.drop (k.sent + n) = total := by
        rw [← h.split, List.append_assoc, ← List.drop_drop]
        congr 1
        exact List.take_append_drop n _
      by_cases hlt : k.sent + n < k.buf.length
      · simp only [SendAll.round, hlt, if_true]
        exact ⟨hlt, hsplit⟩
      · simp only [SendAll.round, hlt, if_false]
        rw [List.drop_eq_nil_of_le (by omega), List.append_nil] at hsplit
        exact hsplit

section Round

variable {k k' : SendAll} {accepted total : List UInt8} {r : SysResult ℕ} {e : Errno}

theorem SendAll.Owes.again (h : k.Owes accepted total) (hr : k.allows r = true)
    (hk : k.round r = .again k') : k'.Owes (accepted ++ k.taken r) total := by
  have hround := h.round hr
  rwa [hk] at hround

theorem SendAll.Owes.done (h : k.Owes accepted total) (hr : k.allows r = true)
    (hk : k.round r = .done) : accepted ++ k.taken r = total := by
  have hround := h.round hr
  rwa [hk] at hround

theorem SendAll.Owes.failed (h : k.Owes accepted total) (hr : k.allows r = true)
    (hk : k.round r = .failed e) : accepted ++ k.taken r <+: total := by
  have hround := h.round hr
  rwa [hk] at hround

end Round

/-! ## The loop over the buffer -/

/-- The loop has read `i` of the `len` bytes and written `nsend` of them. -/
structure Transforming (c : Connection) (len i nsend : ℕ) : Prop where
  nsend_le : nsend ≤ i
  i_le : i ≤ len
  len_le : len ≤ recvbufSize
  length_chunk : c.chunk.length = len
  unread : Buffer.slice c.recvbuf i len = c.chunk.drop i
  stream : ∃ pre, c.received = pre ++ c.chunk ∧ c.accepted = Frame.reply pre ∧
    c.state.mode = Frame.machine.state .outside (pre ++ c.chunk.take i) ∧
    Buffer.slice c.recvbuf 0 nsend =
      Frame.machine.output (Frame.machine.state .outside pre) (c.chunk.take i)

/-- One round of the loop. -/
theorem Transforming.step {c : Connection} {len i nsend : ℕ} (h : Transforming c len i nsend)
    (hi : i < len) : ∃ nsend', (c.transformByte len i nsend).control =
        .transform len (i + 1) nsend' ∧
      Transforming (c.transformByte len i nsend) len (i + 1) nsend' := by
  obtain ⟨pre, hrecv, hacc, hmode, hout⟩ := h.stream
  have hle := h.nsend_le
  have hsize := h.len_le
  -- The byte is still the received one, since every write so far went to a smaller index.
  obtain ⟨b, hb, hslice⟩ := Buffer.slice_cons c.recvbuf hi h.len_le
  have hget : c.recvbuf.1.getD i 0 = b := by simp [List.getD_eq_getElem?_getD, hb]
  have hdrop : c.chunk.drop i = b :: Buffer.slice c.recvbuf (i + 1) len :=
    h.unread.symm.trans hslice
  have hrest : Buffer.slice c.recvbuf (i + 1) len = c.chunk.drop (i + 1) := by
    rw [← List.drop_drop, hdrop]
    rfl
  have htake : c.chunk.take (i + 1) = c.chunk.take i ++ [b] := by
    rw [List.take_add, hdrop]
    rfl
  -- What the machine does with the byte, from the mode that the loop is in.
  have hmode' : Frame.machine.state .outside (pre ++ c.chunk.take (i + 1)) =
      Frame.machine.next c.state.mode b := by
    rw [htake, ← List.append_assoc, Transducer.state_append, hmode]
    rfl
  have hout' : Frame.machine.output (Frame.machine.state .outside pre) (c.chunk.take (i + 1)) =
      Buffer.slice c.recvbuf 0 nsend ++ Frame.machine.emit c.state.mode b := by
    rw [htake, Transducer.output_append, hout, hmode, Transducer.state_append]
    simp
  have hi' : i + 1 ≤ len := hi
  unfold Connection.transformByte
  rw [hget]
  cases hst : c.state with
  | waitForMsg =>
      rw [hst] at hmode' hout'
      refine ⟨nsend, rfl, Nat.le_succ_of_le hle, hi', hsize, h.length_chunk, hrest, pre, hrecv,
        hacc, ?_, ?_⟩
      · rw [hmode']
        by_cases hb : b = '^'.toUInt8 <;>
          simp [hb, ProcessingState.mode, Frame.machine, Frame.opener]
      · rw [hout']
        exact (List.append_nil _).symm
  | inMsg =>
      rw [hst] at hmode' hout'
      by_cases hb : b = '$'.toUInt8
      · simp only [hb, if_true]
        refine ⟨nsend, rfl, Nat.le_succ_of_le hle, hi', hsize, h.length_chunk, hrest, pre, hrecv,
          hacc, ?_, ?_⟩
        · rw [hmode']
          simp [hb, ProcessingState.mode, Frame.machine, Frame.closer]
        · rw [hout']
          simp [hb, ProcessingState.mode, Frame.machine, Frame.closer]
      · simp only [hb, if_false]
        refine ⟨nsend + 1, rfl, Nat.succ_le_succ hle, hi', hsize, h.length_chunk, ?_, pre, hrecv,
          hacc, ?_, ?_⟩
        · rw [← hrest]
          exact Buffer.slice_store_of_lt c.recvbuf (b + 1) (Nat.lt_succ_of_le hle)
        · rw [hmode']
          simp [hb, ProcessingState.mode, Frame.machine, Frame.closer]
        · rw [hout', Buffer.slice_store_succ c.recvbuf (b + 1) (Nat.zero_le _) (by omega)]
          simp [hb, ProcessingState.mode, Frame.machine, Frame.closer]

/-- Behind the loop the whole block has been answered into the buffer. -/
theorem Transforming.finish {c : Connection} {len i nsend : ℕ} (h : Transforming c len i nsend)
    (hi : ¬i < len) : c.state.mode = Frame.machine.state .outside c.received ∧
      c.accepted ++ Buffer.slice c.recvbuf 0 nsend = Frame.reply c.received := by
  obtain ⟨pre, hrecv, hacc, hmode, hout⟩ := h.stream
  have htake : c.chunk.take i = c.chunk := List.take_of_length_le (by rw [h.length_chunk]; omega)
  rw [htake] at hmode hout
  rw [hrecv, hmode, hacc, hout, Frame.reply_append]
  exact ⟨rfl, rfl⟩

/-! ## Every control point -/

/-- What holds at each control point of `serve_connection`. -/
def Connection.Follows (c : Connection) : Prop :=
  match c.control with
  | .sendAck k => c.received = [] ∧ k.Owes c.accepted (Frame.reply c.received)
  | .recv => c.state.mode = Frame.machine.state .outside c.received ∧
      c.accepted = Frame.reply c.received
  | .transform len i nsend => Transforming c len i nsend
  | .sendReply k => c.state.mode = Frame.machine.state .outside c.received ∧
      k.Owes c.accepted (Frame.reply c.received)
  | .returned .serveOk => c.accepted = Frame.reply c.received
  | .returned _ => c.accepted <+: Frame.reply c.received

theorem Connection.follows_entry (state : ProcessingState)
    (recvbuf : List.Vector UInt8 recvbufSize) : (entry state recvbuf).Follows :=
  ⟨rfl, by simp, rfl⟩

theorem Connection.follows_returned {c : Connection} {r : ServeResult}
    (hc : c.control = .returned r) (hr : r ≠ .serveOk)
    (h : c.accepted <+: Frame.reply c.received) : c.Follows := by
  unfold Follows
  rw [hc]
  cases r with
  | serveOk => exact absurd rfl hr
  | servePeerReset => exact h
  | serveIoError => exact h

theorem classifyErrno_ne_ok (e : Errno) : classifyErrno e ≠ .serveOk := by
  unfold classifyErrno
  split <;> simp

theorem Connection.Follows.moves {c c' : Connection} {a : Answer} (h : c.Follows)
    (hmove : Moves c c.control a c') : c'.Follows := by
  have hat := h
  unfold Follows at hat
  generalize c.control = k at hat hmove
  cases hmove with
  | ackAgain hallow hk => exact ⟨hat.1, hat.2.again hallow hk⟩
  | ackDone hallow hk =>
      refine ⟨?_, hat.2.done hallow hk⟩
      change Frame.Mode.outside = Frame.machine.state .outside c.received
      rw [hat.1]
      rfl
  | ackFailed hallow hk =>
      exact follows_returned rfl (classifyErrno_ne_ok _) (hat.2.failed hallow hk)
  | replyAgain hallow hk => exact ⟨hat.1, hat.2.again hallow hk⟩
  | replyDone hallow hk => exact ⟨hat.1, hat.2.done hallow hk⟩
  | replyFailed hallow hk =>
      exact follows_returned rfl (classifyErrno_ne_ok _) (hat.2.failed hallow hk)
  | interrupted => exact h
  | recvFailed he =>
      apply follows_returned rfl (classifyErrno_ne_ok _)
      exact hat.2 ▸ List.prefix_rfl
  | closed => exact hat.2
  | block hlen =>
      obtain ⟨hmode, hacc⟩ := hat
      refine ⟨le_refl 0, Nat.zero_le _, hlen, rfl, ?_, c.received, rfl, hacc, ?_, ?_⟩
      · exact Buffer.slice_overwrite c.recvbuf hlen
      · simpa using hmode
      · simp
  | byte hi =>
      obtain ⟨nsend', hcontrol, hnext⟩ := Transforming.step hat hi
      unfold Follows
      rw [hcontrol]
      exact hnext
  | reply hi hpos =>
      obtain ⟨hmode, hreply⟩ := Transforming.finish hat hi
      refine ⟨hmode, ?_, hreply⟩
      have hle := hat.nsend_le.trans (hat.i_le.trans hat.len_le)
      simpa [Buffer.length_slice _ hle] using hpos
  | silent hi hzero =>
      obtain ⟨hmode, hreply⟩ := Transforming.finish hat hi
      have hall : c.accepted = Frame.reply c.received := by
        simpa [Nat.eq_zero_of_not_pos hzero] using hreply
      exact ⟨hmode, hall⟩

theorem reachable_follows {c : Connection} (h : serveConnection.Reachable c) : c.Follows := by
  refine Machine.Reachable.invariant (P := Connection.Follows) ?_ ?_ h
  · rintro _ ⟨state, recvbuf, rfl⟩
    exact Connection.follows_entry state recvbuf
  · intro c a c' _ hc hstep
    exact hc.moves (moves_of_step hstep)

theorem Connection.Follows.accepted_prefix {c : Connection} (h : c.Follows) :
    c.accepted <+: Frame.reply c.received := by
  unfold Follows at h
  cases hc : c.control with
  | sendAck k =>
      simp only [hc] at h
      exact ⟨_, h.2.split⟩
  | recv =>
      simp only [hc] at h
      exact h.2 ▸ List.prefix_rfl
  | transform len i nsend =>
      simp only [hc] at h
      obtain ⟨pre, hrecv, hacc, _⟩ := h.stream
      rw [hrecv, hacc]
      exact Frame.reply_prefix (List.prefix_append _ _)
  | sendReply k =>
      simp only [hc] at h
      exact ⟨_, h.2.split⟩
  | returned res =>
      simp only [hc] at h
      cases res with
      | serveOk => exact h ▸ List.prefix_rfl
      | servePeerReset => exact h
      | serveIoError => exact h

theorem Connection.Follows.accepted_eq {c : Connection} (h : c.Follows)
    (hc : c.control = .recv ∨ c.control = .returned .serveOk) :
    c.accepted = Frame.reply c.received := by
  unfold Follows at h
  rcases hc with hc | hc
  · rw [hc] at h
    exact h.2
  · rw [hc] at h
    exact h

/-- At every moment the accepted bytes are a prefix of `*` and the reply to the
received stream, and all of it at every `recv` and behind `SERVE_OK`. In the
loop the unread part of `recvbuf` is the unread part of the received block. -/
theorem serve_connection_stream {c : Connection} (h : serveConnection.Reachable c) :
    c.accepted <+: '*'.toUInt8 :: Frame.transform c.received ∧
    (c.control = .recv → c.accepted = '*'.toUInt8 :: Frame.transform c.received) ∧
    (c.control = .returned .serveOk →
      c.accepted = '*'.toUInt8 :: Frame.transform c.received) ∧
    ∀ len i nsend, c.control = .transform len i nsend →
      nsend ≤ i ∧ i ≤ len ∧ c.chunk.length = len ∧ c.chunk <:+ c.received ∧
        ∀ k, i ≤ k → k < len → c.recvbuf.1[k]? = c.chunk[k]? := by
  have hfollows := reachable_follows h
  refine ⟨hfollows.accepted_prefix, ?_, ?_, ?_⟩
  · intro hc
    exact hfollows.accepted_eq (Or.inl hc)
  · intro hc
    exact hfollows.accepted_eq (Or.inr hc)
  · intro len i nsend hc
    unfold Connection.Follows at hfollows
    rw [hc] at hfollows
    obtain ⟨pre, hrecv, _⟩ := hfollows.stream
    refine ⟨hfollows.nsend_le, hfollows.i_le, hfollows.length_chunk, ⟨pre, hrecv.symm⟩, ?_⟩
    intro k hik hk
    have hkey := congrArg (fun l => l[k - i]?) hfollows.unread
    simp only [Buffer.slice, List.getElem?_drop] at hkey
    rwa [Nat.add_sub_of_le hik, List.getElem?_take_of_lt hk] at hkey

/-- A frame cut over two blocks, with an interrupted call and short writes. -/
def splitRequest : List Answer :=
  [.send (.error .eintr), .send (.ok 1), .recv (.error .eintr),
    .recv (.ok (['^', 'a', 'b'].map Char.toUInt8)), .tick, .tick, .tick, .tick,
    .send (.ok 1), .send (.ok 0), .send (.ok 1),
    .recv (.ok (['c', '$'].map Char.toUInt8)), .tick, .tick, .tick,
    .send (.ok 1), .recv (.ok [])]

theorem serve_connection_stream_splitRequest :
    ∃ c, serveConnection.run (.entry .inMsg (List.Vector.replicate _ 0)) splitRequest = some c ∧
      c.control = .returned .serveOk ∧ c.accepted = ['*', 'b', 'c', 'd'].map Char.toUInt8 ∧
      c.accepted = '*'.toUInt8 :: Frame.transform c.received := by
  refine ⟨_, rfl, rfl, rfl, ?_⟩
  apply (serve_connection_stream _).2.2.1 rfl
  exact Machine.reachable_of_run splitRequest ⟨_, _, rfl⟩ rfl

end ConcurrentServers.Protocol

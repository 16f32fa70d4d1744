import ConcurrentServers.Uv.Moves
import ConcurrentServers.PeerState.Stream

/-!
# What the callbacks guarantee, and when

The one `sendbuf` of a client is shared by every write that is still queued, by
the next read and by the completion callback, and both completion callbacks end
the process on any error. The results say under which order of callbacks this
is harmless.
-/

namespace ConcurrentServers.Uv

open Systems

variable {s s' : Server} {client client' : Client} {l : Label} {c : ℕ}

/-! ## The reply stream -/

/-- Bytes are delivered only when no write waits for its completion. -/
def readsAlone (client : Client) : Label → Prop
  | .read _ (.bytes data) _ => data ≠ [] → client.writes = []
  | _ => True

/-- All that was staged has been transmitted, and its completion reported. -/
structure Idle (client : Client) : Prop where
  writes : client.writes = []
  sendbufEnd : client.peer.sendbufEnd = 0
  stream : client.transmitted = Frame.reply client.received
  state_ne : client.peer.state ≠ .initialAck

/-- The one queued write covers all that is staged. -/
structure InFlight (client : Client) (w : Write Callback) : Prop where
  writes : client.writes = [w]
  len : w.len = client.peer.sendbufEnd
  off_le : w.off ≤ w.len
  stream : client.transmitted ++ Buffer.slice client.peer.sendbuf w.off w.len =
    Frame.reply client.received
  kind : w.kind = .onWroteInitAck ∧ client.peer.state = .initialAck ∧ client.reading = false ∨
    w.kind = .onWroteBuf ∧ client.peer.state ≠ .initialAck

structure Tracks (client : Client) : Prop where
  mode : client.peer.state.mode = Frame.machine.state .outside client.received
  writes : Idle client ∨ ∃ w, InFlight client w

theorem InFlight.stream_of_transmitted {w : Write Callback} (h : InFlight client w)
    (hw : w.Transmitted) : client.transmitted = Frame.reply client.received := by
  have hstream := h.stream
  rwa [hw, Buffer.slice_self, List.append_nil] at hstream

theorem tracks_greeted (sendbuf : List.Vector UInt8 sendbufSize) : Tracks (.greeted sendbuf) := by
  refine ⟨rfl, Or.inr ⟨⟨.onWroteInitAck, 1, 0⟩, rfl, rfl, Nat.zero_le _, ?_,
    Or.inl ⟨rfl, rfl, rfl⟩⟩⟩
  exact Buffer.slice_store_succ sendbuf '*'.toUInt8 (le_refl 0) (by decide)

theorem Tracks.transmit {k : ℕ} {r : List (Write Callback) × List UInt8} (h : Tracks client)
    (hr : Write.transmit client.peer.sendbuf k client.writes = some r) :
    Tracks { client with writes := r.1, transmitted := client.transmitted ++ r.2 } := by
  refine ⟨h.mode, ?_⟩
  rcases h.writes with hidle | ⟨w, hw⟩
  · rw [hidle.writes] at hr
    cases hr
  · rw [hw.writes] at hr
    obtain ⟨hk, rfl⟩ := Write.transmit_singleton hr
    refine Or.inr ⟨{ w with off := w.off + k }, rfl, hw.len, hk, ?_, hw.kind⟩
    show (client.transmitted ++ _) ++ _ = _
    rw [List.append_assoc, Buffer.slice_append_slice _ (Nat.le_add_right _ _) hk]
    exact hw.stream

/-- A completion finds the one write that it is for. -/
theorem Tracks.inFlight {w : Write Callback} {ws : List (Write Callback)} (h : Tracks client)
    (hwrites : client.writes = w :: ws) : InFlight client w ∧ ws = [] := by
  rcases h.writes with hidle | ⟨w', hw⟩
  · rw [hidle.writes] at hwrites
    cases hwrites
  · have hboth := hw.writes.symm.trans hwrites
    cases hboth
    exact ⟨hw, rfl⟩

/-- A block that is read when nothing is staged is echoed as the machine says. -/
theorem Tracks.consume {data : List UInt8} {peer : PeerState} {ws : List (Write Callback)}
    (h : Tracks client) (hidle : Idle client)
    (hpeer : Uv.consume client.peer data = some peer)
    (hws : ws = if peer.sendbufEnd > 0 then client.writes ++ [⟨.onWroteBuf, peer.sendbufEnd, 0⟩]
      else client.writes) :
    Tracks { client with received := client.received ++ data, peer := peer, writes := ws } := by
  have hle : client.peer.sendbufEnd ≤ sendbufSize := hidle.sendbufEnd.trans_le (Nat.zero_le _)
  rcases consume_cases hidle.state_ne hle data with ⟨_, peer', hpeer', hfed⟩ | ⟨_, hnone⟩
  · cases hpeer.symm.trans hpeer'
    have hecho : Buffer.slice peer.sendbuf 0 peer.sendbufEnd = client.peer.echo data := by
      rw [hfed.staged, hidle.sendbufEnd, Buffer.slice_self, List.nil_append]
    have hreply : client.transmitted ++ client.peer.echo data =
        Frame.reply (client.received ++ data) := by
      rw [hidle.stream, Frame.reply_append, ← h.mode]
      rfl
    refine ⟨?_, ?_⟩
    · rw [hfed.mode, Transducer.state_append, h.mode]
    · rw [hidle.writes] at hws
      by_cases hpos : peer.sendbufEnd > 0
      · rw [if_pos hpos] at hws
        refine Or.inr ⟨⟨.onWroteBuf, peer.sendbufEnd, 0⟩, hws, rfl, Nat.zero_le _, ?_,
          Or.inr ⟨rfl, hfed.state_ne⟩⟩
        exact (congrArg _ hecho).trans hreply
      · rw [if_neg hpos] at hws
        have hzero : peer.sendbufEnd = 0 := Nat.eq_zero_of_not_pos hpos
        refine Or.inl ⟨hws, hzero, ?_, hfed.state_ne⟩
        rw [hzero, Buffer.slice_self] at hecho
        rwa [← hecho, List.append_nil] at hreply
  · cases hnone.symm.trans hpeer

theorem Tracks.moves (h : Tracks client) (hok : readsAlone client l)
    (hmoves : Moves client l client') : Tracks client' := by
  cases hmoves with
  | transmit c k hopen hr => exact h.transmit hr
  | wroteInitAck c hwrites hkind hw =>
      obtain ⟨hflight, rfl⟩ := h.inFlight hwrites
      refine ⟨?_, Or.inl ⟨rfl, rfl, hflight.stream_of_transmitted hw, by simp⟩⟩
      rcases hflight.kind with ⟨_, hstate, _⟩ | ⟨hbuf, _⟩
      · rw [← h.mode, hstate]
        rfl
      · cases hkind.symm.trans hbuf
  | wroteBuf c readStart hwrites hkind hw =>
      obtain ⟨hflight, rfl⟩ := h.inFlight hwrites
      refine ⟨h.mode, Or.inl ⟨rfl, rfl, hflight.stream_of_transmitted hw, ?_⟩⟩
      rcases hflight.kind with ⟨hack, _⟩ | ⟨_, hstate⟩
      · cases hkind.symm.trans hack
      · exact hstate
  | hangup c write hreads hr =>
      refine ⟨h.mode, h.writes.imp ?_ ?_⟩
      · exact fun hidle => ⟨hidle.writes, hidle.sendbufEnd, hidle.stream, hidle.state_ne⟩
      · exact fun ⟨w, hw⟩ => ⟨w, hw.writes, hw.len, hw.off_le, hw.stream, hw.kind⟩
  | nothing c write hreads => exact h
  | ignore c write hreads hne hstate =>
      rcases h.writes with hidle | ⟨w, hw⟩
      · exact absurd hstate hidle.state_ne
      · cases hw.writes.symm.trans (hok hne)
  | consume c write hreads hne hstate hpeer hws =>
      rcases h.writes with hidle | ⟨w, hw⟩
      · exact h.consume hidle hpeer hws
      · cases hw.writes.symm.trans (hok hne)

/-- As long as no read overtakes a completion, what was transmitted is a prefix
of the reply, and all of it when no write is queued. -/
theorem transmitted_prefix (h : server.ReachableBy (perClient readsAlone) (.running s))
    (hc : s.clients c = some client) :
    client.transmitted <+: '*'.toUInt8 :: Frame.transform client.received ∧
      (client.writes = [] →
        client.transmitted = '*'.toUInt8 :: Frame.transform client.received) := by
  have htracks : Tracks client := by
    refine clients_invariant tracks_greeted ?_ h hc
    intro client l client' hclient hok hs
    exact hclient.moves hok (moves_of_step hs)
  rcases htracks.writes with hidle | ⟨w, hw⟩
  · exact ⟨hidle.stream ▸ List.prefix_refl _, fun _ => hidle.stream⟩
  · refine ⟨⟨_, hw.stream⟩, fun hnil => ?_⟩
    cases hw.writes.symm.trans hnil

def blankBuffer : List.Vector UInt8 sendbufSize := List.Vector.replicate sendbufSize 0

def arrive (c : ℕ) : Label :=
  .connected c ⟨.ok (), .ok (), .ok (), .ok (), .ok ()⟩ blankBuffer

/-- A client whose acknowledgement is sent and reported. -/
def greet (c : ℕ) : List Label := [arrive c, .transmit c 1, .wrote c (.ok ()) (.ok ())]

def deliver (c : ℕ) (chars : List Char) : Label :=
  .read c (.bytes (chars.map Char.toUInt8)) (.ok ())

/-- The run of a greeting meets every condition that does not concern it. -/
theorem admits_greet {ok : Client → Label → Prop} (hok : ∀ l ∈ greet c, ∀ client, ok client l)
    (p : Process Server) : server.Admits (perClient ok) p (greet c) :=
  Machine.admits_of_forall (fun l hl p => Clients.perClient_of_forall (hok l hl) p) p

theorem transmitted_prefix_oneChunk :
    ∃ s, server.run (.running .start)
        (greet 0 ++ [deliver 0 ['^', 'a', 'b'], .transmit 0 1]) = some (.running s) ∧
      ∃ client, s.clients 0 = some client ∧ client.transmitted = ['*', 'b'].map Char.toUInt8 ∧
        client.transmitted <+: '*'.toUInt8 :: Frame.transform client.received := by
  refine ⟨_, rfl, _, rfl, rfl, ?_⟩
  have hquiet : ∀ l ∈ greet 0, ∀ client, readsAlone client l := by
    simp [greet, arrive, readsAlone]
  have hgreet := Machine.ReachableBy.run (M := server) (.init ⟨_, rfl, rfl⟩) (greet 0)
    (admits_greet hquiet _) rfl
  have hreach := hgreet.run [deliver 0 ['^', 'a', 'b'], .transmit 0 1] ⟨?_, ?_⟩ rfl
  · have hprefix := transmitted_prefix (c := 0) hreach rfl
    exact hprefix.1
  · rintro _ ⟨⟩ _
    rfl
  · exact fun p _ => ⟨Clients.perClient_of_forall (fun _ => trivial) p, fun _ _ => trivial⟩

/-- The second chunk arrives before the first reply is reported as written, and
is sent behind another copy of that reply. -/
theorem read_overtakes_completion :
    ∃ s client, server.run (.running .start)
        (greet 0 ++ [deliver 0 ['^', 'a'], .transmit 0 1, deliver 0 ['b'], .transmit 0 2]) =
          some (.running s) ∧
      s.clients 0 = some client ∧ client.received = ['^', 'a', 'b'].map Char.toUInt8 ∧
      client.transmitted = ['*', 'b', 'b', 'c'].map Char.toUInt8 ∧
      ¬client.transmitted <+: '*'.toUInt8 :: Frame.transform client.received := by
  refine ⟨_, _, rfl, rfl, rfl, rfl, ?_⟩
  decide

/-! ## The bounds of `sendbuf` -/

/-- The echo of every chunk that is delivered fits behind what is staged. -/
def chunksFit (client : Client) : Label → Prop
  | .read _ (.bytes data) _ => client.peer.Fits data
  | _ => True

structure InBounds (client : Client) : Prop where
  sendbufEnd_le : client.peer.sendbufEnd ≤ sendbufSize
  state_ne : client.reading = true → client.peer.state ≠ .initialAck

theorem inBounds_greeted (sendbuf : List.Vector UInt8 sendbufSize) :
    InBounds (.greeted sendbuf) where
  sendbufEnd_le := show 1 ≤ sendbufSize by decide
  state_ne h := nomatch h

theorem InBounds.moves (h : InBounds client) (hok : chunksFit client l)
    (hmoves : Moves client l client') : InBounds client' := by
  cases hmoves with
  | transmit c k hopen hr => exact ⟨h.sendbufEnd_le, h.state_ne⟩
  | wroteInitAck c hwrites hkind hw => exact ⟨Nat.zero_le _, by simp⟩
  | wroteBuf c readStart hwrites hkind hw => exact ⟨Nat.zero_le _, h.state_ne⟩
  | hangup c write hreads hr => exact ⟨h.sendbufEnd_le, h.state_ne⟩
  | nothing c write hreads => exact h
  | ignore c write hreads hne hstate => exact absurd hstate (h.state_ne hreads.1)
  | consume c write hreads hne hstate hpeer hws =>
      rcases consume_cases hstate h.sendbufEnd_le _ with ⟨hfits, peer', hpeer', hfed⟩ | ⟨hnot, _⟩
      · cases hpeer.symm.trans hpeer'
        exact ⟨hfed.sendbufEnd.trans_le hfits, fun _ => hfed.state_ne⟩
      · exact absurd hok hnot

/-- In such runs `sendbuf_end` stays within the buffer, and the next chunk passes
the assertion exactly if its echo fits. -/
theorem sendbuf_in_bounds (h : server.ReachableBy (perClient chunksFit) (.running s))
    (hc : s.clients c = some client) :
    client.peer.sendbufEnd ≤ sendbufSize ∧
      (client.Reads → ∀ data, (∃ peer, consume client.peer data = some peer ∧
        peer.sendbufEnd ≤ sendbufSize) ↔ client.peer.Fits data) := by
  have hbounds : InBounds client := by
    refine clients_invariant inBounds_greeted ?_ h hc
    intro client l client' hclient hok hs
    exact hclient.moves hok (moves_of_step hs)
  refine ⟨hbounds.sendbufEnd_le, fun hreads data => ?_⟩
  rcases consume_cases (hbounds.state_ne hreads.1) hbounds.sendbufEnd_le data with
    ⟨hfits, peer, hpeer, hfed⟩ | ⟨hnot, hnone⟩
  · exact ⟨fun _ => hfits, fun _ => ⟨peer, hpeer, hfed.sendbufEnd.trans_le hfits⟩⟩
  · constructor
    · rintro ⟨peer, hpeer, _⟩
      cases hnone.symm.trans hpeer
    · exact fun hfits => absurd hfits hnot

theorem sendbuf_in_bounds_oneByte :
    ∃ s, server.run (.running .start) (greet 0 ++ [deliver 0 ['^', 'a']]) = some (.running s) ∧
      ∃ client, s.clients 0 = some client ∧ client.peer.sendbufEnd = 1 ∧
        client.peer.sendbufEnd ≤ sendbufSize := by
  refine ⟨_, rfl, _, rfl, rfl, ?_⟩
  have hquiet : ∀ l ∈ greet 0, ∀ client, chunksFit client l := by
    simp [greet, arrive, chunksFit]
  have hgreet := Machine.ReachableBy.run (M := server) (.init ⟨_, rfl, rfl⟩) (greet 0)
    (admits_greet hquiet _) rfl
  refine (sendbuf_in_bounds (c := 0) (hgreet.run [deliver 0 ['^', 'a']] ⟨?_, ?_⟩ rfl) rfl).1
  · rintro _ ⟨⟩
    exact show 1 ≤ sendbufSize by decide
  · exact fun _ _ => trivial

theorem output_inside_replicate {b : UInt8} (hb : b ≠ Frame.closer) (n : ℕ) :
    Frame.machine.output .inside (List.replicate n b) = List.replicate n (b + 1) := by
  induction n with
  | zero => rfl
  | succ n ih =>
      have hemit : Frame.machine.emit .inside b = [b + 1] := if_neg hb
      have hnext : Frame.machine.next .inside b = .inside := if_neg hb
      rw [List.replicate_succ, Transducer.output_cons, hemit, hnext, ih]
      rfl

theorem step_of_not_fits {data : List UInt8} (hc : s.clients c = some client)
    (hreads : client.Reads) (hbounds : InBounds client) (hfits : ¬client.peer.Fits data)
    (write : SysResult Unit) : s.step (.read c (.bytes data) write) = some .exited := by
  have hstate := hbounds.state_ne hreads.1
  cases data with
  | nil => exact absurd hbounds.sendbufEnd_le hfits
  | cons b data =>
      rcases consume_cases hstate hbounds.sendbufEnd_le (b :: data) with ⟨h, _⟩ | ⟨_, hnone⟩
      · exact absurd h hfits
      · simp [Server.step, Clients.step, Label.client, hc, Client.step, hreads.1, hreads.2,
          onPeerRead, hstate, hnone, Process.andThen]

/-- One chunk of 1026 bytes, which libuv has room for, fails the assertion. -/
theorem long_chunk_aborts :
    server.run (.running .start)
      (greet 0 ++ [.read 0 (.bytes ('^'.toUInt8 :: List.replicate 1025 'a'.toUInt8)) (.ok ())]) =
        some .exited := by
  obtain ⟨s, client, hrun, hc, hreads, hpeer⟩ : ∃ s client,
      server.run (.running .start) (greet 0) = some (.running s) ∧ s.clients 0 = some client ∧
        client.Reads ∧ client.peer.state = .waitForMsg ∧ client.peer.sendbufEnd = 0 :=
    ⟨_, _, rfl, rfl, ⟨rfl, rfl⟩, rfl, rfl⟩
  have hbounds : InBounds client := ⟨by simp [hpeer], by simp [hpeer]⟩
  have hlength : (client.peer.echo ('^'.toUInt8 :: List.replicate 1025 'a'.toUInt8)).length =
      1025 := by
    have hnext : Frame.machine.next .outside '^'.toUInt8 = .inside := rfl
    rw [PeerState.echo, hpeer.1, Transducer.output_cons, ProcessingState.mode, hnext,
      output_inside_replicate (by decide), List.length_append, List.length_replicate]
    rfl
  have hfits : ¬client.peer.Fits ('^'.toUInt8 :: List.replicate 1025 'a'.toUInt8) := by
    rw [PeerState.Fits, hlength, hpeer.2]
    decide
  refine Machine.run_append hrun ?_
  exact Option.bind_eq_some_iff.mpr ⟨_, step_of_not_fits hc hreads hbounds hfits _, rfl⟩

/-! ## Peers that leave -/

/-- The peer has disconnected or reset. A callback reports it, or a call on its socket
fails. A failure of `uv_tcp_init`, which makes the handle, is not one of the peer. -/
def Label.Departs : Label → Prop
  | .connected _ r _ =>
      r.status ≠ .ok () ∨ r.tcpInit = .ok () ∧
        (r.accept ≠ .ok () ∨ r.getpeername ≠ .ok () ∨ r.write ≠ .ok ())
  | .wrote _ status readStart => status ≠ .ok () ∨ readStart ≠ .ok ()
  | .read _ (.bytes _) write => write ≠ .ok ()
  | .read _ _ _ => True
  | _ => False

/-- The calls on the socket of an accepted peer do not fail. A call that is not made has
the result 0. -/
def Label.CallsSucceed : Label → Prop
  | .connected _ r _ => r.accept = .ok () → r.getpeername = .ok () ∧ r.write = .ok ()
  | .wrote _ _ readStart => readStart = .ok ()
  | .read _ _ write => write = .ok ()
  | _ => True

/-- A peer leaves only when every byte queued for it is transmitted. -/
def leavesDrained (client : Client) (l : Label) : Prop :=
  l.Departs → ∀ w ∈ client.writes, w.Transmitted

/-- A peer leaves before it is accepted, or drained and between the calls. -/
def leavesQuietly (p : Process Server) (l : Label) : Prop :=
  l.CallsSucceed ∧ perClient leavesDrained p l

/-- Reads begin behind the acknowledgement, and a closing handle has nothing left
that could be cancelled. -/
structure Drains (client : Client) : Prop where
  phase : client.reading = false ∧ client.closing = false ∧
      (∃ w, client.writes = [w] ∧ w.kind = .onWroteInitAck) ∨
    client.reading = true ∧ ∀ w ∈ client.writes, w.kind = .onWroteBuf
  drained : client.closing = true → ∀ w ∈ client.writes, w.Transmitted

theorem drains_greeted (sendbuf : List.Vector UInt8 sendbufSize) : Drains (.greeted sendbuf) where
  phase := Or.inl ⟨rfl, rfl, _, rfl, rfl⟩
  drained h := nomatch h

/-- While reads are delivered nothing can be cancelled yet. -/
theorem Drains.of_reads (hreads : client.Reads)
    (hkind : ∀ w ∈ client.writes, w.kind = .onWroteBuf) : Drains client where
  phase := Or.inr ⟨hreads.1, hkind⟩
  drained h := nomatch hreads.2.symm.trans h

theorem Drains.kind_of_reading (h : Drains client) (hreading : client.reading = true) :
    ∀ w ∈ client.writes, w.kind = .onWroteBuf := by
  rcases h.phase with ⟨hnot, _⟩ | ⟨_, hkind⟩
  · cases hnot.symm.trans hreading
  · exact hkind

theorem Drains.transmit {k : ℕ} {r : List (Write Callback) × List UInt8} (h : Drains client)
    (hopen : client.closing = false)
    (hr : Write.transmit client.peer.sendbuf k client.writes = some r) :
    Drains { client with writes := r.1, transmitted := client.transmitted ++ r.2 } := by
  refine ⟨?_, fun hclosing => nomatch hopen.symm.trans hclosing⟩
  rcases h.phase with ⟨hreading, _, w, hw, hkind⟩ | ⟨hreading, hkind⟩
  · rw [hw] at hr
    obtain ⟨_, rfl⟩ := Write.transmit_singleton hr
    exact Or.inl ⟨hreading, hopen, _, rfl, hkind⟩
  · refine Or.inr ⟨hreading, ?_⟩
    rw [← List.forall_mem_map (f := Write.kind) (P := (· = Callback.onWroteBuf))] at hkind ⊢
    rwa [Write.transmit_map_kind hr]

theorem Drains.moves (h : Drains client) (hok : leavesDrained client l)
    (hmoves : Moves client l client') : Drains client' := by
  cases hmoves with
  | transmit c k hopen hr => exact h.transmit hopen hr
  | wroteInitAck c hwrites hkind hw =>
      rcases h.phase with ⟨_, hopen, w, hone, _⟩ | ⟨_, hbuf⟩
      · cases hone.symm.trans hwrites
        exact .of_reads ⟨rfl, hopen⟩ (by simp)
      · have hfirst := hbuf _ (hwrites ▸ List.mem_cons_self)
        cases hkind.symm.trans hfirst
  | wroteBuf c readStart hwrites hkind hw =>
      rcases h.phase with ⟨_, _, w, hone, hack⟩ | ⟨hreading, hbuf⟩
      · cases hone.symm.trans hwrites
        cases hkind.symm.trans hack
      · rw [hwrites] at hbuf
        refine ⟨Or.inr ⟨hreading, fun w hw => hbuf w (List.mem_cons_of_mem _ hw)⟩, ?_⟩
        intro hclosing w hw
        exact h.drained hclosing w (hwrites ▸ List.mem_cons_of_mem _ hw)
  | @hangup c r write hreads hr =>
      refine ⟨Or.inr ⟨hreads.1, h.kind_of_reading hreads.1⟩, fun _ => hok ?_⟩
      cases r with
      | bytes data => exact absurd rfl (hr data)
      | eof => trivial
      | error e => trivial
  | nothing c write hreads => exact h
  | ignore c write hreads hne hstate => exact .of_reads hreads (h.kind_of_reading hreads.1)
  | consume c write hreads hne hstate hpeer hws =>
      refine .of_reads hreads ?_
      have hkind := h.kind_of_reading hreads.1
      subst hws
      split
      · simpa [or_imp, forall_and] using hkind
      · exact hkind

/-- Whatever is still reported for a peer that leaves or has left lets the process
run, unless the peer has pulled the kill switch. -/
theorem Drains.running {p : Process (Option Client)} (h : Drains client)
    (hcalls : l.CallsSucceed) (hok : leavesDrained client l)
    (hleaves : l.Departs ∨ client.closing = true ∧ client.peer.endsInXYZ = false)
    (hs : client.step l = some p) : ∃ o, p = .running o := by
  cases l with
  | connected c r sendbuf => cases hs
  | transmit c k =>
      obtain ⟨mid, _, rfl⟩ := Option.map_eq_some_iff.mp hs
      exact ⟨_, rfl⟩
  | wrote c status readStart =>
      cases hwrites : client.writes with
      | nil => simp [Client.step, hwrites] at hs
      | cons w ws =>
          simp only [Client.step, hwrites, Option.ite_none_right_eq_some, Option.some.injEq] at hs
          obtain ⟨hcompletes, rfl⟩ := hs
          have hmem : w ∈ client.writes := hwrites ▸ List.mem_cons_self
          have hw : w.Transmitted := by
            rcases hleaves with hdeparts | ⟨hclosing, _⟩
            · exact hok hdeparts w hmem
            · exact h.drained hclosing w hmem
          obtain rfl : status = .ok () := hcompletes.eq_ok_iff.mpr hw
          rcases hleaves with hdeparts | ⟨hclosing, hlive⟩
          · rcases hdeparts with hstatus | hreadStart
            · exact absurd rfl hstatus
            · exact absurd hcalls hreadStart
          · rcases h.phase with ⟨_, hopen, _⟩ | ⟨_, hkind⟩
            · cases hopen.symm.trans hclosing
            · rw [hkind w hmem]
              simp [onWrote, onWroteBuf, hlive, Process.andThen]
  | read c r write =>
      simp only [Client.step, Option.ite_none_right_eq_some, Option.some.injEq,
        Bool.and_eq_true, Bool.not_eq_true'] at hs
      obtain ⟨⟨_, hopen⟩, rfl⟩ := hs
      cases r with
      | bytes data =>
          rcases hleaves with hdeparts | ⟨hclosing, _⟩
          · exact absurd hcalls hdeparts
          · cases hopen.symm.trans hclosing
      | eof => exact ⟨_, rfl⟩
      | error e => exact ⟨_, rfl⟩
  | closed c =>
      simp only [Client.step, Option.ite_none_right_eq_some, Option.some.injEq] at hs
      exact ⟨_, hs.2.symm⟩

/-- A peer that is gone before it is accepted leaves no trace. -/
theorem onPeerConnected_of_departs {r : Connected} {sendbuf : List.Vector UInt8 sendbufSize}
    (hcalls : (Label.connected c r sendbuf).CallsSucceed)
    (hdeparts : (Label.connected c r sendbuf).Departs) :
    onPeerConnected r sendbuf c s = .running s := by
  rcases hdeparts with hstatus | ⟨hinit, hfails⟩
  · cases hr : r.status with
    | error e => rw [onPeerConnected, hr]
    | ok u => exact absurd hr hstatus
  · cases haccept : r.accept with
    | error e =>
        unfold onPeerConnected
        rw [hinit, haccept]
        cases r.status with
        | error e' => rfl
        | ok u => rfl
    | ok u =>
        obtain ⟨hgetpeername, hwrite⟩ := hcalls haccept
        rcases hfails with h | h | h
        · exact absurd haccept h
        · exact absurd hgetpeername h
        · exact absurd hwrite h

/-- As long as peers leave quietly, one that leaves does not end the process and touches
no other, neither when it leaves nor in what is reported for it afterwards. -/
theorem departure_harmless (h : server.ReachableBy leavesQuietly (.running s))
    {p : Process Server} (hok : leavesQuietly (.running s) l)
    (hleaves : l.Departs ∨ ∃ client, s.clients l.client = some client ∧
      client.closing = true ∧ client.peer.endsInXYZ = false)
    (hs : s.step l = some p) :
    ∃ s', p = .running s' ∧ ∀ c' ≠ l.client, s'.clients c' = s.clients c' := by
  obtain ⟨hcalls, hdrained⟩ := hok
  cases hc : s.clients l.client with
  | none =>
      rw [Server.step, Clients.step_of_none hc] at hs
      have hdeparts : l.Departs := by
        rcases hleaves with hdeparts | ⟨client, hclient, _⟩
        · exact hdeparts
        · cases hc.symm.trans hclient
      cases l with
      | connected c r sendbuf =>
          cases hs
          exact ⟨s, onPeerConnected_of_departs hcalls hdeparts, fun _ _ => rfl⟩
      | _ => cases hs
  | some client =>
      have hdrains : Drains client := by
        refine clients_invariant drains_greeted ?_ (h.mono fun _ _ hok => hok.2) hc
        intro client l client' hclient hok hs
        exact hclient.moves hok (moves_of_step hs)
      have hleaves' : l.Departs ∨ client.closing = true ∧ client.peer.endsInXYZ = false := by
        refine hleaves.imp id ?_
        rintro ⟨client', hclient', hleft⟩
        cases hc.symm.trans hclient'
        exact hleft
      rw [Server.step, Clients.step_of_some hc] at hs
      obtain ⟨q, hq, rfl⟩ := Option.map_eq_some_iff.mp hs
      obtain ⟨o, rfl⟩ := hdrains.running hcalls (hdrained client hc) hleaves' hq
      exact ⟨s.set l.client o, rfl, fun c' hne => Clients.clients_set_ne hne o⟩

theorem departure_harmless_drainedPeer :
    ∃ s p, server.run (.running .start) (greet 0 ++ greet 1) = some (.running s) ∧
      s.step (.read 1 .eof (.ok ())) = some p ∧
      ∃ s', p = .running s' ∧ ∀ c' ≠ 1, s'.clients c' = s.clients c' := by
  have hquiet : ∀ c p, server.Admits leavesQuietly p (greet c) := by
    refine fun c p => Machine.admits_of_forall (fun l hl p => ⟨?_, ?_⟩) p
    · revert l
      simp [greet, arrive, Label.CallsSucceed]
    · refine Clients.perClient_of_forall (fun client => ?_) p
      revert l
      simp [greet, arrive, leavesDrained, Label.Departs]
  have hgreet := Machine.ReachableBy.run (M := server) (.init ⟨_, rfl, rfl⟩) (greet 0)
    (hquiet 0 _) rfl
  refine ⟨_, _, rfl, rfl, departure_harmless (l := .read 1 .eof (.ok ()))
    (hgreet.run (greet 1) (hquiet 1 _) rfl) ⟨rfl, ?_⟩ (Or.inl trivial) rfl⟩
  rintro _ ⟨⟩ _ w hw
  cases hw

/-- The second peer hangs up while its reply is queued, and the first one loses
its connection. -/
theorem cancelled_write_ends_process :
    (∃ s client, server.run (.running .start)
        (greet 0 ++ greet 1 ++ [deliver 1 ['^', 'a'], .read 1 .eof (.ok ())]) =
          some (.running s) ∧ s.clients 0 = some client ∧ client.closing = false) ∧
      server.run (.running .start)
        (greet 0 ++ greet 1 ++ [deliver 1 ['^', 'a'], .read 1 .eof (.ok ()),
          .wrote 1 (.error uvEcanceled) (.ok ())]) = some .exited :=
  ⟨⟨_, _, rfl, rfl, rfl⟩, rfl⟩

end ConcurrentServers.Uv

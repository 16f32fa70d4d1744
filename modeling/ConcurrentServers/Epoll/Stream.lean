import ConcurrentServers.Epoll.Contract
import ConcurrentServers.EventLoop.Traffic
import ConcurrentServers.Library.Refinement
import ConcurrentServers.Protocol.Stream

/-!
# The reply streams of the epoll server

The server is run with a record of the bytes that `recv` delivered and `send`
took on every connection. Handling an event is a step of the abstract loop with
its traffic, so the streams of all connections conform to the framing protocol
whatever batches, descriptors and short writes the run goes through.
-/

namespace ConcurrentServers.Epoll

open Systems

/-- The bytes that handling an event moves on the connection behind it. -/
def transferred (cfg : Config) (o : Outcome) (e : Event) (s : Server) (t : Traffic) : Traffic :=
  if e.events.epollerr ∨ e.fd = cfg.listener then t
  else if e.events.epollin then
    t.deliver (s.descriptors.owner e.fd) ((s.table.peers e.fd).recvBytes o.recv)
  else if e.events.epollout then
    t.send (s.descriptors.owner e.fd) ((s.table.peers e.fd).sendBytes o.send)
  else t

def note (cfg : Config) : Process Server → Label → Traffic → Traffic
  | .running s, .handle o, t => s.batch.head?.elim t fun e => transferred cfg o e s t
  | _, _, t => t

/-- If the event leads to a `send`, it does not take more than it is given. -/
def sendsWithin : Process Server → Label → Bool
  | .running s, .handle o => s.batch.head?.all fun e =>
      e.events.epollin || !e.events.epollout || (s.table.peers e.fd).allowsSend o.send
  | _, _ => true

def traced (cfg : Config) : Machine (Process Server × Traffic) Label :=
  (server cfg).observed sendsWithin .empty (note cfg)

variable {cfg : Config} {s s' : Server} {t : Traffic}

theorem readyPeer_transfer {o : Outcome} {e : Event} {c : ℕ} (herr : e.events.epollerr = false)
    (hne : e.fd ≠ cfg.listener) (howner : s.descriptors.owner e.fd = some c)
    (hroom : e.events.epollin = true → 0 < (s.table.peers e.fd).recvRoom)
    (hsend : e.events.epollin = false → e.events.epollout = true →
      (s.table.peers e.fd).allowsSend o.send = true)
    (hs : readyPeer o e s = some (.running s')) :
    (s.toLoop cfg).Transfer t (s'.toLoop cfg) (transferred cfg o e s t) := by
  have hpeer : ¬(e.events.epollerr = true ∨ e.fd = cfg.listener) := by simp [herr, hne]
  unfold transferred
  rw [if_neg hpeer]
  unfold readyPeer at hs
  split at hs
  · next hin =>
      obtain ⟨hallows, hs⟩ := Option.ite_none_right_eq_some.mp hs
      obtain ⟨-, -, hloop⟩ := applyStatus_running hne (Option.some.inj hs)
      rw [if_pos hin, hloop]
      exact .recv howner (hroom hin) hallows
  · next hin =>
      rw [if_neg hin]
      split at hs
      · next hout =>
          obtain ⟨-, -, hloop⟩ := applyStatus_running hne (Option.some.inj hs)
          rw [if_pos hout, hloop]
          exact .send howner (hsend (Bool.eq_false_iff.mpr hin) hout)
      · next hout =>
          cases hs
          rw [if_neg hout]
          exact .idle

theorem handle_transfer {o : Outcome} {e : Event}
    (hopen : e.fd ≠ cfg.listener → s.descriptors.owner e.fd ≠ none)
    (hroom : e.fd ≠ cfg.listener → e.events.epollin = true → 0 < (s.table.peers e.fd).recvRoom)
    (hsend : e.events.epollin = false → e.events.epollout = true →
      (s.table.peers e.fd).allowsSend o.send = true)
    (hs : handle cfg o e s = some (.running s')) :
    (s.toLoop cfg).Transfer t (s'.toLoop cfg) (transferred cfg o e s t) := by
  unfold handle at hs
  split at hs
  · next herr =>
      split at hs
      · cases hs
      · next hne =>
          cases hs
          rw [transferred, if_pos (Or.inl herr), toLoop_close hne]
          obtain ⟨c, howner⟩ := Option.ne_none_iff_exists'.mp (hopen hne)
          exact .drop howner
  · next herr =>
      split at hs
      · next hlistener =>
          rw [transferred, if_pos (Or.inr hlistener)]
          exact (acceptPeer_running hs).2.2.transfer
      · next hne =>
          obtain ⟨c, howner⟩ := Option.ne_none_iff_exists'.mp (hopen hne)
          exact readyPeer_transfer (Bool.eq_false_iff.mpr herr) hne howner (hroom hne) hsend hs

/-- Every step of the server is one of the loop with its traffic. -/
theorem step_transfer (hvalid : Valid cfg s) {l : Label}
    (hsend : sendsWithin (.running s) l = true) (hs : s.step cfg l = some (.running s')) :
    (s.toLoop cfg).Transfer t (s'.toLoop cfg) (note cfg (.running s) l t) := by
  cases l with
  | wait r =>
      obtain ⟨-, hs⟩ := Option.ite_none_right_eq_some.mp hs
      cases r with
      | error e =>
          dsimp only at hs
          split at hs
          · cases hs
            exact .idle
          · cases hs
      | ok events =>
          obtain ⟨-, hs⟩ := Option.ite_none_right_eq_some.mp hs
          cases hs
          exact .idle
  | handle o =>
      cases hbatch : s.batch with
      | nil => simp [Server.step, hbatch] at hs
      | cons e batch =>
          simp only [Server.step, hbatch] at hs
          have hcurrent := hvalid.batch e (by simp [hbatch])
          have hopen : e.fd ≠ cfg.listener → s.descriptors.owner e.fd ≠ none := by
            intro hne
            obtain ⟨i, hi, -⟩ := hcurrent.within hne
            exact hvalid.sound.owner_ne_none (toLoop_interest_some hne hi)
          have hroom : e.fd ≠ cfg.listener → e.events.epollin = true →
              0 < (s.table.peers e.fd).recvRoom := by
            intro hne hin
            obtain ⟨i, hi, hwithin⟩ := hcurrent.within hne
            simp only [Reported.within, hin, Bool.not_true, Bool.false_or,
              Bool.and_eq_true] at hwithin
            exact (hvalid.watched hne hi).recvRoom_pos hwithin.1
          have hpeer : e.events.epollin = false → e.events.epollout = true →
              (s.table.peers e.fd).allowsSend o.send = true := by
            intro hin hout
            simpa [sendsWithin, hbatch, hin, hout] using hsend
          have hnote : note cfg (.running s) (.handle o) t = transferred cfg o e s t := by
            simp [note, hbatch]
          rw [hnote]
          exact handle_transfer (s := { s with
            batch := batch
            handled := s.handled ++ [(e, s.descriptors.owner e.fd)] }) hopen hroom hpeer hs

theorem reachable_conforms (h : (traced cfg).Reachable (.running s, t)) :
    (s.toLoop cfg).Conforms t := by
  refine Process.observed_invariant (P := fun s t => (s.toLoop cfg).Conforms t) ?_ ?_ h
  · rintro _ rfl
    exact EventLoop.conforms_empty
  · intro s l s' t hreach hconforms hsend hs
    exact hconforms.transfer (step_transfer (reachable_valid hreach) hsend hs)

/-- What the service sees of the server. -/
def view (p : Process Server × Traffic) : Process Echo :=
  p.1.map fun s => ⟨s.descriptors, p.2⟩

/-- Every run of the server is a run of the echo service. -/
theorem epoll_refines_echo (cfg : Config) : Refines (traced cfg) echo view := by
  refine Process.observed_refines (f := fun (s : Server) t => Echo.mk s.descriptors t) ?_ ?_ ?_
  · rintro _ rfl
    rfl
  · intro s l s' t hreach hsend hs
    have hvalid := reachable_valid (Machine.observed_refines.reachable hreach)
    exact (step_transfer hvalid hsend hs).echo (reachable_conforms hreach)
  · intro s t l _
    exact ⟨.exit, rfl⟩

/-- On every connection the bytes sent are a prefix of `*` and the reply to the bytes
delivered. While the connection is open the rest is pending, and nothing is left while
it is registered for reading. A run of `serve_connection` that has received the same
bytes and waits for more, or has returned, has sent the same reply. -/
theorem epoll_reply_stream (h : (traced cfg).Reachable (.running s, t)) (c : ℕ) :
    t.sent c <+: '*'.toUInt8 :: Frame.transform (t.delivered c) ∧
    (∀ fd, s.descriptors.owner fd = some c →
      t.sent c ++ peerPending s.table fd = '*'.toUInt8 :: Frame.transform (t.delivered c) ∧
      (s.interest fd = some ⟨true, false⟩ →
        t.sent c = '*'.toUInt8 :: Frame.transform (t.delivered c))) ∧
    ∀ b : Protocol.Connection, Protocol.serveConnection.Reachable b →
      b.received = t.delivered c → b.control = .recv ∨ b.control = .returned .serveOk →
      t.sent c <+: b.accepted ∧ ∀ fd, s.descriptors.owner fd = some c →
        s.interest fd = some ⟨true, false⟩ → t.sent c = b.accepted := by
  have hconforms := reachable_conforms h
  have hvalid := reachable_valid (Machine.observed_refines.reachable h)
  have hall : ∀ fd, s.descriptors.owner fd = some c → s.interest fd = some ⟨true, false⟩ →
      t.sent c = Frame.reply (t.delivered c) := by
    intro fd howner hinterest
    have hne : fd ≠ cfg.listener := by
      rintro rfl
      cases (owner_listener hvalid.sound).symm.trans howner
    exact hconforms.sent_eq (hvalid.watched hne hinterest) howner rfl
  refine ⟨hconforms.isPrefix c, ?_, ?_⟩
  · intro fd howner
    exact ⟨(hconforms.tracks fd c howner).stream, hall fd howner⟩
  · intro b hb hinput hcontrol
    rw [(Protocol.reachable_follows hb).accepted_eq hcontrol, hinput]
    exact ⟨hconforms.isPrefix c, hall⟩

theorem traced_of_labels (cfg : Config) {p : Process Server × Traffic} (labels : List Label)
    (h : (traced cfg).run (.running (.start cfg), .empty) labels = some p) :
    (traced cfg).Reachable p :=
  Machine.reachable_of_run labels ⟨⟨_, rfl, rfl⟩, rfl⟩ h

/-- A frame is cut over two reads, and its reply over two writes. -/
def cutFrame : List Label :=
  firstFrame ++ [.wait (.ok [(5, writable)]), .handle success, .wait (.ok [(5, readable)]),
    .handle { success with recv := .ok (['b', 'c', '$'].map Char.toUInt8) },
    .wait (.ok [(5, writable)]), .handle success]

theorem epoll_reply_stream_cutFrame :
    ∃ s t, (traced smallConfig).run (.running (.start smallConfig), .empty) cutFrame =
        some (.running s, t) ∧
      t.delivered 0 = ['^', 'a', 'b', 'c', '$'].map Char.toUInt8 ∧
      t.sent 0 = ['*', 'b', 'c'].map Char.toUInt8 ∧
      t.sent 0 ++ peerPending s.table 5 = '*'.toUInt8 :: Frame.transform (t.delivered 0) := by
  refine ⟨_, _, rfl, rfl, rfl, ?_⟩
  have hstream := epoll_reply_stream (traced_of_labels smallConfig cutFrame rfl) 0
  exact (hstream.2.1 5 rfl).1

end ConcurrentServers.Epoll

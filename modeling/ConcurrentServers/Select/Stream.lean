import ConcurrentServers.Select.Sweep
import ConcurrentServers.EventLoop.Traffic
import ConcurrentServers.Library.Refinement
import ConcurrentServers.Protocol.Stream

/-!
# The reply streams of the select server

The server is run with a record of the bytes that `recv` delivered and `send`
took on every connection. An iteration of a sweep is a step of the abstract loop
with its traffic, so the streams of all connections conform to the framing
protocol, also those of a connection that gets its number in the middle of a
sweep.
-/

namespace ConcurrentServers.Select

open Systems

/-- The bytes that an iteration moves: first what the read handler receives, and then
what the write handler sends, if the descriptor is still open. -/
def transferred (cfg : Config) (o : Outcome) (v : Sweep) (s : Server) (t : Traffic) : Traffic :=
  match readPart cfg o v s with
  | some (.running (s', _, closed)) =>
      let t := if v.fd ∈ v.readfds then
          t.deliver (s.descriptors.owner v.fd) ((s.table.peers v.fd).recvBytes o.recv)
        else t
      if !closed && v.fd ∈ v.writefds then
        t.send (s'.descriptors.owner v.fd) ((s'.table.peers v.fd).sendBytes o.send)
      else t
  | _ => t

def note (cfg : Config) : Process Server → Label → Traffic → Traffic
  | .running s, .visit o, t => s.sweep.elim t fun v => transferred cfg o v s t
  | _, _, t => t

/-- If the iteration makes a `send`, it does not take more than it is given. -/
def sendsWithin (cfg : Config) : Process Server → Label → Bool
  | .running s, .visit o => s.sweep.all fun v =>
      match readPart cfg o v s with
      | some (.running (s', _, closed)) =>
          closed || v.fd ∉ v.writefds || (s'.table.peers v.fd).allowsSend o.send
      | _ => true
  | _, _ => true

def traced (cfg : Config) : Machine (Process Server × Traffic) Label :=
  (server cfg).observed (sendsWithin cfg) .empty (note cfg)

variable {cfg : Config} {s s' : Server} {v v' : Sweep} {t : Traffic} {o : Outcome}

theorem readPart_transfer (h : Valid cfg s) (hmaster : v.fd ∈ s.master false)
    (hbit : v.fd ∈ v.readfds) {closed : Bool}
    (hs : readPart cfg o v s = some (.running (s', v', closed))) :
    (s.toLoop cfg).Transfer t (s'.toLoop cfg)
      (t.deliver (s.descriptors.owner v.fd) ((s.table.peers v.fd).recvBytes o.recv)) := by
  unfold readPart at hs
  rw [if_pos hbit] at hs
  split at hs
  · next hlistener =>
      obtain ⟨p, haccept, hs⟩ := Option.map_eq_some_iff.mp hs
      obtain ⟨s₁, rfl, hs⟩ := Process.andThen_eq_running hs
      cases hs
      rw [hlistener, h.owner_listener]
      exact (acceptPeer_follows h haccept).loop.transfer
  · next hne =>
      obtain ⟨hallows, hs⟩ := Option.ite_none_right_eq_some.mp hs
      cases hs
      obtain ⟨c, howner⟩ := Option.ne_none_iff_exists'.mp (h.owner_ne_none hne hmaster)
      have hwatched := h.sound.watched v.fd _ (by simp) (toLoop_interest_mem hne hmaster)
      rw [toLoop_applyStatus hne]
      exact .recv howner (hwatched.recvRoom_pos (decide_eq_true hmaster)) hallows

theorem writePart_transfer (h : Valid cfg s) (hmaster : v.fd ∈ s.master true)
    (hsend : (s.table.peers v.fd).allowsSend o.send = true) :
    (s.toLoop cfg).Transfer t
      ((applyStatus v.fd (peerOnReadySend s.table v.fd o.send) s).toLoop cfg)
      (t.send (s.descriptors.owner v.fd) ((s.table.peers v.fd).sendBytes o.send)) := by
  have hne : v.fd ≠ cfg.listener := by
    intro heq
    rw [heq, h.listener_mem] at hmaster
    cases hmaster
  obtain ⟨c, howner⟩ := Option.ne_none_iff_exists'.mp (h.owner_ne_none hne hmaster)
  rw [toLoop_applyStatus hne]
  exact .send howner hsend

theorem visit_transfer (h : Valid cfg s) (hv : Sweeping cfg s v) (hsweep : s.sweep = some v)
    (hsend : sendsWithin cfg (.running s) (.visit o) = true)
    (hs : visit cfg o v s = some (.running s')) :
    (s.toLoop cfg).Transfer t (s'.toLoop cfg) (transferred cfg o v s t) := by
  unfold visit at hs
  obtain ⟨p, hp, hs⟩ := Option.map_eq_some_iff.mp hs
  obtain ⟨⟨s₁, v₁, closed⟩, rfl, hrest⟩ := Process.andThen_eq_running hs
  simp only [sendsWithin, hsweep, Option.all_some, hp] at hsend
  unfold transferred
  rw [hp]
  by_cases hread : v.fd ∈ v.readfds
  · -- The bit is in no other set, so the write part is skipped.
    have hbit : v.fd ∈ v.bits false := hread
    have hother : v.fd ∉ v.writefds := hv.notMem_other h hbit
    have hmaster := hv.mem_master false _ le_rfl hbit
    obtain ⟨rfl, -⟩ := readPart_follows h hmaster hread hp
    have hskip : writePart o (v.service s false) closed s₁ = (s₁, v.service s false) :=
      if_neg (by simp [Sweep.service, hother])
    simp only [hskip, Process.running.injEq] at hrest
    subst hrest
    simp only [hread, hother, if_true, decide_false, Bool.and_false]
    have htransfer := readPart_transfer (t := t) h hmaster hread hp
    exact htransfer
  · rw [readPart, if_neg hread] at hp
    cases hp
    by_cases hwrite : v.fd ∈ v.writefds
    · have hmaster := hv.mem_master true _ le_rfl hwrite
      have hpart : writePart o v false s =
          (applyStatus v.fd (peerOnReadySend s.table v.fd o.send) s, v.service s true) :=
        if_pos (by simp [hwrite])
      simp only [hpart, Process.running.injEq] at hrest
      subst hrest
      simp only [hread, hwrite, if_false, if_true, decide_true, Bool.not_false, Bool.and_true]
      apply writePart_transfer h hmaster
      simpa [hwrite] using hsend
    · have hskip : writePart o v false s = (s, v) := if_neg (by simp [hwrite])
      simp only [hskip, Process.running.injEq] at hrest
      subst hrest
      simp only [hread, hwrite, if_false, decide_false, Bool.and_false]
      exact .idle

/-- Every step of the server is one of the loop with its traffic. -/
theorem step_transfer (hinv : Invariant cfg s) {l : Label}
    (hsend : sendsWithin cfg (.running s) l = true) (hs : s.step cfg l = some (.running s')) :
    (s.toLoop cfg).Transfer t (s'.toLoop cfg) (note cfg (.running s) l t) := by
  cases l with
  | select r =>
      simp only [Server.step] at hs
      split at hs
      · cases hs
      · split at hs
        · cases hs
          exact .idle
        · cases hs
      · obtain ⟨-, hs⟩ := Option.ite_none_right_eq_some.mp hs
        cases hs
        exact .idle
  | visit o =>
      simp only [Server.step] at hs
      split at hs
      · next v hsweep =>
          obtain ⟨-, hs⟩ := Option.ite_none_right_eq_some.mp hs
          have hnote : note cfg (.running s) (.visit o) t = transferred cfg o v s t := by
            simp [note, hsweep]
          rw [hnote]
          exact visit_transfer hinv.valid (hinv.sweeping v hsweep) hsweep hsend hs
      · cases hs
  | finish =>
      simp only [Server.step] at hs
      split at hs
      · split at hs
        · cases hs
        · cases hs
          exact .idle
      · cases hs

theorem reachable_conforms (h : (traced cfg).Reachable (.running s, t)) :
    (s.toLoop cfg).Conforms t := by
  refine Process.observed_invariant (P := fun s t => (s.toLoop cfg).Conforms t) ?_ ?_ h
  · rintro _ rfl
    exact EventLoop.conforms_empty
  · intro s l s' t hreach hconforms hsend hs
    exact hconforms.transfer (step_transfer (reachable_invariant hreach) hsend hs)

/-- What the service sees of the server. -/
def view (p : Process Server × Traffic) : Process Echo :=
  p.1.map fun s => ⟨s.descriptors, p.2⟩

/-- Every run of the server is a run of the echo service. -/
theorem select_refines_echo (cfg : Config) : Refines (traced cfg) echo view := by
  refine Process.observed_refines (f := fun (s : Server) t => Echo.mk s.descriptors t) ?_ ?_ ?_
  · rintro _ rfl
    rfl
  · intro s l s' t hreach hsend hs
    have hinv := reachable_invariant (Machine.observed_refines.reachable hreach)
    exact (step_transfer hinv hsend hs).echo (reachable_conforms hreach)
  · intro s t l _
    exact ⟨.exit, rfl⟩

/-- On every connection the bytes sent are a prefix of `*` and the reply to the bytes
delivered. While the connection is open the rest is pending, and nothing is left while
its bit is set in the master set for reading. A run of `serve_connection` that has
received the same bytes and waits for more, or has returned, has sent the same reply. -/
theorem select_reply_stream (h : (traced cfg).Reachable (.running s, t)) (c : ℕ) :
    t.sent c <+: '*'.toUInt8 :: Frame.transform (t.delivered c) ∧
    (∀ fd, s.descriptors.owner fd = some c →
      t.sent c ++ peerPending s.table fd = '*'.toUInt8 :: Frame.transform (t.delivered c) ∧
      (fd ∈ s.readfdsMaster → t.sent c = '*'.toUInt8 :: Frame.transform (t.delivered c))) ∧
    ∀ b : Protocol.Connection, Protocol.serveConnection.Reachable b →
      b.received = t.delivered c → b.control = .recv ∨ b.control = .returned .serveOk →
      t.sent c <+: b.accepted ∧ ∀ fd, s.descriptors.owner fd = some c →
        fd ∈ s.readfdsMaster → t.sent c = b.accepted := by
  have hconforms := reachable_conforms h
  have hvalid := (reachable_invariant (Machine.observed_refines.reachable h)).valid
  have hall : ∀ fd, s.descriptors.owner fd = some c → fd ∈ s.readfdsMaster →
      t.sent c = Frame.reply (t.delivered c) := by
    intro fd howner hmem
    have hne : fd ≠ cfg.listener := by
      rintro rfl
      cases hvalid.owner_listener.symm.trans howner
    have hmaster : fd ∈ s.master false := hmem
    have hwatched := hvalid.sound.watched fd _ (by simp) (toLoop_interest_mem hne hmaster)
    exact hconforms.sent_eq hwatched howner (decide_eq_true hmem)
  refine ⟨hconforms.isPrefix c, ?_, ?_⟩
  · intro fd howner
    exact ⟨(hconforms.tracks fd c howner).stream, hall fd howner⟩
  · intro b hb hinput hcontrol
    rw [(Protocol.reachable_follows hb).accepted_eq hcontrol, hinput]
    exact ⟨hconforms.isPrefix c, hall⟩

theorem traced_of_labels (cfg : Config) {p : Process Server × Traffic} (labels : List Label)
    (h : (traced cfg).run (.running (.start cfg), .empty) labels = some p) :
    (traced cfg).Reachable p :=
  Machine.reachable_of_run labels ⟨⟨_, rfl, rfl⟩, rfl⟩ h

/-- An iteration in which `recv` delivers a frame that is not closed. -/
def reads : Label := .visit ⟨.ok 0, .ok (), .ok (['^', 'a', 'b'].map Char.toUInt8), .ok 1⟩

/-- A connection arrives as descriptor 0, sends a frame and gets a part of its reply. -/
def partialReply : List Label :=
  [.select (.ok ({1}, ∅)), iteration 0, iteration 0, .finish,
    .select (.ok (∅, {0})), iteration 2, .finish,
    .select (.ok ({0}, ∅)), reads, .finish,
    .select (.ok (∅, {0})), iteration 2]

theorem select_reply_stream_partialReply :
    ∃ s t, (traced smallConfig).run (.running (.start smallConfig), .empty) partialReply =
        some (.running s, t) ∧
      t.delivered 0 = ['^', 'a', 'b'].map Char.toUInt8 ∧
      t.sent 0 = ['*', 'b'].map Char.toUInt8 ∧
      t.sent 0 ++ peerPending s.table 0 = '*'.toUInt8 :: Frame.transform (t.delivered 0) := by
  refine ⟨_, _, rfl, rfl, rfl, ?_⟩
  have hstream := select_reply_stream (traced_of_labels smallConfig partialReply rfl) 0
  exact (hstream.2.1 0 rfl).1

end ConcurrentServers.Select

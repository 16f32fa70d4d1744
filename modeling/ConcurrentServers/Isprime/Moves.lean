import ConcurrentServers.Isprime.Model

/-!
# What one step can do

A worker never fails, and a step is one of a single client, or its arrival. Only
this module opens the step function.
-/

namespace ConcurrentServers.Isprime

open Systems
open Systems.Text (ascii)
open Uv (ReadResult uvEcanceled)

variable {mode : Mode} {s s' : Server} {client client' : Client} {l : Label} {c : ℕ}

/-! ## What a worker does -/

/-- The word of a reply. -/
def word (n : UInt64) : List UInt8 := if isprime n then ascii "prime" else ascii "composite"

/-- The reply to a request that arrives in one read. -/
def reply (data : List UInt8) : List UInt8 := word (parseNumber 0 data) ++ ['\n'.toUInt8]

theorem copyFrom_eq (sendbuf : List.Vector UInt8 sendbufSize) (i : ℕ) {str : List UInt8}
    (h : i + str.length ≤ sendbufSize) :
    ∃ b, copyFrom sendbuf i str = some (b, i + str.length) ∧
      Buffer.slice b 0 (i + str.length) = Buffer.slice sendbuf 0 i ++ str := by
  induction str generalizing sendbuf i with
  | nil => exact ⟨sendbuf, rfl, by simp⟩
  | cons x str ih =>
      rw [List.length_cons] at h
      have hlt : i < sendbufSize := by omega
      have hlen : i + (x :: str).length = i + 1 + str.length := by
        rw [List.length_cons]
        omega
      obtain ⟨b, hb, hslice⟩ := ih (Buffer.store sendbuf i x) (i + 1) (by omega)
      rw [hlen]
      refine ⟨b, by rw [copyFrom, if_pos hlt, hb], ?_⟩
      rw [hslice, Buffer.slice_store_succ sendbuf x (Nat.zero_le i) hlt, List.append_assoc]
      rfl

/-- A worker stages the reply for the number that it finds. -/
theorem onWorkSubmitted_eq (peer : PeerState) :
    ∃ peer', onWorkSubmitted peer = some peer' ∧ peer'.number = peer.number ∧
      Buffer.slice peer'.sendbuf 0 peer'.sendbufEnd = word peer.number ++ ['\n'.toUInt8] := by
  have hset : ∀ str : List UInt8, str.length ≤ sendbufSize → ∃ peer',
      setPeerSendbuf peer str = some peer' ∧ peer'.number = peer.number ∧
        Buffer.slice peer'.sendbuf 0 peer'.sendbufEnd = str := by
    intro str hlen
    obtain ⟨b, hb, hslice⟩ := copyFrom_eq peer.sendbuf 0 (by omega : 0 + str.length ≤ _)
    refine ⟨{ peer with sendbuf := b, sendbufEnd := 0 + str.length }, ?_, rfl, ?_⟩
    · rw [setPeerSendbuf, hb, Option.map_some]
    · rw [hslice, Buffer.slice_self, List.nil_append]
  unfold onWorkSubmitted word
  split
  · exact hset (ascii "prime\n") (by decide)
  · exact hset (ascii "composite\n") (by decide)

/-! ## What one step can do -/

/-- The steps that leave the client in place and the process running. -/
inductive Moves (mode : Mode) (client : Client) : Label → Client → Prop where
  | hangup (c : ℕ) {r : ReadResult} (call : SysResult Unit) (hopen : client.closing = false)
      (hr : ∀ data, r ≠ .bytes data) :
      Moves mode client (.read c r call) { client with closing := true }
  | nothing (c : ℕ) (call : SysResult Unit) (hopen : client.closing = false) :
      Moves mode client (.read c (.bytes []) call) client
  | queue (c : ℕ) {data : List UInt8} (hopen : client.closing = false) (hne : data ≠ [])
      (hmode : mode = .workQueue) :
      Moves mode client (.read c (.bytes data) (.ok ())) { client with
        peer := { client.peer with number := parseNumber 0 data }
        requests := client.requests ++ [data]
        queued := client.queued + 1 }
  | answer (c : ℕ) {data : List UInt8} {peer : PeerState} (hopen : client.closing = false)
      (hne : data ≠ []) (hmode : mode = .block)
      (hpeer : onWorkSubmitted { client.peer with number := parseNumber 0 data } = some peer) :
      Moves mode client (.read c (.bytes data) (.ok ())) { client with
        peer := peer
        requests := client.requests ++ [data]
        writes := client.writes ++ [⟨(), peer.sendbufEnd, 0⟩] }
  | work (c : ℕ) {peer : PeerState} {q : ℕ} (hqueued : client.queued = q + 1)
      (hpeer : onWorkSubmitted client.peer = some peer) :
      Moves mode client (.work c)
        { client with peer := peer, queued := q, executed := client.executed + 1 }
  | completed (c : ℕ) {e : ℕ} (hopen : client.closing = false)
      (hexecuted : client.executed = e + 1) :
      Moves mode client (.completed c (.ok ()) (.ok ())) { client with
        executed := e
        writes := client.writes ++ [⟨(), client.peer.sendbufEnd, 0⟩] }
  | transmit (c k : ℕ) {r : List (Write Unit) × List UInt8} (hopen : client.closing = false)
      (h : Write.transmit client.peer.sendbuf k client.writes = some r) :
      Moves mode client (.transmit c k)
        { client with writes := r.1, transmitted := client.transmitted ++ r.2 }
  | sent (c : ℕ) {w : Write Unit} {ws : List (Write Unit)} (hwrites : client.writes = w :: ws)
      (hw : w.Transmitted) : Moves mode client (.sent c (.ok ())) { client with writes := ws }
  | closed (c : ℕ) (hclosing : client.closing = true)
      (hwork : ¬(client.queued = 0 ∧ client.executed = 0)) :
      Moves mode client (.closed c) { client with freed := true }

theorem moves_of_onPeerRead {r : ReadResult} {call : SysResult Unit}
    (hopen : client.closing = false) (hs : onPeerRead mode r call client = .running client') :
    Moves mode client (.read c r call) client' := by
  cases r with
  | eof =>
      cases hs
      exact .hangup c call hopen (by simp)
  | error e =>
      cases hs
      exact .hangup c call hopen (by simp)
  | bytes data =>
      cases data with
      | nil =>
          cases hs
          exact .nothing c call hopen
      | cons b data =>
          cases mode with
          | workQueue =>
              cases call with
              | error e => cases hs
              | ok u =>
                  cases hs
                  exact .queue c hopen (by simp) rfl
          | block =>
              simp only [onPeerRead] at hs
              split at hs
              · cases hs
              · next peer hpeer =>
                  cases call with
                  | error e => cases hs
                  | ok u =>
                      cases hs
                      exact .answer c hopen (by simp) rfl hpeer

theorem moves_of_completed {status write : SysResult Unit} (hexecuted : 0 < client.executed)
    (hfails : client.closing = true → write ≠ .ok ())
    (hs : client.completed status write = .running client') :
    Moves mode client (.completed c status write) client' := by
  unfold Client.completed at hs
  split at hs
  · cases hs
  · cases status with
    | error e => cases hs
    | ok u =>
        cases write with
        | error e => cases hs
        | ok u' =>
            cases hs
            have hopen : client.closing = false :=
              Bool.eq_false_of_not_eq_true fun hclosing => hfails hclosing rfl
            exact .completed c hopen (Nat.succ_pred_eq_of_pos hexecuted).symm

theorem moves_of_sent {status : SysResult Unit} {w : Write Unit} {ws : List (Write Unit)}
    (hwrites : client.writes = w :: ws) (hcompletes : client.Completes uvEcanceled w status)
    (hs : onSentResponse status { client with writes := ws } = .running client') :
    Moves mode client (.sent c status) client' := by
  cases status with
  | error e => cases hs
  | ok u =>
      cases hs
      exact .sent c hwrites (hcompletes.eq_ok_iff.mp rfl)

theorem moves_of_step (hs : client.step mode l = some (.running (some client'))) :
    Moves mode client l client' := by
  cases l with
  | connected c r peer => cases hs
  | read c r call =>
      simp only [Client.step, Option.ite_none_left_eq_some, Option.some.injEq] at hs
      obtain ⟨hopen, hs⟩ := hs
      obtain ⟨mid, hmid, hs⟩ := Process.andThen_eq_running hs
      cases hs
      exact moves_of_onPeerRead (Bool.eq_false_of_not_eq_true hopen) hmid
  | work c =>
      simp only [Client.step, Option.ite_none_right_eq_some, Option.some.injEq] at hs
      obtain ⟨hqueued, hs⟩ := hs
      obtain ⟨mid, hmid, hs⟩ := Process.andThen_eq_running hs
      cases hs
      unfold Client.work at hmid
      split at hmid
      · cases hmid
      · split at hmid
        · cases hmid
        · next peer hpeer =>
            cases hmid
            exact .work c (Nat.succ_pred_eq_of_pos hqueued).symm hpeer
  | completed c status write =>
      simp only [Client.step, Option.ite_none_right_eq_some, Option.some.injEq] at hs
      obtain ⟨⟨hexecuted, hfails⟩, hs⟩ := hs
      obtain ⟨mid, hmid, hs⟩ := Process.andThen_eq_running hs
      cases hs
      exact moves_of_completed hexecuted hfails hmid
  | transmit c k =>
      obtain ⟨mid, hmid, hs⟩ := Option.map_eq_some_iff.mp hs
      cases hs
      obtain ⟨hopen, r, hr, rfl⟩ := Handle.transmit_eq_some hmid
      exact .transmit c k hopen hr
  | sent c status =>
      cases hwrites : client.writes with
      | nil => simp [Client.step, hwrites] at hs
      | cons w ws =>
          simp only [Client.step, hwrites, Option.ite_none_right_eq_some, Option.some.injEq] at hs
          obtain ⟨hcompletes, hs⟩ := hs
          obtain ⟨mid, hmid, hs⟩ := Process.andThen_eq_running hs
          cases hs
          exact moves_of_sent hwrites hcompletes hmid
  | closed c =>
      simp only [Client.step, Option.ite_none_right_eq_some, Option.some.injEq,
        Bool.and_eq_true] at hs
      obtain ⟨⟨⟨hclosing, _⟩, _⟩, hs⟩ := hs
      unfold Client.close at hs
      split at hs
      · cases hs
      · next hwork =>
          cases hs
          exact .closed c hclosing hwork

/-! ## From clients to the server -/

/-- A condition on the steps of single clients. -/
abbrev perClient (ok : Client → Label → Prop) : Process Server → Label → Prop :=
  Clients.perClient Label.client ok

theorem onPeerConnected_running {r : Connected} {peer : PeerState}
    (hs : onPeerConnected r peer c s = .running s') :
    s' = s ∨ s' = s.set c (some (.connected peer)) := by
  unfold onPeerConnected at hs
  split at hs
  case h_1 | h_3 =>
    cases hs
    exact Or.inl rfl
  case h_6 =>
    cases hs
    exact Or.inr rfl
  all_goals cases hs

theorem arrive_running (hs : s.arrive l = some (.running s')) :
    s' = s ∨ ∃ peer, s' = s.set l.client (some (.connected peer)) := by
  cases l with
  | connected c r peer =>
      exact (onPeerConnected_running (Option.some.inj hs)).imp id fun h => ⟨peer, h⟩
  | _ => cases hs

/-- The invariant rule for single clients. -/
theorem clients_invariant {ok : Client → Label → Prop} {P : Client → Prop}
    (hconnected : ∀ peer, P (.connected peer))
    (hstep : ∀ client l client', P client → ok client l →
      client.step mode l = some (.running (some client')) → P client')
    (h : (server mode).ReachableBy (perClient ok) (.running s)) (hc : s.clients c = some client) :
    P client := by
  refine Clients.invariant ?_ ?_ hstep h hc
  · rintro _ rfl c client hclient
    cases hclient
  · intro s l s' hs
    refine (arrive_running hs).imp id ?_
    rintro ⟨peer, rfl⟩
    exact ⟨_, hconnected peer, rfl⟩

end ConcurrentServers.Isprime

import ConcurrentServers.Uv.Consume

/-!
# What one step can do

A step is one of a single client, or its arrival, and leaves the others alone.
So an invariant is one on a single client, and a condition on the environment is
one on a single step. Only this module opens the step function.
-/

namespace ConcurrentServers.Uv

open Systems

variable {s s' : Server} {client client' : Client} {l : Label} {c : ℕ}

/-! ## From clients to the server -/

/-- A condition on the steps of single clients. -/
abbrev perClient (ok : Client → Label → Prop) : Process Server → Label → Prop :=
  Clients.perClient Label.client ok

/-- A client behind `on_peer_connected`. -/
def Client.greeted (sendbuf : List.Vector UInt8 sendbufSize) : Client :=
  { Client.connected sendbuf with writes := [⟨.onWroteInitAck, 1, 0⟩] }

theorem onPeerConnected_running {r : Connected} {sendbuf : List.Vector UInt8 sendbufSize}
    (hs : onPeerConnected r sendbuf c s = .running s') :
    s' = s ∨ s' = s.set c (some (.greeted sendbuf)) := by
  unfold onPeerConnected at hs
  split at hs
  · cases hs
    exact Or.inl rfl
  · cases hs
  · cases hs
    exact Or.inl rfl
  · cases hs
  · obtain ⟨client, hwrite, hs⟩ := Process.andThen_eq_running hs
    cases hs
    cases hr : r.write with
    | error e =>
        rw [hr] at hwrite
        cases hwrite
    | ok u =>
        rw [hr] at hwrite
        cases hwrite
        exact Or.inr rfl

theorem arrive_running (hs : s.arrive l = some (.running s')) :
    s' = s ∨ ∃ sendbuf, s' = s.set l.client (some (.greeted sendbuf)) := by
  cases l with
  | connected c r sendbuf =>
      exact (onPeerConnected_running (Option.some.inj hs)).imp id fun h => ⟨sendbuf, h⟩
  | _ => cases hs

/-- The invariant rule for single clients. -/
theorem clients_invariant {ok : Client → Label → Prop} {P : Client → Prop}
    (hgreeted : ∀ sendbuf, P (.greeted sendbuf))
    (hstep : ∀ client l client', P client → ok client l →
      client.step l = some (.running (some client')) → P client')
    (h : server.ReachableBy (perClient ok) (.running s)) (hc : s.clients c = some client) :
    P client := by
  refine Clients.invariant ?_ ?_ hstep h hc
  · rintro _ rfl c client hclient
    cases hclient
  · intro s l s' hs
    refine (arrive_running hs).imp id ?_
    rintro ⟨sendbuf, rfl⟩
    exact ⟨_, hgreeted sendbuf, rfl⟩

/-! ## What one step of a client can do -/

/-- Reads are delivered to the client. -/
def Client.Reads (client : Client) : Prop := client.reading = true ∧ client.closing = false

/-- The steps that leave the client in place and the process running. -/
inductive Moves (client : Client) : Label → Client → Prop where
  | transmit (c k : ℕ) {r : List (Write Callback) × List UInt8} (hopen : client.closing = false)
      (h : Write.transmit client.peer.sendbuf k client.writes = some r) :
      Moves client (.transmit c k)
        { client with writes := r.1, transmitted := client.transmitted ++ r.2 }
  | wroteInitAck (c : ℕ) {w : Write Callback} {ws : List (Write Callback)}
      (hwrites : client.writes = w :: ws) (hkind : w.kind = .onWroteInitAck) (hw : w.Transmitted) :
      Moves client (.wrote c (.ok ()) (.ok ())) { client with
        writes := ws
        peer := { client.peer with state := .waitForMsg, sendbufEnd := 0 }
        reading := true }
  | wroteBuf (c : ℕ) (readStart : SysResult Unit) {w : Write Callback}
      {ws : List (Write Callback)} (hwrites : client.writes = w :: ws)
      (hkind : w.kind = .onWroteBuf) (hw : w.Transmitted) :
      Moves client (.wrote c (.ok ()) readStart)
        { client with writes := ws, peer := { client.peer with sendbufEnd := 0 } }
  | hangup (c : ℕ) {r : ReadResult} (write : SysResult Unit) (hreads : client.Reads)
      (hr : ∀ data, r ≠ .bytes data) :
      Moves client (.read c r write) { client with closing := true }
  | nothing (c : ℕ) (write : SysResult Unit) (hreads : client.Reads) :
      Moves client (.read c (.bytes []) write) client
  | ignore (c : ℕ) {data : List UInt8} (write : SysResult Unit) (hreads : client.Reads)
      (hne : data ≠ []) (hstate : client.peer.state = .initialAck) :
      Moves client (.read c (.bytes data) write)
        { client with received := client.received ++ data }
  | consume (c : ℕ) {data : List UInt8} (write : SysResult Unit) {peer : PeerState}
      {ws : List (Write Callback)} (hreads : client.Reads) (hne : data ≠ [])
      (hstate : client.peer.state ≠ .initialAck)
      (hpeer : Uv.consume client.peer data = some peer)
      (hws : ws = if peer.sendbufEnd > 0 then client.writes ++ [⟨.onWroteBuf, peer.sendbufEnd, 0⟩]
        else client.writes) :
      Moves client (.read c (.bytes data) write) { client with
        received := client.received ++ data
        peer := peer
        writes := ws }

theorem moves_of_onPeerRead {r : ReadResult} {write : SysResult Unit}
    (hreads : client.Reads) (hs : onPeerRead r write client = .running client') :
    Moves client (.read c r write) client' := by
  cases r with
  | eof =>
      cases hs
      exact .hangup c write hreads nofun
  | error e =>
      cases hs
      exact .hangup c write hreads nofun
  | bytes data =>
      cases data with
      | nil =>
          cases hs
          exact .nothing c write hreads
      | cons b data =>
          simp only [onPeerRead] at hs
          split at hs
          · next hstate =>
              cases hs
              exact .ignore c write hreads (by simp) hstate
          · next hstate =>
              split at hs
              · cases hs
              · next peer hpeer =>
                  split at hs
                  · next hpos =>
                      cases write with
                      | error e => cases hs
                      | ok u =>
                          cases hs
                          exact .consume c _ hreads (by simp) hstate hpeer (if_pos hpos).symm
                  · next hzero =>
                      cases hs
                      exact .consume c _ hreads (by simp) hstate hpeer (if_neg hzero).symm

theorem moves_of_onWrote {status readStart : SysResult Unit} {w : Write Callback}
    {ws : List (Write Callback)} (hwrites : client.writes = w :: ws)
    (hcompletes : client.Completes uvEcanceled w status)
    (hs : onWrote w.kind status readStart { client with writes := ws } = .running client') :
    Moves client (.wrote c status readStart) client' := by
  cases status with
  | error e =>
      cases hkind : w.kind with
      | onWroteInitAck =>
          rw [hkind] at hs
          cases readStart <;> cases hs
      | onWroteBuf =>
          rw [hkind] at hs
          cases hs
  | ok u =>
      have hw : w.Transmitted := hcompletes.eq_ok_iff.mp rfl
      cases hkind : w.kind with
      | onWroteInitAck =>
          rw [hkind] at hs
          cases readStart with
          | error e => cases hs
          | ok u' =>
              cases hs
              exact .wroteInitAck c hwrites hkind hw
      | onWroteBuf =>
          rw [hkind] at hs
          simp only [onWrote, onWroteBuf] at hs
          split at hs
          · cases hs
          · cases hs
            exact .wroteBuf c readStart hwrites hkind hw

theorem moves_of_step (hs : client.step l = some (.running (some client'))) :
    Moves client l client' := by
  cases l with
  | connected c r sendbuf => cases hs
  | transmit c k =>
      obtain ⟨mid, hmid, hs⟩ := Option.map_eq_some_iff.mp hs
      cases hs
      obtain ⟨hopen, r, hr, rfl⟩ := Handle.transmit_eq_some hmid
      exact .transmit c k hopen hr
  | wrote c status readStart =>
      cases hwrites : client.writes with
      | nil => simp [Client.step, hwrites] at hs
      | cons w ws =>
          simp only [Client.step, hwrites, Option.ite_none_right_eq_some, Option.some.injEq] at hs
          obtain ⟨hcompletes, hs⟩ := hs
          obtain ⟨mid, hmid, hs⟩ := Process.andThen_eq_running hs
          cases hs
          exact moves_of_onWrote hwrites hcompletes hmid
  | read c r write =>
      simp only [Client.step, Option.ite_none_right_eq_some, Option.some.injEq,
        Bool.and_eq_true, Bool.not_eq_true'] at hs
      obtain ⟨hreads, hs⟩ := hs
      obtain ⟨mid, hmid, hs⟩ := Process.andThen_eq_running hs
      cases hs
      exact moves_of_onPeerRead hreads hmid
  | closed c =>
      simp only [Client.step, Option.ite_none_right_eq_some, Option.some.injEq] at hs
      cases hs.2

end ConcurrentServers.Uv

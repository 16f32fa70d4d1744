import ConcurrentServers.Isprime.Moves
import Mathlib.Data.Prod.Lex

/-!
# Who gets which reply

The bytes that a connection still owes are the ones behind its queued writes and
those of the work items that are reported later, all read from the one `sendbuf`
as it is. They are right as long as neither `number` nor `sendbuf` is replaced
too early.
-/

namespace ConcurrentServers.Isprime

open Systems
open Systems.Text (ascii)
open Uv (ReadResult)

variable {mode : Mode} {s s' : Server} {client client' : Client} {l : Label} {c : ℕ}

/-! ## What is owed -/

/-- Every request has been answered completely. -/
structure Client.Settled (client : Client) : Prop where
  queued : client.queued = 0
  executed : client.executed = 0
  writes : Write.left client.writes = 0

/-- The bytes of all replies that workers have staged, as `sendbuf` is now. -/
def Client.outstanding (client : Client) : List UInt8 :=
  Write.pending client.peer.sendbuf client.writes ++
    (List.replicate client.executed
      (Buffer.slice client.peer.sendbuf 0 client.peer.sendbufEnd)).flatten

/-- `number` is replaced only when no request waits for a worker, and `sendbuf`
only when every reply staged before has been transmitted. A peer leaves only
when all its requests are answered. -/
def orderly (mode : Mode) (client : Client) : Label → Prop
  | .read _ (.bytes data) _ =>
      data ≠ [] →
        match mode with
        | .workQueue => client.queued = 0
        | .block => Write.left client.writes = 0
  | .read _ _ _ => client.Settled
  | .work _ => client.executed = 0 ∧ Write.left client.writes = 0
  | _ => True

theorem settled_of_hangup {r : ReadResult} {call : SysResult Unit}
    (hok : orderly mode client (.read c r call)) (hr : ∀ data, r ≠ .bytes data) :
    client.Settled := by
  cases r with
  | bytes data => exact absurd rfl (hr data)
  | eof => exact hok
  | error e => exact hok

/-- The requests that wait for a worker are the last ones, and their number is the
one that the worker will find. -/
structure Tracks (mode : Mode) (client : Client) (taken waiting : List (List UInt8)) : Prop where
  requests : client.requests = taken ++ waiting
  queued : waiting.length = client.queued
  number : ∀ data ∈ waiting, parseNumber 0 data = client.peer.number
  stream : client.transmitted ++ client.outstanding = (taken.map reply).flatten
  block : mode = .block → client.queued = 0 ∧ client.executed = 0
  closing : client.closing = true → client.Settled
  freed : client.freed = false

/-- Without staged replies nothing depends on `sendbuf`. -/
theorem outstanding_of_left (hexecuted : client.executed = 0)
    (hleft : Write.left client.writes = 0) : client.outstanding = [] := by
  rw [Client.outstanding, hexecuted, Write.pending_of_left hleft]
  rfl

theorem Client.Settled.outstanding (h : client.Settled) : client.outstanding = [] :=
  outstanding_of_left h.executed h.writes

section Tracks

variable {taken waiting : List (List UInt8)}

theorem tracks_connected (peer : PeerState) : Tracks mode (.connected peer) [] [] where
  requests := rfl
  queued := rfl
  number := by simp
  stream := rfl
  block _ := ⟨rfl, rfl⟩
  closing h := by cases h
  freed := rfl

theorem Tracks.queue {data : List UInt8} (h : Tracks .workQueue client taken waiting)
    (hqueued : client.queued = 0) (hopen : client.closing = false) :
    Tracks .workQueue { client with
      peer := { client.peer with number := parseNumber 0 data }
      requests := client.requests ++ [data]
      queued := client.queued + 1 } taken [data] where
  requests := by
    have hwaiting : waiting = [] := List.length_eq_zero_iff.mp (h.queued.trans hqueued)
    rw [h.requests, hwaiting, List.append_nil]
  queued := by rw [hqueued, List.length_singleton]
  number := by simp
  stream := h.stream
  block hmode := by cases hmode
  closing hclosing := absurd hclosing (by simp [hopen])
  freed := h.freed

theorem Tracks.answer {data : List UInt8} {peer : PeerState}
    (h : Tracks .block client taken waiting) (hleft : Write.left client.writes = 0)
    (hopen : client.closing = false)
    (hpeer : onWorkSubmitted { client.peer with number := parseNumber 0 data } = some peer) :
    Tracks .block { client with
      peer := peer
      requests := client.requests ++ [data]
      writes := client.writes ++ [⟨(), peer.sendbufEnd, 0⟩] } (taken ++ [data]) [] := by
  obtain ⟨hqueued, hexecuted⟩ := h.block rfl
  have hwaiting : waiting = [] := List.length_eq_zero_iff.mp (h.queued.trans hqueued)
  obtain ⟨peer', hpeer', _, hstaged⟩ :=
    onWorkSubmitted_eq { client.peer with number := parseNumber 0 data }
  cases hpeer.symm.trans hpeer'
  refine ⟨?_, hqueued.symm, by simp, ?_, h.block, fun hclosing => ?_, h.freed⟩
  · rw [h.requests, hwaiting, List.append_nil, List.append_nil]
  · have hold := h.stream
    rw [outstanding_of_left hexecuted hleft, List.append_nil] at hold
    simp only [Client.outstanding, hexecuted, Write.pending_append, Write.pending_of_left hleft,
      Write.pending_cons, Write.pending_nil, hstaged, hold, List.map_append, List.flatten_append,
      List.nil_append, List.append_nil, List.replicate_zero, List.flatten_nil, List.map_cons,
      List.map_nil, List.flatten_cons]
    rfl
  · exact absurd hclosing (by simp [hopen])

/-- The worker takes the first request that waits. -/
theorem Tracks.work {peer : PeerState} {q : ℕ} (h : Tracks mode client taken waiting)
    (hqueued : client.queued = q + 1) (hpeer : onWorkSubmitted client.peer = some peer)
    (hexecuted : client.executed = 0) (hleft : Write.left client.writes = 0) :
    ∃ data rest, waiting = data :: rest ∧ Tracks mode { client with
      peer := peer, queued := q, executed := client.executed + 1 } (taken ++ [data]) rest := by
  obtain ⟨data, rest, rfl⟩ : ∃ data rest, waiting = data :: rest :=
    List.exists_cons_of_length_eq_add_one (h.queued.trans hqueued)
  obtain ⟨peer', hpeer', hnumber, hstaged⟩ := onWorkSubmitted_eq client.peer
  cases hpeer.symm.trans hpeer'
  refine ⟨data, rest, rfl, ?_, ?_, ?_, ?_, fun hmode => ?_, fun hclosing => ?_, h.freed⟩
  · rw [h.requests, List.append_assoc]
    rfl
  · have hlen := h.queued
    rw [List.length_cons, hqueued] at hlen
    exact Nat.succ_injective hlen
  · intro d hd
    rw [hnumber]
    exact h.number d (List.mem_cons_of_mem data hd)
  · have hold := h.stream
    have hown := h.number data List.mem_cons_self
    rw [outstanding_of_left hexecuted hleft, List.append_nil] at hold
    simp only [Client.outstanding, hexecuted, Write.pending_of_left hleft, hstaged, hold, ← hown,
      List.map_append, List.flatten_append, List.nil_append, List.replicate_succ,
      List.replicate_zero, List.map_cons, List.map_nil]
    rfl
  · cases hqueued.symm.trans (h.block hmode).1
  · cases hqueued.symm.trans (h.closing hclosing).queued

/-- A completion only moves the reply from the work items to the writes. -/
theorem Tracks.completed {e : ℕ} (h : Tracks mode client taken waiting)
    (hexecuted : client.executed = e + 1) (hopen : client.closing = false) :
    Tracks mode { client with
      executed := e
      writes := client.writes ++ [⟨(), client.peer.sendbufEnd, 0⟩] } taken waiting where
  requests := h.requests
  queued := h.queued
  number := h.number
  stream := by
    rw [← h.stream]
    simp only [Client.outstanding, hexecuted, Write.pending_append, Write.pending_cons,
      Write.pending_nil, List.replicate_succ, List.flatten_cons, List.append_nil,
      List.append_assoc]
  block hmode := by cases hexecuted.symm.trans (h.block hmode).2
  closing hclosing := absurd hclosing (by simp [hopen])
  freed := h.freed

theorem Tracks.transmit {k : ℕ} {r : List (Write Unit) × List UInt8}
    (h : Tracks mode client taken waiting) (hopen : client.closing = false)
    (hr : Write.transmit client.peer.sendbuf k client.writes = some r) :
    Tracks mode { client with writes := r.1, transmitted := client.transmitted ++ r.2 }
      taken waiting where
  requests := h.requests
  queued := h.queued
  number := h.number
  stream := by
    rw [← h.stream]
    simp only [Client.outstanding, (Write.transmit_pending hr).1, List.append_assoc]
  block := h.block
  closing hclosing := absurd hclosing (by simp [hopen])
  freed := h.freed

theorem Tracks.sent {w : Write Unit} {ws : List (Write Unit)}
    (h : Tracks mode client taken waiting) (hwrites : client.writes = w :: ws)
    (hw : w.Transmitted) : Tracks mode { client with writes := ws } taken waiting where
  requests := h.requests
  queued := h.queued
  number := h.number
  stream := by
    rw [← h.stream]
    simp only [Client.outstanding, hwrites, Write.pending_cons, Buffer.slice_of_le _ hw.ge,
      List.nil_append]
  block := h.block
  closing hclosing := by
    have hsettled := h.closing hclosing
    have hleft := hsettled.writes
    rw [hwrites, Write.left_cons, Nat.add_eq_zero_iff] at hleft
    exact ⟨hsettled.queued, hsettled.executed, hleft.2⟩
  freed := h.freed

theorem Tracks.moves (h : Tracks mode client taken waiting) (hok : orderly mode client l)
    (hmoves : Moves mode client l client') :
    ∃ taken waiting, Tracks mode client' taken waiting := by
  cases hmoves with
  | hangup c call hopen hr =>
      have hsettled := settled_of_hangup hok hr
      exact ⟨taken, waiting, h.requests, h.queued, h.number, h.stream, h.block,
        fun _ => ⟨hsettled.queued, hsettled.executed, hsettled.writes⟩, h.freed⟩
  | nothing c call hopen => exact ⟨taken, waiting, h⟩
  | queue c hopen hne hmode =>
      subst hmode
      exact ⟨taken, [_], h.queue (hok hne) hopen⟩
  | answer c hopen hne hmode hpeer =>
      subst hmode
      exact ⟨_, [], h.answer (hok hne) hopen hpeer⟩
  | work c hqueued hpeer =>
      obtain ⟨data, rest, _, hwork⟩ := h.work hqueued hpeer hok.1 hok.2
      exact ⟨_, rest, hwork⟩
  | completed c hopen hexecuted => exact ⟨taken, waiting, h.completed hexecuted hopen⟩
  | transmit c k hopen hr => exact ⟨taken, waiting, h.transmit hopen hr⟩
  | sent c hwrites hw => exact ⟨taken, waiting, h.sent hwrites hw⟩
  | closed c hclosing hwork =>
      have hsettled := h.closing hclosing
      exact absurd ⟨hsettled.queued, hsettled.executed⟩ hwork

end Tracks

/-! ## The stream -/

theorem exists_tracks (h : (server mode).ReachableBy (perClient (orderly mode)) (.running s))
    (hc : s.clients c = some client) : ∃ taken waiting, Tracks mode client taken waiting := by
  refine clients_invariant (P := fun client => ∃ taken waiting, Tracks mode client taken waiting)
    ?_ ?_ h hc
  · exact fun peer => ⟨[], [], tracks_connected peer⟩
  · rintro client l client' ⟨taken, waiting, htracks⟩ hok hs
    exact htracks.moves hok (moves_of_step hs)

theorem transmitted_isPrefix
    (h : (server mode).ReachableBy (perClient (orderly mode)) (.running s))
    (hc : s.clients c = some client) :
    client.transmitted <+: (client.requests.map reply).flatten := by
  obtain ⟨taken, waiting, htracks⟩ := exists_tracks h hc
  rw [htracks.requests, List.map_append, List.flatten_append, ← htracks.stream, List.append_assoc]
  exact List.prefix_append _ _

theorem transmitted_of_settled
    (h : (server mode).ReachableBy (perClient (orderly mode)) (.running s))
    (hc : s.clients c = some client) (hsettled : client.Settled) :
    client.transmitted = (client.requests.map reply).flatten := by
  obtain ⟨taken, waiting, htracks⟩ := exists_tracks h hc
  have hwaiting : waiting = [] :=
    List.length_eq_zero_iff.mp (htracks.queued.trans hsettled.queued)
  have hstream := htracks.stream
  rw [hsettled.outstanding, List.append_nil] at hstream
  rw [hstream, htracks.requests, hwaiting, List.append_nil]

/-! ## Every request is answered -/

/-- The steps that answer requests of a client. -/
def Label.Serves (c : ℕ) : Label → Prop
  | .work c' | .completed c' _ _ | .transmit c' _ => c' = c
  | _ => False

/-- What is left to do: work items to run, then completions, then bytes. -/
def Client.load (client : Client) : ℕ ×ₗ ℕ ×ₗ ℕ :=
  toLex (client.queued, toLex (client.executed, Write.left client.writes))

/-- The client is in the state in which it accepts requests. -/
structure Open (requests : List (List UInt8)) (client : Client) : Prop where
  closing : client.closing = false
  freed : client.freed = false
  requests : client.requests = requests

theorem Open.exists_step {requests : List (List UInt8)} (h : Open requests client)
    (hnot : ¬client.Settled) (mode : Mode) (c : ℕ) :
    ∃ l client', orderly mode client l ∧ l.Serves c ∧
      client.step mode l = some (.running (some client')) ∧ Open requests client' ∧
      client'.load < client.load := by
  have hclosing := h.closing
  have hfreed := h.freed
  by_cases hleft : Write.left client.writes = 0
  · by_cases hexecuted : client.executed = 0
    · have hqueued : 0 < client.queued :=
        Nat.pos_of_ne_zero fun hqueued => hnot ⟨hqueued, hexecuted, hleft⟩
      obtain ⟨peer, hpeer, _⟩ := onWorkSubmitted_eq client.peer
      refine ⟨.work c, { client with
          peer := peer, queued := client.queued - 1, executed := client.executed + 1 },
        ⟨hexecuted, hleft⟩, rfl, ?_, ⟨h.closing, h.freed, h.requests⟩, ?_⟩
      · simp [Client.step, Client.work, hqueued, hfreed, hpeer, Process.andThen]
      · exact Prod.Lex.toLex_lt_toLex.mpr (Or.inl (Nat.sub_one_lt_of_lt hqueued))
    · have hpos : 0 < client.executed := Nat.pos_of_ne_zero hexecuted
      refine ⟨.completed c (.ok ()) (.ok ()), { client with
          executed := client.executed - 1
          writes := client.writes ++ [⟨(), client.peer.sendbufEnd, 0⟩] },
        trivial, rfl, ?_, ⟨h.closing, h.freed, h.requests⟩, ?_⟩
      · simp [Client.step, Client.completed, hpos, hclosing, hfreed, onWorkCompleted,
          Client.uvWrite, Process.andThen]
      · exact Prod.Lex.toLex_lt_toLex.mpr (Or.inr ⟨rfl,
          Prod.Lex.toLex_lt_toLex.mpr (Or.inl (Nat.sub_one_lt_of_lt hpos))⟩)
  · obtain ⟨r, hr⟩ := Write.exists_transmit hleft client.peer.sendbuf
    refine ⟨.transmit c 1, { client with
        writes := r.1, transmitted := client.transmitted ++ r.2 },
      trivial, rfl, ?_, ⟨h.closing, h.freed, h.requests⟩, ?_⟩
    · simp [Client.step, Handle.transmit, hclosing, hr]
    · have hone := (Write.transmit_pending hr).2
      refine Prod.Lex.toLex_lt_toLex.mpr (Or.inr ⟨rfl,
        Prod.Lex.toLex_lt_toLex.mpr (Or.inr ⟨rfl, ?_⟩)⟩)
      show Write.left r.1 < Write.left client.writes
      omega

theorem Label.Serves.client_eq (h : l.Serves c) : l.client = c := by
  cases l with
  | connected | read | sent | closed => cases h
  | work | completed | transmit => exact h

/-- The load of one client of the process. -/
def loadOf (c : ℕ) : Process Server → ℕ ×ₗ ℕ ×ₗ ℕ
  | .running s => (s.clients c).elim (toLex (0, toLex (0, 0))) Client.load
  | .exited => toLex (0, toLex (0, 0))

theorem loadOf_running (hc : s.clients c = some client) :
    loadOf c (.running s) = client.load := by
  rw [loadOf, hc, Option.elim_some]

theorem exists_step_running (mode : Mode) (c : ℕ) (requests : List (List UInt8))
    (p : Process Server)
    (hp : ∃ s client, p = .running s ∧ s.clients c = some client ∧ Open requests client)
    (hnot : ¬∀ s client, p = .running s → s.clients c = some client → client.Settled) :
    ∃ l q, perClient (orderly mode) p l ∧ l.Serves c ∧ (server mode).step p l = some q ∧
      (∃ s client, q = .running s ∧ s.clients c = some client ∧ Open requests client) ∧
      loadOf c q < loadOf c p := by
  obtain ⟨s, client, rfl, hc, hopen⟩ := hp
  have hunsettled : ¬client.Settled := by
    intro hsettled
    apply hnot
    rintro _ client' ⟨⟩ hc'
    cases hc.symm.trans hc'
    exact hsettled
  obtain ⟨l, next, hok, hserves, hstep, hnext, hlt⟩ := hopen.exists_step hunsettled mode c
  obtain rfl := hserves.client_eq
  refine ⟨l, _, ?_, hserves, Clients.step_client hc hstep,
    ⟨_, next, rfl, Clients.clients_set_same _, hnext⟩, ?_⟩
  · intro client' hc'
    cases hc.symm.trans hc'
    exact hok
  · rwa [loadOf_running hc, loadOf_running (Clients.clients_set_same _)]

/-- Whatever has been read can be answered without another read. -/
theorem exists_settled (h : (server mode).ReachableBy (perClient (orderly mode)) (.running s))
    (hc : s.clients c = some client) :
    ∃ as s' client', (server mode).run (.running s) as = some (.running s') ∧
      (server mode).Admits (perClient (orderly mode)) (.running s) as ∧
      (∀ l ∈ as, l.Serves c) ∧ s'.clients c = some client' ∧
      client'.requests = client.requests ∧ client'.Settled := by
  obtain ⟨taken, waiting, htracks⟩ := exists_tracks h hc
  by_cases hclosing : client.closing = true
  · exact ⟨[], s, client, rfl, trivial, by simp, hc, rfl, htracks.closing hclosing⟩
  · have hopen : Open client.requests client :=
      ⟨Bool.eq_false_of_not_eq_true hclosing, htracks.freed, rfl⟩
    obtain ⟨as, _, hrun, hadmits, hserves, ⟨s', client', rfl, hc', hopen'⟩, hsettled⟩ :=
      Machine.exists_run_of_progress (loadOf c) (exists_step_running mode c client.requests)
        ⟨s, client, rfl, hc, hopen⟩
    exact ⟨as, s', client', hrun, hadmits, hserves, hc', hopen'.requests,
      hsettled s' client' rfl hc'⟩

/-! ## The replies that the peer sees -/

/-- The lines of what was transmitted. -/
def replies (stream : List UInt8) : List (List UInt8) := (stream.splitOn '\n'.toUInt8).dropLast

theorem newline_notMem_word (n : UInt64) : '\n'.toUInt8 ∉ word n := by
  unfold word
  split
  · decide
  · decide

theorem replies_reply (requests : List (List UInt8)) :
    replies (requests.map reply).flatten =
      requests.map fun data => word (parseNumber 0 data) := by
  induction requests with
  | nil => rfl
  | cons data requests ih =>
      have hsplit := List.splitOn_append_cons_self_of_not_mem
        (newline_notMem_word (parseNumber 0 data)) (requests.map reply).flatten
      rw [List.map_cons, List.flatten_cons, reply, List.append_assoc, List.singleton_append,
        replies, hsplit, List.dropLast_cons_of_ne_nil (List.splitOn_ne_nil _ _), List.map_cons,
        ← ih]
      rfl

/-- If neither `number` nor `sendbuf` is replaced too early, the peer gets one reply
to each request, in their order, and with `MODE=BLOCK` the same ones. -/
theorem replies_own_numbers
    (h : (server .workQueue).ReachableBy (perClient (orderly .workQueue)) (.running s))
    (hc : s.clients c = some client) :
    client.transmitted <+: (client.requests.map reply).flatten ∧
    (client.Settled →
      replies client.transmitted = client.requests.map fun data => word (parseNumber 0 data)) ∧
    (∃ as s' client', (server .workQueue).run (.running s) as = some (.running s') ∧
      (∀ l ∈ as, l.Serves c) ∧ s'.clients c = some client' ∧ client'.Settled ∧
      replies client'.transmitted = client.requests.map fun data => word (parseNumber 0 data)) ∧
    ∀ s' c' client', (server .block).ReachableBy (perClient (orderly .block)) (.running s') →
      s'.clients c' = some client' → client.Settled → client'.Settled →
      client'.requests.Perm client.requests →
      (replies client'.transmitted).Perm (replies client.transmitted) := by
  refine ⟨transmitted_isPrefix h hc, fun hsettled => ?_, ?_, ?_⟩
  · rw [transmitted_of_settled h hc hsettled, replies_reply]
  · obtain ⟨as, s', client', hrun, hadmits, hserves, hc', hrequests, hsettled⟩ :=
      exists_settled h hc
    refine ⟨as, s', client', hrun, hserves, hc', hsettled, ?_⟩
    rw [transmitted_of_settled (h.run as hadmits hrun) hc' hsettled, replies_reply, hrequests]
  · intro s' c' client' h' hc' hsettled hsettled' hperm
    rw [transmitted_of_settled h hc hsettled, transmitted_of_settled h' hc' hsettled',
      replies_reply, replies_reply]
    exact hperm.map _

def blankPeer : PeerState := ⟨0, List.Vector.replicate sendbufSize 0, 0⟩

def arrive (c : ℕ) : Label := .connected c ⟨.ok (), .ok (), .ok (), .ok (), .ok ()⟩ blankPeer

def request (c : ℕ) (text : String) : Label := .read c (.bytes (ascii text)) (.ok ())

def report (c : ℕ) : Label := .completed c (.ok ()) (.ok ())

/-- The second request is read when the worker has run for the first one. -/
def overlapping : List Label := [arrive 0, request 0 "4\n", .work 0, request 0 "7\n"]

theorem admits_overlapping :
    (server .workQueue).Admits (perClient (orderly .workQueue)) (.running .start) overlapping := by
  refine ⟨Clients.perClient_of_forall (fun _ => trivial) _, ?_⟩
  rintro _ ⟨⟩
  refine ⟨?_, ?_⟩
  · rintro _ ⟨⟩ _
    rfl
  rintro _ ⟨⟩
  refine ⟨?_, ?_⟩
  · rintro _ ⟨⟩
    exact ⟨rfl, rfl⟩
  rintro _ ⟨⟩
  refine ⟨?_, fun _ _ => trivial⟩
  rintro _ ⟨⟩ _
  rfl

theorem replies_own_numbers_overlapping :
    ∃ s, (server .workQueue).run (.running .start) overlapping = some (.running s) ∧
      ∃ as s' client', (server .workQueue).run (.running s) as = some (.running s') ∧
        s'.clients 0 = some client' ∧ client'.Settled ∧
        replies client'.transmitted = [ascii "composite", ascii "prime"] := by
  obtain ⟨s, client, hrun, hc, hrequests⟩ : ∃ s client,
      (server .workQueue).run (.running .start) overlapping = some (.running s) ∧
      s.clients 0 = some client ∧ client.requests = [ascii "4\n", ascii "7\n"] :=
    ⟨_, _, rfl, rfl, rfl⟩
  have hreach := Machine.ReachableBy.run (M := server .workQueue) (.init ⟨_, rfl, rfl⟩) overlapping
    admits_overlapping hrun
  obtain ⟨as, s', client', hrun', _, hc', hsettled, hreplies⟩ :=
    (replies_own_numbers hreach hc).2.2.1
  rw [hrequests] at hreplies
  exact ⟨s, hrun, as, s', client', hrun', hc', hsettled, hreplies.trans (by decide)⟩

/-- The second request is read before the worker has run for the first one. -/
def pipelined : List Label :=
  [arrive 0, request 0 "4\n", request 0 "7\n", .work 0, report 0, .transmit 0 6, .work 0,
    report 0, .transmit 0 6]

/-- Both workers find the number of the second request. -/
theorem number_overwritten :
    ∃ s client, (server .workQueue).run (.running .start) pipelined = some (.running s) ∧
      s.clients 0 = some client ∧ client.requests = [ascii "4\n", ascii "7\n"] ∧
      client.Settled ∧ replies client.transmitted = [ascii "prime", ascii "prime"] ∧
      ¬(replies client.transmitted).Perm
        (client.requests.map fun data => word (parseNumber 0 data)) := by
  refine ⟨_, _, rfl, rfl, rfl, ⟨rfl, rfl, rfl⟩, rfl, ?_⟩
  decide

end ConcurrentServers.Isprime

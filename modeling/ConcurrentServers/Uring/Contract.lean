import ConcurrentServers.Uring.Loop
import ConcurrentServers.Protocol.Stream

/-!
# What every run of the completion loop guarantees

The invariant is read back in terms of the rings. A connection has one
operation, all bytes of an operation belong to the connection it was submitted
for, and the replies are those of `serve_connection`.
-/

namespace ConcurrentServers.Uring

open Systems

/-- The receives and sends on `fd` whose completion has not been handled. -/
def Server.transfersOn (s : Server) (fd : ℕ) : List Sqe :=
  s.outstanding.filter fun e => e.op ≠ .opAccept ∧ e.fd = fd

/-- The kernel has accepted `fd` and the server has not handled that yet. -/
def Server.Awaiting (s : Server) (fd : ℕ) : Prop :=
  ∃ q ∈ s.cq, q.sqe.op = .opAccept ∧ q.res = .ok fd

/-! ## From items back to the rings -/

theorem mem_outstanding {s : Server} {e : Sqe} (h : e ∈ s.outstanding) :
    ∃ p ∈ s.items, p.1 = e := by
  have hmem : e ∈ s.items.map Prod.fst := by
    rw [map_fst_items]
    exact h
  exact Multiset.mem_map.mp hmem

theorem mem_cq_of_mem_items {s : Server} {e : Sqe} {r : SysResult ℕ}
    (h : (e, some r) ∈ s.items) : ⟨e, r⟩ ∈ s.cq := by
  simp only [Server.items, Multiset.mem_add, Multiset.mem_coe, List.mem_map] at h
  rcases h with (⟨_, _, hnone⟩ | ⟨_, _, hnone⟩) | ⟨q, hq, heq⟩
  · cases hnone
  · cases hnone
  · cases heq
    exact hq

theorem mem_items_of_mem_cq {s : Server} {q : Cqe} (h : q ∈ s.cq) : q.item ∈ s.items := by
  simp only [Server.items, Multiset.mem_add, Multiset.mem_coe, List.mem_map]
  exact Or.inr ⟨q, h, rfl⟩

theorem countP_accept (s : Server) :
    s.outstanding.countP (fun e => e.op = .opAccept) = s.accepts.card := by
  have hcount := congrArg (Multiset.countP fun e : Sqe => e.op = .opAccept) (map_fst_items s)
  rw [Multiset.countP_map, Multiset.coe_countP] at hcount
  exact hcount.symm

theorem coe_transfersOn (s : Server) (fd : ℕ) :
    (s.transfersOn fd : Multiset Sqe) =
      ((s.ops fd).filter fun p => p.1.op ≠ .opAccept).map Prod.fst := by
  rw [Server.transfersOn, ← Multiset.filter_coe, ← map_fst_items, Multiset.filter_map,
    Server.ops, Multiset.filter_filter]
  congr 1
  apply Multiset.filter_congr
  intro p _
  simp only [Concerns, Function.comp_apply]
  tauto

theorem transfersOn_of_ops_zero {s : Server} {fd : ℕ} (h : s.ops fd = 0) :
    s.transfersOn fd = [] := by
  have hcoe := coe_transfersOn s fd
  rw [h] at hcoe
  simpa using hcoe

theorem transfersOn_of_accept {s : Server} {fd : ℕ} {p : Item} (h : s.ops fd = {p})
    (hop : p.1.op = .opAccept) : s.transfersOn fd = [] := by
  have hcoe := coe_transfersOn s fd
  rw [h, Multiset.filter_singleton, if_neg (by simp [hop])] at hcoe
  simpa using hcoe

theorem transfersOn_of_transfer {s : Server} {fd : ℕ} {p : Item} (h : s.ops fd = {p})
    (hop : p.1.op ≠ .opAccept) : s.transfersOn fd = [p.1] := by
  have hcoe := coe_transfersOn s fd
  rw [h, Multiset.filter_singleton, if_pos hop, Multiset.map_singleton,
    ← Multiset.coe_singleton] at hcoe
  exact List.perm_singleton.mp (Multiset.coe_eq_coe.mp hcoe)

/-! ## One operation -/

/-- What the token says of a transfer, whichever direction it has. -/
theorem Token.transfer {peer : PeerState} {iobuf : List.Vector UInt8 iobufSize} {c : ℕ}
    {delivered sent : List UInt8} {p : Item} (h : Token peer iobuf c delivered sent p)
    (hop : p.1.op ≠ .opAccept) :
    (p.1.op = .opRecv ∨ p.1.op = .opSend) ∧ p.1.conn = some c ∧ p.1.fd < maxFds ∧ 0 < p.1.len := by
  unfold Token at h
  cases hcase : p.1.op with
  | opAccept => exact absurd hcase hop
  | opRecv =>
      rw [hcase] at h
      refine ⟨Or.inl rfl, h.conn, h.fd_lt, ?_⟩
      rw [h.len]
      decide
  | opSend =>
      rw [hcase] at h
      refine ⟨Or.inr rfl, h.conn, h.fd_lt, ?_⟩
      rw [h.len]
      exact List.length_pos_iff.mpr h.pending

theorem Sound.transfer {cfg : Config} {s : Server} (h : Sound cfg none s) {e : Sqe}
    (he : e ∈ s.outstanding) (hop : e.op ≠ .opAccept) :
    ∃ c, s.descriptors.owner e.fd = some c ∧ e.conn = some c ∧ e.fd < maxFds ∧ 0 < e.len := by
  obtain ⟨p, hp, rfl⟩ := mem_outstanding he
  obtain ⟨c, howner, _, _, htoken⟩ := h.token_of_mem hp (Or.inl ⟨hop, rfl⟩)
  obtain ⟨_, hconn, hlt, hlen⟩ := Token.transfer htoken hop
  exact ⟨c, howner, hconn, hlt, hlen⟩

/-- A posted receive fits the room that the parser has when it is handled. -/
theorem Sound.recv_fits {cfg : Config} {s : Server} (h : Sound cfg none s) {q : Cqe}
    (hq : q ∈ s.cq) (hop : q.sqe.op = .opRecv) {n : ℕ} (hres : q.res = .ok n) :
    n ≤ peerRecvRoom s.table q.sqe.fd ∧
      (peerConsume s.table q.sqe.fd (Buffer.slice (s.iobufs q.sqe.fd) 0 n)).2 ≠ fdStatusNORW := by
  have hne : q.sqe.op ≠ .opAccept := by simp [hop]
  obtain ⟨c, _, _, _, htoken⟩ := h.token_of_mem (mem_items_of_mem_cq hq) (Or.inl ⟨hne, rfl⟩)
  have hrecv : RecvToken (s.table.peers q.sqe.fd) (s.iobufs q.sqe.fd) c (s.delivered c)
      (s.sent c) q.sqe (some (.ok n)) := by
    rw [← hres]
    exact (token_recv_iff hop).mp htoken
  obtain ⟨hpos, hlen, hn⟩ := hrecv.fits
  refine ⟨hn, ?_⟩
  rw [peerConsume, PeerTable.modify_status]
  obtain ⟨_, hagrees⟩ := hrecv.live.consume hpos (hlen.trans_le hn)
  rcases hagrees with ⟨⟨hw, _⟩ | ⟨hr, _⟩⟩
  · rw [hw]
    decide
  · rw [hr]
    decide

/-- Between handling two completions, whatever the kernel completes and in which
order: one accept is out, an open connection that the server knows of has one
transfer and a closed one has none, and every entry of the rings belongs to the
connection that is behind its descriptor now. Nothing is out on a descriptor
whose buffer is written, no transfer has length zero, and no receive brings
more than the parser has room for. -/
theorem one_operation {cfg : Config} {s : Server} (h : (server cfg).Reachable (.running s)) :
    s.outstanding.countP (fun e => e.op = .opAccept) = 1 ∧
    (∀ fd c, s.descriptors.owner fd = some c → ¬s.Awaiting fd →
      ∃ e, s.transfersOn fd = [e] ∧ (e.op = .opRecv ∨ e.op = .opSend) ∧ e.conn = some c) ∧
    (∀ fd, s.descriptors.owner fd = none ∨ s.Awaiting fd → s.transfersOn fd = []) ∧
    (∀ e ∈ s.outstanding, unpackOp e.userData = some e.op ∧
      (e.op ≠ .opAccept → unpackFd e.userData = e.fd ∧ s.descriptors.owner e.fd = e.conn ∧
        0 < e.len)) ∧
    (∀ w ∈ s.copies, ∀ e ∈ w.2, e.op ≠ .opAccept → e.fd ≠ w.1) ∧
    ∀ q ∈ s.cq, q.sqe.op = .opRecv → ∀ n, q.res = .ok n →
      n ≤ peerRecvRoom s.table q.sqe.fd ∧
      (peerConsume s.table q.sqe.fd (Buffer.slice (s.iobufs q.sqe.fd) 0 n)).2 ≠ fdStatusNORW := by
  have hsound := reachable_sound h
  have hsmall : maxFds < 2 ^ 32 := by decide
  refine ⟨?_, ?_, ?_, ?_, hsound.copies, ?_⟩
  · rw [countP_accept]
    exact hsound.accept
  · intro fd c howner hseen
    obtain ⟨_, p, hops, htoken⟩ := (hsound.served fd (by simp)).token howner
    have hmem : p ∈ s.ops fd := by simp [hops]
    obtain ⟨hitem, ⟨hop, _⟩ | ⟨hop, hres⟩⟩ := Multiset.mem_filter.mp hmem
    · obtain ⟨hkind, hconn, _⟩ := Token.transfer htoken hop
      exact ⟨p.1, transfersOn_of_transfer hops hop, hkind, hconn⟩
    · apply absurd _ hseen
      obtain ⟨e, res⟩ := p
      cases hres
      exact ⟨⟨e, .ok fd⟩, mem_cq_of_mem_items hitem, hop, rfl⟩
  · rintro fd (howner | ⟨q, hq, hop, hres⟩)
    · exact transfersOn_of_ops_zero ((hsound.served fd (by simp)).ops_eq_zero howner)
    · obtain ⟨_, _, _, hops, _⟩ := hsound.token_of_mem (mem_items_of_mem_cq hq)
        (Or.inr ⟨hop, congrArg some hres⟩)
      exact transfersOn_of_accept hops hop
  · intro e he
    have hdata : e.userData = pack e.op e.fd := by
      obtain ⟨p, hp, rfl⟩ := mem_outstanding he
      exact hsound.userData p hp
    refine ⟨by rw [hdata, unpackOp_pack], ?_⟩
    intro hop
    obtain ⟨c, howner, hconn, hlt, hlen⟩ := hsound.transfer he hop
    exact ⟨by rw [hdata, unpackFd_pack _ (hlt.trans hsmall)], howner.trans hconn.symm, hlen⟩
  · intro q hq hop n hres
    exact hsound.recv_fits hq hop hres

theorem reachable_of_labels (cfg : Config) {p : Process Server} (labels : List Label)
    (h : (server cfg).run (.running (.start cfg)) labels = some p) : (server cfg).Reachable p :=
  Machine.reachable_of_run labels ⟨_, rfl, rfl⟩ h

def smallConfig : Config := ⟨8, 3, [3, 4]⟩

/-- A client connects as descriptor 5, receives the acknowledgement and sends a
frame, whose receive is posted. -/
def firstConnection : List Label :=
  [.submit 8, .post 0 (.accept (.ok 5)), .wait (.ok ()), .handle 0 0, .advance,
    .submit 8, .post 1 (.send (.ok 1)), .wait (.ok ()), .handle 0 0, .advance,
    .submit 8, .post 1 (.recv (.ok (['^', 'a'].map Char.toUInt8)))]

theorem one_operation_firstConnection :
    ∃ s, (server smallConfig).run (.running (.start smallConfig)) firstConnection =
        some (.running s) ∧
      s.descriptors.owner 5 = some 0 ∧
      ∃ e, s.transfersOn 5 = [e] ∧ (e.op = .opRecv ∨ e.op = .opSend) ∧ e.conn = some 0 := by
  refine ⟨_, rfl, rfl, ?_⟩
  apply (one_operation (reachable_of_labels smallConfig firstConnection rfl)).2.1 5 0 rfl
  rintro ⟨q, hq, hop, _⟩
  rw [List.mem_singleton.mp hq] at hop
  cases hop

/-! ## The reply stream -/

theorem Token.sent_prefix {peer : PeerState} {iobuf : List.Vector UInt8 iobufSize} {c : ℕ}
    {delivered sent : List UInt8} {p : Item} (h : Token peer iobuf c delivered sent p) :
    sent <+: Frame.reply delivered := by
  obtain ⟨e, res⟩ := p
  unfold Token at h
  cases hop : e.op with
  | opAccept =>
      simp only [hop] at h
      rw [h.2]
      exact List.nil_prefix
  | opRecv =>
      simp only [hop] at h
      have hstream := h.stream
      rcases res with _ | _ | n
      · exact ⟨_, hstream.stream⟩
      · exact ⟨_, hstream.stream⟩
      · obtain ⟨_, pre, hpre, htracks⟩ := hstream
        rw [htracks.drained_eq h.pending, hpre]
        exact Frame.reply_prefix (List.prefix_append _ _)
  | opSend =>
      simp only [hop] at h
      have hstream := h.stream
      rcases res with _ | _ | n
      · exact ⟨_, hstream.stream⟩
      · exact ⟨_, hstream.stream⟩
      · obtain ⟨_, pre, hpre, htracks⟩ := hstream
        refine ⟨peer.pending.drop n, ?_⟩
        rw [hpre, List.append_assoc, List.take_append_drop]
        exact htracks.stream

theorem Sound.sent_prefix {cfg : Config} {s : Server} (h : Sound cfg none s) (c : ℕ) :
    s.sent c <+: Frame.reply (s.delivered c) := by
  by_cases hopen : ∃ fd, s.descriptors.owner fd = some c
  · obtain ⟨fd, howner⟩ := hopen
    obtain ⟨_, p, _, htoken⟩ := (h.served fd (by simp)).token howner
    exact Token.sent_prefix htoken
  · apply h.closed c
    intro fd howner
    exact hopen ⟨fd, howner⟩

theorem Sound.recvToken {cfg : Config} {s : Server} (h : Sound cfg none s) {e : Sqe}
    {res : Option (SysResult ℕ)} (hmem : (e, res) ∈ s.items) (hop : e.op = .opRecv) {c : ℕ}
    (hconn : e.conn = some c) :
    RecvToken (s.table.peers e.fd) (s.iobufs e.fd) c (s.delivered c) (s.sent c) e res := by
  have hne : e.op ≠ .opAccept := by simp [hop]
  obtain ⟨c', _, _, _, htoken⟩ := h.token_of_mem hmem (Or.inl ⟨hne, rfl⟩)
  rw [token_recv_iff hop] at htoken
  have heq : c' = c := Option.some.inj (htoken.conn.symm.trans hconn)
  exact heq ▸ htoken

theorem mem_items_of_mem_rings {s : Server} {e : Sqe} (h : e ∈ s.sq ++ s.inflight) :
    (e, none) ∈ s.items := by
  simp only [Server.items, Multiset.mem_add, Multiset.mem_coe, List.mem_map]
  rcases List.mem_append.mp h with h | h
  · exact Or.inl (Or.inl ⟨e, h, rfl⟩)
  · exact Or.inl (Or.inr ⟨e, h, rfl⟩)

theorem Sound.sent_eq {cfg : Config} {s : Server} (h : Sound cfg none s) {e : Sqe}
    (he : e ∈ s.sq ++ s.inflight) (hop : e.op = .opRecv) {c : ℕ} (hconn : e.conn = some c) :
    s.sent c = Frame.reply (s.delivered c) := by
  have htoken := h.recvToken (mem_items_of_mem_rings he) hop hconn
  exact PeerState.Tracks.drained_eq htoken.stream htoken.pending

/-- On every connection the bytes that the kernel reports sent are a prefix of
`*` and the reply to what it delivered, and all of it while a receive is queued
or in flight. Once that receive is posted, they are the reply to what was
delivered before it. A run of `serve_connection` that has received the same
bytes and waits for more, or has returned, has sent the same reply. -/
theorem uring_reply_stream {cfg : Config} {s : Server}
    (h : (server cfg).Reachable (.running s)) (c : ℕ) :
    s.sent c <+: '*'.toUInt8 :: Frame.transform (s.delivered c) ∧
    (∀ e ∈ s.sq ++ s.inflight, e.op = .opRecv → e.conn = some c →
      s.sent c = '*'.toUInt8 :: Frame.transform (s.delivered c)) ∧
    (∀ q ∈ s.cq, q.sqe.op = .opRecv → q.sqe.conn = some c →
      match q.res with
      | .ok n => ∃ before, s.delivered c = before ++ Buffer.slice (s.iobufs q.sqe.fd) 0 n ∧
          s.sent c = '*'.toUInt8 :: Frame.transform before
      | .error _ => s.sent c = '*'.toUInt8 :: Frame.transform (s.delivered c)) ∧
    ∀ b : Protocol.Connection, Protocol.serveConnection.Reachable b →
      b.received = s.delivered c →
      b.control = .recv ∨ b.control = .returned .serveOk →
      s.sent c <+: b.accepted ∧
        ∀ e ∈ s.sq ++ s.inflight, e.op = .opRecv → e.conn = some c → s.sent c = b.accepted := by
  have hsound := reachable_sound h
  refine ⟨hsound.sent_prefix c, fun e he hop hconn => hsound.sent_eq he hop hconn, ?_, ?_⟩
  · intro q hq hop hconn
    have htoken := hsound.recvToken (mem_items_of_mem_cq hq) hop hconn
    have hstream := htoken.stream
    cases hres : q.res with
    | error x =>
        rw [hres] at hstream
        exact hstream.drained_eq htoken.pending
    | ok n =>
        rw [hres] at hstream
        obtain ⟨_, pre, hpre, htracks⟩ := hstream
        exact ⟨pre, hpre, htracks.drained_eq htoken.pending⟩
  · intro b hb hinput hcontrol
    have haccepted := (Protocol.reachable_follows hb).accepted_eq hcontrol
    rw [haccepted, hinput]
    exact ⟨hsound.sent_prefix c, fun e he hop hconn => hsound.sent_eq he hop hconn⟩

/-- The rest of the frame's way: a send of no bytes, an interrupted one, and one
that goes through. -/
def answeredConnection : List Label :=
  firstConnection ++
    [.wait (.ok ()), .handle 0 0, .advance,
      .submit 8, .post 1 (.send (.ok 0)), .wait (.ok ()), .handle 0 0, .advance,
      .submit 8, .post 1 (.send (.error .eintr)), .wait (.ok ()), .handle 0 0, .advance,
      .submit 8, .post 1 (.send (.ok 1)), .wait (.ok ()), .handle 0 0]

theorem uring_reply_stream_answeredConnection :
    ∃ s, (server smallConfig).run (.running (.start smallConfig)) answeredConnection =
        some (.running s) ∧
      s.delivered 0 = ['^', 'a'].map Char.toUInt8 ∧ s.sent 0 = ['*', 'b'].map Char.toUInt8 ∧
      s.sent 0 = '*'.toUInt8 :: Frame.transform (s.delivered 0) := by
  refine ⟨_, rfl, rfl, rfl, ?_⟩
  have hstream := uring_reply_stream (reachable_of_labels smallConfig answeredConnection rfl) 0
  exact hstream.2.1 _ (List.mem_cons_self ..) rfl rfl

end ConcurrentServers.Uring

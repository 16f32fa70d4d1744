import ConcurrentServers.Uring.Items
import ConcurrentServers.PeerState.Verdict

/-!
# One operation for every connection

Every open connection is represented in the rings by exactly one token: its
transfer, or the completion of its own acceptance before the server has seen
it. The token says how far the streams of the connection have come. Handling a
completion takes the token of one descriptor out, which leaves a hole there,
and the submission or the close at the end of the handler fills the hole. All
other descriptors are left alone on the way.
-/

namespace ConcurrentServers.Uring

open Systems

/-! ## Tokens -/

/-- The token of a connection that waits for input. A posted completion has
already delivered the first bytes of the I/O buffer. -/
structure RecvToken (peer : PeerState) (iobuf : List.Vector UInt8 iobufSize) (c : ℕ)
    (delivered sent : List UInt8) (e : Sqe) (res : Option (SysResult ℕ)) : Prop where
  conn : e.conn = some c
  fd_lt : e.fd < maxFds
  live : peer.Live
  pending : peer.pending = []
  len : e.len = sendbufSize
  stream : match res with
    | some (.ok n) => n ≤ e.len ∧
        ∃ pre, delivered = pre ++ Buffer.slice iobuf 0 n ∧ peer.Tracks pre sent
    | _ => peer.Tracks delivered sent

/-- The token of a connection with pending output, all of which was copied. A
posted completion has already sent the first bytes of it. -/
structure SendToken (peer : PeerState) (iobuf : List.Vector UInt8 iobufSize) (c : ℕ)
    (delivered sent : List UInt8) (e : Sqe) (res : Option (SysResult ℕ)) : Prop where
  conn : e.conn = some c
  fd_lt : e.fd < maxFds
  live : peer.Live
  pending : peer.pending ≠ []
  len : e.len = peer.pending.length
  copy : Buffer.slice iobuf 0 e.len = peer.pending
  stream : match res with
    | some (.ok n) => n ≤ e.len ∧
        ∃ pre, sent = pre ++ peer.pending.take n ∧ peer.Tracks delivered pre
    | _ => peer.Tracks delivered sent

/-- The bytes of a posted receive fit the room that the parser has. -/
theorem RecvToken.fits {peer : PeerState} {iobuf : List.Vector UInt8 iobufSize} {c n : ℕ}
    {delivered sent : List UInt8} {e : Sqe}
    (h : RecvToken peer iobuf c delivered sent e (some (.ok n))) :
    0 < peer.recvRoom ∧ (Buffer.slice iobuf 0 n).length = n ∧ n ≤ peer.recvRoom := by
  have hn : n ≤ sendbufSize := h.len ▸ h.stream.1
  rw [h.live.recvRoom_of_pending_nil h.pending]
  exact ⟨by decide, Buffer.length_slice iobuf hn, hn⟩

def Token (peer : PeerState) (iobuf : List.Vector UInt8 iobufSize) (c : ℕ)
    (delivered sent : List UInt8) (p : Item) : Prop :=
  match p.1.op with
  | .opAccept => delivered = [] ∧ sent = []
  | .opRecv => RecvToken peer iobuf c delivered sent p.1 p.2
  | .opSend => SendToken peer iobuf c delivered sent p.1 p.2

def Server.token (s : Server) (fd c : ℕ) (p : Item) : Prop :=
  Token (s.table.peers fd) (s.iobufs fd) c (s.delivered c) (s.sent c) p

section Token

variable {s : Server} {fd c : ℕ} {e : Sqe} {res : Option (SysResult ℕ)}

theorem token_accept_iff (hop : e.op = .opAccept) :
    s.token fd c (e, res) ↔ s.delivered c = [] ∧ s.sent c = [] := by
  simp only [Server.token, Token, hop]

theorem token_recv_iff (hop : e.op = .opRecv) : s.token fd c (e, res) ↔
    RecvToken (s.table.peers fd) (s.iobufs fd) c (s.delivered c) (s.sent c) e res := by
  simp only [Server.token, Token, hop]

theorem token_send_iff (hop : e.op = .opSend) : s.token fd c (e, res) ↔
    SendToken (s.table.peers fd) (s.iobufs fd) c (s.delivered c) (s.sent c) e res := by
  simp only [Server.token, Token, hop]

end Token

/-- A descriptor with one token if a connection is behind it, else with none. -/
def Served (cfg : Config) (s : Server) (fd : ℕ) : Prop :=
  match s.descriptors.owner fd with
  | none => s.ops fd = 0
  | some c => fd ∉ cfg.reserved ∧ ∃ p, s.ops fd = {p} ∧ s.token fd c p

theorem served_of_none {cfg : Config} {s : Server} {fd : ℕ}
    (howner : s.descriptors.owner fd = none) (hops : s.ops fd = 0) : Served cfg s fd := by
  simpa [Served, howner] using hops

theorem served_of_some {cfg : Config} {s : Server} {fd c : ℕ} {p : Item}
    (howner : s.descriptors.owner fd = some c) (hres : fd ∉ cfg.reserved)
    (hops : s.ops fd = {p}) (htoken : s.token fd c p) : Served cfg s fd := by
  simp only [Served, howner]
  exact ⟨hres, p, hops, htoken⟩

theorem Served.ops_eq_zero {cfg : Config} {s : Server} {fd : ℕ} (h : Served cfg s fd)
    (howner : s.descriptors.owner fd = none) : s.ops fd = 0 := by
  simpa [Served, howner] using h

theorem Served.token {cfg : Config} {s : Server} {fd c : ℕ} (h : Served cfg s fd)
    (howner : s.descriptors.owner fd = some c) :
    fd ∉ cfg.reserved ∧ ∃ p, s.ops fd = {p} ∧ s.token fd c p := by
  simpa [Served, howner] using h

/-- Nothing that `Served` reads at `fd` differs between the two states. -/
structure SameAt (s s' : Server) (fd : ℕ) : Prop where
  ops : s'.ops fd = s.ops fd
  owner : s'.descriptors.owner fd = s.descriptors.owner fd
  peer : s'.table.peers fd = s.table.peers fd
  iobuf : s'.iobufs fd = s.iobufs fd
  delivered : ∀ c, s.descriptors.owner fd = some c → s'.delivered c = s.delivered c
  sent : ∀ c, s.descriptors.owner fd = some c → s'.sent c = s.sent c

theorem Served.congr {cfg : Config} {s s' : Server} {fd : ℕ} (h : Served cfg s fd)
    (hsame : SameAt s s' fd) : Served cfg s' fd := by
  cases howner : s.descriptors.owner fd with
  | none =>
      apply served_of_none (hsame.owner.trans howner)
      rw [hsame.ops]
      exact h.ops_eq_zero howner
  | some c =>
      obtain ⟨hres, p, hops, htoken⟩ := h.token howner
      apply served_of_some (hsame.owner.trans howner) hres (hsame.ops.trans hops)
      unfold Server.token at htoken ⊢
      rw [hsame.peer, hsame.iobuf, hsame.delivered c howner, hsame.sent c howner]
      exact htoken

/-! ## The invariant -/

/-- The invariant, with the descriptor `hole` left out of it. -/
structure Sound (cfg : Config) (hole : Option ℕ) (s : Server) : Prop where
  accept : s.accepts.card = 1
  userData : ∀ p ∈ s.items, p.1.userData = pack p.1.op p.1.fd
  served : ∀ fd, hole ≠ some fd → Served cfg s fd
  copies : ∀ w ∈ s.copies, ∀ e ∈ w.2, e.op ≠ .opAccept → e.fd ≠ w.1
  closed : ∀ c, (∀ fd, s.descriptors.owner fd ≠ some c) →
    s.sent c <+: Frame.reply (s.delivered c)
  fresh : ∀ c, s.descriptors.fresh ≤ c → s.delivered c = [] ∧ s.sent c = []
  capacity : s.table.peerCapacity = maxFds

/-- A connection whose token is in the hands of the server. -/
structure Hole (cfg : Config) (s : Server) (fd c : ℕ) : Prop where
  sound : Sound cfg (some fd) s
  owner : s.descriptors.owner fd = some c
  notMem : fd ∉ cfg.reserved
  ops : s.ops fd = 0

theorem Sound.token_of_mem {cfg : Config} {s : Server} (h : Sound cfg none s) {p : Item} {fd : ℕ}
    (hp : p ∈ s.items) (hfd : Concerns fd p) :
    ∃ c, s.descriptors.owner fd = some c ∧ fd ∉ cfg.reserved ∧ s.ops fd = {p} ∧
      s.token fd c p := by
  have hmem : p ∈ s.ops fd := Multiset.mem_filter.mpr ⟨hp, hfd⟩
  have hserved := h.served fd (by simp)
  cases howner : s.descriptors.owner fd with
  | none =>
      rw [hserved.ops_eq_zero howner] at hmem
      simp at hmem
  | some c =>
      obtain ⟨hres, q, hops, htoken⟩ := hserved.token howner
      rw [hops, Multiset.mem_singleton] at hmem
      subst hmem
      exact ⟨c, rfl, hres, hops, htoken⟩

/-! ## Filling a hole -/

theorem Hole.submit {cfg : Config} {s : Server} {fd c : ℕ} (h : Hole cfg s fd c) (k : ℕ) :
    Hole cfg (s.submit k) fd c := by
  have hitems := items_submit s k
  have hops := ops_congr hitems
  have hacc : (s.submit k).accepts = s.accepts := by simp [Server.accepts]
  refine ⟨⟨?_, ?_, ?_, h.sound.copies, h.sound.closed, h.sound.fresh, h.sound.capacity⟩,
    h.owner, h.notMem, (hops fd).trans h.ops⟩
  · rw [hacc]
    exact h.sound.accept
  · rw [hitems]
    exact h.sound.userData
  · intro fd' hne
    apply (h.sound.served fd' hne).congr
    exact ⟨hops fd', rfl, rfl, rfl, fun _ _ => rfl, fun _ _ => rfl⟩

theorem Hole.setTable {cfg : Config} {s : Server} {fd c : ℕ} (h : Hole cfg s fd c)
    (f : PeerState → PeerState × FdStatus) :
    Hole cfg { s with table := (s.table.modify fd f).1 } fd c := by
  refine ⟨⟨h.sound.accept, h.sound.userData, ?_, h.sound.copies, h.sound.closed, h.sound.fresh,
    h.sound.capacity⟩, h.owner, h.notMem, h.ops⟩
  intro fd' hne
  apply (h.sound.served fd' hne).congr
  have hfd : fd' ≠ fd := fun heq => hne (by rw [heq])
  exact ⟨rfl, rfl, PeerTable.modify_ne _ hfd f, rfl, fun _ _ => rfl, fun _ _ => rfl⟩

/-- The buffer of a hole may be written: nothing outstanding refers to it. -/
theorem Hole.copyOut {cfg : Config} {s : Server} {fd c : ℕ} (h : Hole cfg s fd c) :
    Hole cfg (copyOut s fd) fd c := by
  refine ⟨⟨h.sound.accept, h.sound.userData, ?_, ?_, h.sound.closed, h.sound.fresh,
    h.sound.capacity⟩, h.owner, h.notMem, h.ops⟩
  · intro fd' hne
    apply (h.sound.served fd' hne).congr
    have hfd : fd' ≠ fd := fun heq => hne (by rw [heq])
    exact ⟨rfl, rfl, rfl, Function.update_of_ne hfd _ _, fun _ _ => rfl, fun _ _ => rfl⟩
  · intro w hw e he hop hfd
    rcases List.mem_append.mp hw with hw | hw
    · exact h.sound.copies w hw e he hop hfd
    · rw [List.mem_singleton.mp hw] at he hfd
      have hmem : e ∈ s.items.map Prod.fst := by
        rw [map_fst_items]
        exact he
      obtain ⟨p, hp, rfl⟩ := Multiset.mem_map.mp hmem
      have hops : p ∈ s.ops fd := Multiset.mem_filter.mpr ⟨hp, Or.inl ⟨hop, hfd⟩⟩
      rw [h.ops] at hops
      simp at hops

theorem Hole.push {cfg : Config} {s : Server} {fd c : ℕ} (h : Hole cfg s fd c) {e : Sqe}
    (hdata : e.userData = pack e.op e.fd) (hop : e.op ≠ .opAccept) (hfd : e.fd = fd)
    (htoken : s.token fd c e.item) : Sound cfg none (s.push e) := by
  have hitems := items_push s e
  have hconcerns : ∀ fd', Concerns fd' e.item ↔ e.fd = fd' := fun _ => concerns_transfer hop none
  refine ⟨?_, ?_, ?_, h.sound.copies, h.sound.closed, h.sound.fresh, h.sound.capacity⟩
  · rw [accepts_cons_of_ne hitems hop]
    exact h.sound.accept
  · intro p hp
    rw [hitems] at hp
    rcases Multiset.mem_cons.mp hp with rfl | hp
    · exact hdata
    · exact h.sound.userData p hp
  · intro fd' _
    by_cases hne : fd' = fd
    · subst hne
      have hops : (s.push e).ops fd' = {e.item} := by
        rw [ops_cons_of_concerns hitems ((hconcerns fd').mpr hfd), h.ops]
        rfl
      exact served_of_some h.owner h.notMem hops htoken
    · apply (h.sound.served fd' (fun heq => hne (Option.some.inj heq).symm)).congr
      have hnot : ¬Concerns fd' e.item := fun hc => hne (((hconcerns fd').mp hc).symm.trans hfd)
      exact ⟨ops_cons_of_not hitems hnot, rfl, rfl, rfl, fun _ _ => rfl, fun _ _ => rfl⟩

theorem Hole.close {cfg : Config} {s : Server} {fd c : ℕ} (h : Hole cfg s fd c)
    (hstream : s.sent c <+: Frame.reply (s.delivered c)) : Sound cfg none (s.close fd) := by
  refine ⟨h.sound.accept, h.sound.userData, ?_, h.sound.copies, ?_, h.sound.fresh,
    h.sound.capacity⟩
  · intro fd' _
    by_cases hne : fd' = fd
    · subst hne
      exact served_of_none (Descriptors.owner_close_same _ _) h.ops
    · apply (h.sound.served fd' (fun heq => hne (Option.some.inj heq).symm)).congr
      exact ⟨rfl, Descriptors.owner_close_ne _ hne, rfl, rfl, fun _ _ => rfl, fun _ _ => rfl⟩
  · intro c' hc'
    by_cases heq : c' = c
    · rw [heq]
      exact hstream
    · apply h.sound.closed c'
      intro fd' hown
      by_cases hne : fd' = fd
      · rw [hne, h.owner] at hown
        exact heq (Option.some.inj hown).symm
      · apply hc' fd'
        rw [← hown]
        exact Descriptors.owner_close_ne _ hne

/-! ## The functions that queue -/

/-- A slot comes with the entries that the kernel took on the way to it. -/
theorem getSqe_running {cfg : Config} {k : ℕ} {s s' : Server}
    (h : getSqe cfg k s = .running s') : ∃ k', s' = s.submit k' := by
  unfold getSqe at h
  split at h
  · refine ⟨0, ?_⟩
    cases h
    simp [Server.submit]
  · split at h
    · cases h
      exact ⟨k, rfl⟩
    · cases h

theorem queueRecv_running {cfg : Config} {k fd : ℕ} {s s' : Server}
    (h : queueRecv cfg k fd s = .running s') : ∃ k', s' = (s.submit k').push (recvSqe s fd) := by
  obtain ⟨t, ht, h⟩ := Process.andThen_eq_running h
  obtain ⟨k', rfl⟩ := getSqe_running ht
  cases h
  exact ⟨k', rfl⟩

theorem Hole.queueRecv {cfg : Config} {s s' : Server} {k fd c : ℕ} (h : Hole cfg s fd c)
    (hfd : fd < maxFds) (hlive : (s.table.peers fd).Live)
    (hnil : (s.table.peers fd).pending = [])
    (htracks : (s.table.peers fd).Tracks (s.delivered c) (s.sent c))
    (hs : queueRecv cfg k fd s = .running s') : Sound cfg none s' := by
  obtain ⟨k', rfl⟩ := queueRecv_running hs
  apply (h.submit k').push rfl (by simp [recvSqe]) rfl
  have hroom := hlive.recvRoom_of_pending_nil hnil
  refine ⟨h.owner, hfd, hlive, hnil, ?_, htracks⟩
  -- The parser has the whole buffer free, which is also what the I/O buffer holds.
  simp [Sqe.item, recvSqe, peerRecvRoom, hroom, sendbufSize, iobufSize]

theorem Hole.queueSend {cfg : Config} {s s' : Server} {k fd c : ℕ} (h : Hole cfg s fd c)
    (hfd : fd < maxFds) (hlive : (s.table.peers fd).Live)
    (hne : (s.table.peers fd).pending ≠ [])
    (htracks : (s.table.peers fd).Tracks (s.delivered c) (s.sent c))
    (hs : queueSend cfg k fd s = .running s') : Sound cfg none s' := by
  have hpos : ¬(peerPending s.table fd).length = 0 := fun hz => hne (List.length_eq_zero_iff.mp hz)
  rw [Uring.queueSend, if_neg hpos] at hs
  obtain ⟨t, ht, hs⟩ := Process.andThen_eq_running hs
  obtain ⟨k', rfl⟩ := getSqe_running ht
  cases hs
  apply (h.copyOut.submit k').push rfl (by simp [sendSqe]) rfl
  -- The pending bytes never exceed the I/O buffer, so nothing is cut off.
  have hlen : (s.table.peers fd).pending.length ≤ iobufSize := by
    rw [hlive.bounded.length_pending]
    exact (Nat.sub_le _ _).trans hlive.bounded.sendbufEnd_le
  have hout : outgoing s fd = (s.table.peers fd).pending := by
    simp [outgoing, peerPending, Nat.not_lt.mpr hlen]
  refine ⟨h.owner, hfd, hlive, hne, ?_, ?_, htracks⟩
  · simp [Sqe.item, sendSqe, hout, Server.submit, Uring.copyOut]
  · have hslice := Buffer.slice_overwrite (s.iobufs fd) hlen
    simpa [Sqe.item, sendSqe, Server.submit, Uring.copyOut, hout] using hslice

/-- The end of a handler: whatever the verdict, the hole is filled. -/
theorem Hole.armNext {cfg : Config} {s s' : Server} {k fd c : ℕ} (h : Hole cfg s fd c)
    (hfd : fd < maxFds) {f : PeerState → PeerState × FdStatus}
    (htracks : (f (s.table.peers fd)).1.Tracks (s.delivered c) (s.sent c))
    (hlive : (f (s.table.peers fd)).1.Live)
    (hstatus : (f (s.table.peers fd)).2 = fdStatusNORW ∨
      (f (s.table.peers fd)).1.Agrees (f (s.table.peers fd)).2)
    (hs : armNext cfg k fd (s.table.modify fd f) s = .running s') : Sound cfg none s' := by
  have hset := h.setTable f
  have hpeer := PeerTable.modify_same s.table fd f
  unfold Uring.armNext at hs
  rw [PeerTable.modify_status] at hs
  rcases hstatus with hstatus | ⟨⟨hstatus, hne⟩ | ⟨hstatus, hnil, _⟩⟩
  · rw [hstatus] at hs
    cases hs
    apply hset.close
    exact ⟨_, htracks.stream⟩
  · rw [hstatus] at hs
    apply hset.queueSend hfd _ _ _ hs
    · rwa [hpeer]
    · rwa [hpeer]
    · rwa [hpeer]
  · rw [hstatus] at hs
    apply hset.queueRecv hfd _ _ _ hs
    · rwa [hpeer]
    · rwa [hpeer]
    · rwa [hpeer]

end ConcurrentServers.Uring

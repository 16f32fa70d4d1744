import ConcurrentServers.PeerState.Core
import ConcurrentServers.Library.Machine
import ConcurrentServers.Library.Descriptors

/-!
# The completion loop of `uring_server.c`

The state holds the variables of the server together with the two rings and
the kernel's side of them. A submission is in `sq` until `io_uring_submit` has
taken it, in `inflight` until the kernel is done with it, and in `cq` until its
completion has been handled. Each `io_uring_submit` takes a number of entries
that the kernel chooses, and the kernel completes entries in any order. The
addresses of the peers, which are only printed, are left out.
-/

namespace ConcurrentServers.Uring

open Systems

def maxFds : ℕ := 16 * 1024

def iobufSize : ℕ := 1024

/-! ## User data -/

inductive UringOp where
  | opAccept
  | opRecv
  | opSend
  deriving DecidableEq, Repr

def UringOp.code : UringOp → ℕ
  | .opAccept => 1
  | .opRecv => 2
  | .opSend => 3

def pack (op : UringOp) (fd : ℕ) : BitVec 64 :=
  (BitVec.ofNat 64 op.code <<< 32) ||| (BitVec.ofNat 32 fd).setWidth 64

/-- The value that the `switch` of the loop sees. No case applies to `none`. -/
def unpackOp (data : BitVec 64) : Option UringOp :=
  match (data >>> 32).toNat with
  | 1 => some .opAccept
  | 2 => some .opRecv
  | 3 => some .opSend
  | _ => none

def unpackFd (data : BitVec 64) : ℕ := (data.setWidth 32).toNat

theorem toNat_pack (op : UringOp) (fd : ℕ) :
    (pack op fd).toNat = op.code * 2 ^ 32 + fd % 2 ^ 32 := by
  have hlt : fd % 2 ^ 32 < 2 ^ 32 := Nat.mod_lt _ (by decide)
  have hcode : op.code * 2 ^ 32 < 2 ^ 64 := by cases op <;> decide
  have hfd : fd % 2 ^ 32 % 2 ^ 64 = fd % 2 ^ 32 := Nat.mod_eq_of_lt (by omega)
  have hop : op.code % 2 ^ 64 = op.code := Nat.mod_eq_of_lt (by omega)
  rw [pack, BitVec.toNat_or, BitVec.toNat_shiftLeft, BitVec.toNat_ofNat, BitVec.toNat_setWidth,
    BitVec.toNat_ofNat, hfd, hop, Nat.shiftLeft_eq, Nat.mod_eq_of_lt hcode, ← Nat.shiftLeft_eq,
    ← Nat.shiftLeft_add_eq_or_of_lt hlt]

theorem unpackOp_pack (op : UringOp) (fd : ℕ) : unpackOp (pack op fd) = some op := by
  have hlt : fd % 2 ^ 32 < 2 ^ 32 := Nat.mod_lt _ (by decide)
  have hhigh : (pack op fd >>> 32).toNat = op.code := by
    rw [BitVec.toNat_ushiftRight, toNat_pack, Nat.shiftRight_eq_div_pow]
    omega
  simp only [unpackOp, hhigh]
  cases op <;> rfl

theorem unpackFd_pack (op : UringOp) {fd : ℕ} (h : fd < 2 ^ 32) : unpackFd (pack op fd) = fd := by
  rw [unpackFd, BitVec.toNat_setWidth, toNat_pack, Nat.mod_eq_of_lt h]
  omega

/-! ## The state -/

/-- A submission. The field `conn` is not in the source: it is the connection
behind `fd` at the time the entry was prepared. -/
structure Sqe where
  userData : BitVec 64
  op : UringOp
  fd : ℕ
  len : ℕ
  conn : Option ℕ

/-- A completion carries the user data of its submission and a result. -/
structure Cqe where
  sqe : Sqe
  res : SysResult ℕ

/-- The ring size, the listener, and the descriptors that are open but are not
connections, the listener among them. -/
structure Config where
  queueDepth : ℕ
  listener : ℕ
  reserved : List ℕ

inductive Phase where
  | submit
  | wait
  | drain
  deriving DecidableEq, Repr

/-- The fields from `descriptors` on are not in the source. They record the
connections, what the kernel delivered and reported sent on each, and for every
`memcpy` into an I/O buffer the descriptor and the submissions that were queued
or in flight at that moment. -/
structure Server where
  phase : Phase
  table : PeerTable
  iobufs : ℕ → List.Vector UInt8 iobufSize
  sq : List Sqe
  inflight : List Sqe
  cq : List Cqe
  descriptors : Descriptors
  delivered : ℕ → List UInt8
  sent : ℕ → List UInt8
  copies : List (ℕ × List Sqe)

/-- Every submission whose completion has not been handled. -/
def Server.outstanding (s : Server) : List Sqe := s.sq ++ s.inflight ++ s.cq.map Cqe.sqe

/-! ## Queueing -/

/-- `io_uring_submit`, when the kernel takes `k` entries. -/
def Server.submit (s : Server) (k : ℕ) : Server :=
  { s with sq := s.sq.drop k, inflight := s.inflight ++ s.sq.take k }

def Server.push (s : Server) (e : Sqe) : Server := { s with sq := s.sq ++ [e] }

/-- A free slot, after a submission if the ring was full. -/
def getSqe (cfg : Config) (k : ℕ) (s : Server) : Process Server :=
  if s.sq.length < cfg.queueDepth then .running s
  else if (s.submit k).sq.length < cfg.queueDepth then .running (s.submit k)
  else .exited

def acceptSqe (cfg : Config) : Sqe :=
  ⟨pack .opAccept cfg.listener, .opAccept, cfg.listener, 0, none⟩

def queueAccept (cfg : Config) (k : ℕ) (s : Server) : Process Server :=
  (getSqe cfg k s).andThen fun s => .running (s.push (acceptSqe cfg))

def recvSqe (s : Server) (fd : ℕ) : Sqe :=
  let room := peerRecvRoom s.table fd
  let room := if room > iobufSize then iobufSize else room
  ⟨pack .opRecv fd, .opRecv, fd, room, s.descriptors.owner fd⟩

def queueRecv (cfg : Config) (k fd : ℕ) (s : Server) : Process Server :=
  (getSqe cfg k s).andThen fun s' => .running (s'.push (recvSqe s fd))

/-- The bytes that `queue_send` copies and sends. -/
def outgoing (s : Server) (fd : ℕ) : List UInt8 :=
  let out := peerPending s.table fd
  let len := if out.length > iobufSize then iobufSize else out.length
  out.take len

/-- The `memcpy` of `queue_send`. -/
def copyOut (s : Server) (fd : ℕ) : Server :=
  { s with
    iobufs := Function.update s.iobufs fd (Buffer.overwrite (s.iobufs fd) (outgoing s fd))
    copies := s.copies ++ [(fd, s.outstanding)] }

def sendSqe (s : Server) (fd : ℕ) : Sqe :=
  ⟨pack .opSend fd, .opSend, fd, (outgoing s fd).length, s.descriptors.owner fd⟩

def queueSend (cfg : Config) (k fd : ℕ) (s : Server) : Process Server :=
  if (peerPending s.table fd).length = 0 then queueRecv cfg k fd s
  else
    (getSqe cfg k (copyOut s fd)).andThen fun s' => .running (s'.push (sendSqe s fd))

def Server.close (s : Server) (fd : ℕ) : Server :=
  { s with descriptors := s.descriptors.close fd }

/-- Acts on the result of a call of the peer core. -/
def armNext (cfg : Config) (k fd : ℕ) (v : PeerTable × FdStatus) (s : Server) : Process Server :=
  let s := { s with table := v.1 }
  if !v.2.wantRead && !v.2.wantWrite then .running (s.close fd)
  else if v.2.wantWrite then queueSend cfg k fd s
  else queueRecv cfg k fd s

/-! ## Handling one completion -/

def handleAccept (cfg : Config) (k₁ k₂ : ℕ) (res : SysResult ℕ) (s : Server) : Process Server :=
  (queueAccept cfg k₁ s).andThen fun s =>
    match res with
    | .error _ => .running s
    | .ok fd =>
        if !peerFdInRange s.table fd then .running (s.close fd)
        else armNext cfg k₂ fd (peerOnConnected s.table fd) s

def handleRecv (cfg : Config) (k fd : ℕ) (res : SysResult ℕ) (s : Server) : Process Server :=
  match res with
  | .error e =>
      if e = .eintr ∨ e = .eagain then queueRecv cfg k fd s
      else armNext cfg k fd (peerFail s.table fd (.strerror e)) s
  | .ok 0 => armNext cfg k fd (peerFail s.table fd (.text "peer closed")) s
  | .ok n => armNext cfg k fd (peerConsume s.table fd (Buffer.slice (s.iobufs fd) 0 n)) s

def handleSend (cfg : Config) (k fd : ℕ) (res : SysResult ℕ) (s : Server) : Process Server :=
  match res with
  | .error e =>
      if e = .eintr ∨ e = .eagain then queueSend cfg k fd s
      else armNext cfg k fd (peerFail s.table fd (.strerror e)) s
  | .ok n => armNext cfg k fd (peerSent s.table fd n) s

/-- The `switch` of the loop. The kernel may have to take entries for either of
the two submissions that one completion can lead to. -/
def handle (cfg : Config) (k₁ k₂ : ℕ) (c : Cqe) (s : Server) : Process Server :=
  let data := c.sqe.userData
  match unpackOp data with
  | some .opAccept => handleAccept cfg k₁ k₂ c.res s
  | some .opRecv => handleRecv cfg k₁ (unpackFd data) c.res s
  | some .opSend => handleSend cfg k₁ (unpackFd data) c.res s
  | none => .running s

/-! ## The kernel -/

/-- Append to the stream of a connection. -/
def record (streams : ℕ → List UInt8) (conn : Option ℕ) (bytes : List UInt8) : ℕ → List UInt8 :=
  match conn with
  | some c => Function.update streams c (streams c ++ bytes)
  | none => streams

inductive Completion where
  | accept (r : SysResult ℕ)
  | recv (r : SysResult (List UInt8))
  | send (r : SysResult ℕ)

/-- The kernel completes a submission. An accepted descriptor was not open, and
neither direction moves more bytes than the submission asked for. -/
def complete (cfg : Config) (s : Server) (e : Sqe) : Completion → Option Server
  | .accept (.ok fd) =>
      if e.op = .opAccept ∧ s.descriptors.owner fd = none ∧ fd ∉ cfg.reserved then
        some { s with cq := s.cq ++ [⟨e, .ok fd⟩], descriptors := s.descriptors.accept fd }
      else none
  | .recv (.ok data) =>
      if e.op = .opRecv ∧ data.length ≤ e.len then
        some { s with
          cq := s.cq ++ [⟨e, .ok data.length⟩]
          iobufs := Function.update s.iobufs e.fd (Buffer.overwrite (s.iobufs e.fd) data)
          delivered := record s.delivered e.conn data }
      else none
  | .send (.ok n) =>
      if e.op = .opSend ∧ n ≤ e.len then
        some { s with
          cq := s.cq ++ [⟨e, .ok n⟩]
          sent := record s.sent e.conn (Buffer.slice (s.iobufs e.fd) 0 n) }
      else none
  | .accept (.error x) | .recv (.error x) | .send (.error x) =>
      some { s with cq := s.cq ++ [⟨e, .error x⟩] }

/-! ## The loop -/

inductive Label where
  | submit (k : ℕ)
  | wait (r : SysResult Unit)
  | post (i : ℕ) (c : Completion)
  | handle (k₁ k₂ : ℕ)
  | advance

def Server.step (cfg : Config) (s : Server) : Label → Option (Process Server)
  | .submit k =>
      if s.phase = .submit then some (.running { s.submit k with phase := .wait }) else none
  | .wait r =>
      if s.phase = .wait then
        match r with
        | .ok _ => if s.cq = [] then none else some (.running { s with phase := .drain })
        | .error e =>
            if e = .eintr then some (.running { s with phase := .submit }) else some .exited
      else none
  | .post i c =>
      match s.inflight[i]? with
      | some e =>
          (complete cfg { s with inflight := s.inflight.eraseIdx i } e c).map .running
      | none => none
  | .handle k₁ k₂ =>
      if s.phase = .drain then
        match s.cq with
        | c :: cq => some (handle cfg k₁ k₂ c { s with cq := cq })
        | [] => none
      else none
  | .advance =>
      if s.phase = .drain ∧ s.cq = [] then some (.running { s with phase := .submit }) else none

/-- Behind the first `queue_accept`, with cleared tables and empty rings. -/
def Server.start (cfg : Config) : Server where
  phase := .submit
  table := peerStateInit maxFds
  iobufs _ := List.Vector.replicate iobufSize 0
  sq := [acceptSqe cfg]
  inflight := []
  cq := []
  descriptors := .empty
  delivered _ := []
  sent _ := []
  copies := []

def server (cfg : Config) : Machine (Process Server) Label :=
  Process.machine (· = Server.start cfg) (Server.step cfg)

end ConcurrentServers.Uring

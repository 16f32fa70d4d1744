import ConcurrentServers.PeerState.Verdict
import ConcurrentServers.Library.Descriptors

/-!
# Readiness loops over the peer table

What a readiness loop is for, with the system calls left out. The loop watches
every open connection for what the last verdict on it asked for, calls the read
handler only when it watches for reading and the write handler only when it
watches for writing, and closes on a verdict that asks for neither. The servers
that use `select` and `epoll` keep the watched descriptors in different ways
and are shown to follow this loop.
-/

namespace ConcurrentServers

open Systems

theorem wants_nothing_iff (status : FdStatus) :
    (!status.wantRead && !status.wantWrite) = true ↔ status = fdStatusNORW := by
  cases status with
  | mk r w => cases r <;> cases w <;> decide

/-- The field `closes` has an entry for every call of `close`: the connection
that was behind the descriptor. -/
structure EventLoop where
  table : PeerTable
  interest : ℕ → Option FdStatus
  descriptors : Descriptors
  closes : List (Option ℕ)

namespace EventLoop

def accept (l : EventLoop) (fd : ℕ) : EventLoop :=
  { l with descriptors := l.descriptors.accept fd }

def close (l : EventLoop) (fd : ℕ) : EventLoop :=
  { l with
    interest := Function.update l.interest fd none
    descriptors := l.descriptors.close fd
    closes := l.closes ++ [l.descriptors.owner fd] }

def watch (l : EventLoop) (fd : ℕ) (status : FdStatus) : EventLoop :=
  { l with interest := Function.update l.interest fd (some status) }

/-- Acts on the verdict of a handler. -/
def apply (l : EventLoop) (fd : ℕ) (v : PeerTable × FdStatus) : EventLoop :=
  if v.2 = fdStatusNORW then { l with table := v.1 }.close fd
  else { l with table := v.1 }.watch fd v.2

/-! ## Other descriptors are left alone -/

theorem owner_close_ne (l : EventLoop) {fd fd' : ℕ} (hne : fd' ≠ fd) :
    (l.close fd).descriptors.owner fd' = l.descriptors.owner fd' :=
  Descriptors.owner_close_ne _ hne

theorem interest_close_ne (l : EventLoop) {fd fd' : ℕ} (hne : fd' ≠ fd) :
    (l.close fd).interest fd' = l.interest fd' :=
  Function.update_of_ne hne _ _

theorem owner_apply_ne (l : EventLoop) {fd fd' : ℕ} (v : PeerTable × FdStatus) (hne : fd' ≠ fd) :
    (l.apply fd v).descriptors.owner fd' = l.descriptors.owner fd' := by
  unfold apply
  split
  · exact owner_close_ne _ hne
  · rfl

theorem interest_apply_ne (l : EventLoop) {fd fd' : ℕ} (v : PeerTable × FdStatus)
    (hne : fd' ≠ fd) : (l.apply fd v).interest fd' = l.interest fd' := by
  unfold apply
  split
  · exact interest_close_ne _ hne
  · exact Function.update_of_ne hne _ _

/-! ## The invariant -/

/-- A connection that is watched for what its peer is waiting for. -/
structure Watched (reserved : List ℕ) (l : EventLoop) (fd : ℕ) (status : FdStatus) : Prop where
  isOpen : ∃ c, l.descriptors.owner fd = some c
  notMem : fd ∉ reserved
  fd_lt : fd < l.table.peerCapacity
  live : (l.table.peers fd).Live
  agrees : (l.table.peers fd).Agrees status

/-- Every open connection is watched, except for the descriptor `hole` that a
handler is working on, and every `close` was of a connection that was open. -/
structure Sound (reserved : List ℕ) (hole : Option ℕ) (l : EventLoop) : Prop where
  watched : ∀ fd status, hole ≠ some fd → l.interest fd = some status →
    Watched reserved l fd status
  unwatched : ∀ fd, hole ≠ some fd → l.interest fd = none → l.descriptors.owner fd = none
  closes : l.closes = l.descriptors.closed.map some

variable {reserved : List ℕ} {l : EventLoop} {fd : ℕ}

theorem Sound.open_hole (h : Sound reserved none l) (fd : ℕ) : Sound reserved (some fd) l :=
  ⟨fun fd' status _ => h.watched fd' status (by simp), fun fd' _ => h.unwatched fd' (by simp),
    h.closes⟩

theorem Sound.owner_ne_none (h : Sound reserved none l) {status : FdStatus}
    (hstatus : l.interest fd = some status) : l.descriptors.owner fd ≠ none := by
  obtain ⟨c, hc⟩ := (h.watched fd status (by simp) hstatus).isOpen
  simp [hc]

theorem Sound.interest_eq_none (h : Sound reserved none l)
    (hnone : l.descriptors.owner fd = none) : l.interest fd = none := by
  cases hstatus : l.interest fd with
  | none => rfl
  | some status => exact absurd hnone (h.owner_ne_none hstatus)

/-- A new connection is not watched yet. -/
theorem Sound.accept (h : Sound reserved none l) (fd : ℕ) :
    Sound reserved (some fd) (l.accept fd) := by
  refine ⟨?_, ?_, h.closes⟩
  · intro fd' status hhole hstatus
    have hne : fd' ≠ fd := fun heq => hhole (by rw [heq])
    obtain ⟨hopen, hnotMem, hlt, hlive, hagrees⟩ := h.watched fd' status (by simp) hstatus
    rw [← Descriptors.owner_accept_ne l.descriptors hne] at hopen
    exact ⟨hopen, hnotMem, hlt, hlive, hagrees⟩
  · intro fd' hhole hstatus
    have hne : fd' ≠ fd := fun heq => hhole (by rw [heq])
    exact (Descriptors.owner_accept_ne _ hne).trans (h.unwatched fd' (by simp) hstatus)

theorem Sound.close (h : Sound reserved (some fd) l) {c : ℕ}
    (howner : l.descriptors.owner fd = some c) : Sound reserved none (l.close fd) := by
  refine ⟨?_, ?_, ?_⟩
  · intro fd' status _ hstatus
    have hne : fd' ≠ fd := by
      rintro rfl
      simp [EventLoop.close] at hstatus
    rw [interest_close_ne l hne] at hstatus
    obtain ⟨hopen, hnotMem, hlt, hlive, hagrees⟩ :=
      h.watched fd' status (fun heq => hne (Option.some.inj heq).symm) hstatus
    rw [← owner_close_ne l hne] at hopen
    exact ⟨hopen, hnotMem, hlt, hlive, hagrees⟩
  · intro fd' _ hnone
    by_cases hne : fd' = fd
    · rw [hne]
      exact Descriptors.owner_close_same _ _
    · rw [interest_close_ne l hne] at hnone
      rw [owner_close_ne l hne]
      exact h.unwatched fd' (fun heq => hne (Option.some.inj heq).symm) hnone
  · change l.closes ++ [l.descriptors.owner fd] =
      (l.descriptors.closed ++ (l.descriptors.owner fd).toList).map some
    rw [h.closes, howner, List.map_append]
    rfl

theorem Sound.setPeer (h : Sound reserved (some fd) l) (f : PeerState → PeerState × FdStatus) :
    Sound reserved (some fd) { l with table := (l.table.modify fd f).1 } := by
  refine ⟨?_, h.unwatched, h.closes⟩
  intro fd' status hhole hstatus
  have hne : fd' ≠ fd := fun heq => hhole (by rw [heq])
  obtain ⟨hopen, hnotMem, hlt, hlive, hagrees⟩ := h.watched fd' status hhole hstatus
  have hpeer := PeerTable.modify_ne l.table hne f
  exact ⟨hopen, hnotMem, hlt, hpeer ▸ hlive, hpeer ▸ hagrees⟩

theorem Sound.watch (h : Sound reserved (some fd) l) {status : FdStatus}
    (hwatched : Watched reserved l fd status) : Sound reserved none (l.watch fd status) := by
  refine ⟨?_, ?_, h.closes⟩
  · intro fd' status' _ hstatus
    by_cases hne : fd' = fd
    · subst hne
      rw [EventLoop.watch] at hstatus
      have heq : status = status' := by simpa using hstatus
      obtain ⟨hopen, hnotMem, hlt, hlive, hagrees⟩ := hwatched
      exact ⟨hopen, hnotMem, hlt, hlive, heq ▸ hagrees⟩
    · have hold : l.interest fd' = some status' := by simpa [EventLoop.watch, hne] using hstatus
      obtain ⟨hopen, hnotMem, hlt, hlive, hagrees⟩ :=
        h.watched fd' status' (fun heq => hne (Option.some.inj heq).symm) hold
      exact ⟨hopen, hnotMem, hlt, hlive, hagrees⟩
  · intro fd' _ hnone
    by_cases hne : fd' = fd
    · simp [EventLoop.watch, hne] at hnone
    · apply h.unwatched fd' (fun heq => hne (Option.some.inj heq).symm)
      simpa [EventLoop.watch, hne] using hnone

/-- Every handler ends this way: the peer is changed, and the connection is
closed or watched for what it then waits for. -/
theorem Sound.apply (h : Sound reserved (some fd) l) {c : ℕ}
    (howner : l.descriptors.owner fd = some c) (hres : fd ∉ reserved)
    (hlt : fd < l.table.peerCapacity) {f : PeerState → PeerState × FdStatus}
    (hlive : (f (l.table.peers fd)).1.Live)
    (hstatus : (f (l.table.peers fd)).2 = fdStatusNORW ∨
      (f (l.table.peers fd)).1.Agrees (f (l.table.peers fd)).2) :
    Sound reserved none (l.apply fd (l.table.modify fd f)) := by
  have hset := h.setPeer f
  have hpeer := PeerTable.modify_same l.table fd f
  unfold EventLoop.apply
  split
  · exact hset.close howner
  · next hne =>
      have hagrees := hstatus.resolve_left hne
      exact hset.watch ⟨⟨c, howner⟩, hres, hlt, hpeer ▸ hlive, hpeer ▸ hagrees⟩

/-! ## The handlers -/

theorem Watched.recvRoom_pos {status : FdStatus} (h : Watched reserved l fd status)
    (hread : status.wantRead = true) : 0 < (l.table.peers fd).recvRoom := by
  rcases h.agrees with ⟨⟨hstatus, _⟩ | ⟨_, _, hroom⟩⟩
  · rw [hstatus] at hread
    cases hread
  · exact hroom

theorem Watched.pending_ne_nil {status : FdStatus} (h : Watched reserved l fd status)
    (hwrite : status.wantWrite = true) : (l.table.peers fd).pending ≠ [] := by
  rcases h.agrees with ⟨⟨_, hne⟩ | ⟨hstatus, _⟩⟩
  · exact hne
  · rw [hstatus] at hwrite
    cases hwrite

/-- A connection that is refused is closed at once. -/
theorem Sound.reject (h : Sound reserved none l) (fd : ℕ) :
    Sound reserved none ((l.accept fd).close fd) :=
  (h.accept fd).close (Descriptors.owner_accept_same _ _)

theorem Sound.connect (h : Sound reserved none l) (hres : fd ∉ reserved)
    (hlt : fd < l.table.peerCapacity) :
    Sound reserved none ((l.accept fd).apply fd (peerOnConnected l.table fd)) :=
  (h.accept fd).apply (Descriptors.owner_accept_same _ _) hres hlt (PeerState.live_onConnected _)
    (Or.inr (PeerState.agrees_onConnected _))

/-- A connection on which the kernel reports an error is closed unread. -/
theorem Sound.drop (h : Sound reserved none l) {status : FdStatus}
    (hstatus : l.interest fd = some status) : Sound reserved none (l.close fd) := by
  obtain ⟨c, howner⟩ := (h.watched fd status (by simp) hstatus).isOpen
  exact (h.open_hole fd).close howner

theorem Sound.readyRecv (h : Sound reserved none l) {status : FdStatus}
    (hstatus : l.interest fd = some status) (hread : status.wantRead = true)
    {r : SysResult (List UInt8)} (hr : (l.table.peers fd).AllowsRecv r) :
    Sound reserved none (l.apply fd (peerOnReadyRecv l.table fd r)) := by
  have hwatched := h.watched fd status (by simp) hstatus
  obtain ⟨c, howner⟩ := hwatched.isOpen
  obtain ⟨hlive, hverdict⟩ := hwatched.live.onReadyRecv (hwatched.recvRoom_pos hread) hr
  exact (h.open_hole fd).apply howner hwatched.notMem hwatched.fd_lt hlive hverdict

theorem Sound.readySend (h : Sound reserved none l) {status : FdStatus}
    (hstatus : l.interest fd = some status) (hwrite : status.wantWrite = true)
    (r : SysResult ℕ) : Sound reserved none (l.apply fd (peerOnReadySend l.table fd r)) := by
  have hwatched := h.watched fd status (by simp) hstatus
  obtain ⟨c, howner⟩ := hwatched.isOpen
  obtain ⟨hlive, hverdict⟩ := hwatched.live.onReadySend (hwatched.pending_ne_nil hwrite) r
  exact (h.open_hole fd).apply howner hwatched.notMem hwatched.fd_lt hlive hverdict

/-! ## Runs of the loop -/

/-- One step, with the descriptor whose readiness it handles, if it is one of a
connection. A handler is called only for what the descriptor is watched for. -/
inductive Step (reserved : List ℕ) (l : EventLoop) : Option ℕ → EventLoop → Prop where
  | idle (t : Option ℕ) : Step reserved l t l
  | reject {fd : ℕ} (hnone : l.descriptors.owner fd = none) :
      Step reserved l none ((l.accept fd).close fd)
  | connect {fd : ℕ} (hnone : l.descriptors.owner fd = none) (hres : fd ∉ reserved)
      (hlt : fd < l.table.peerCapacity) :
      Step reserved l none ((l.accept fd).apply fd (peerOnConnected l.table fd))
  | drop {fd : ℕ} {status : FdStatus} (hstatus : l.interest fd = some status) :
      Step reserved l (some fd) (l.close fd)
  | recv {fd : ℕ} {status : FdStatus} (hstatus : l.interest fd = some status)
      (hread : status.wantRead = true) {r : SysResult (List UInt8)}
      (hr : (l.table.peers fd).AllowsRecv r) :
      Step reserved l (some fd) (l.apply fd (peerOnReadyRecv l.table fd r))
  | send {fd : ℕ} {status : FdStatus} (hstatus : l.interest fd = some status)
      (hwrite : status.wantWrite = true) (r : SysResult ℕ) :
      Step reserved l (some fd) (l.apply fd (peerOnReadySend l.table fd r))

theorem Sound.step (h : Sound reserved none l) {t : Option ℕ} {l' : EventLoop}
    (hs : Step reserved l t l') : Sound reserved none l' := by
  cases hs with
  | idle t => exact h
  | reject hnone => exact h.reject _
  | connect hnone hres hlt => exact h.connect hres hlt
  | drop hstatus => exact h.drop hstatus
  | recv hstatus hread hr => exact h.readyRecv hstatus hread hr
  | send hstatus hwrite r => exact h.readySend hstatus hwrite r

theorem table_apply (l : EventLoop) (fd : ℕ) (v : PeerTable × FdStatus) :
    (l.apply fd v).table = v.1 := by
  unfold apply
  split <;> rfl

theorem Step.capacity {t : Option ℕ} {l' : EventLoop} (hs : Step reserved l t l') :
    l'.table.peerCapacity = l.table.peerCapacity := by
  cases hs with
  | idle t => rfl
  | reject hnone => rfl
  | connect hnone hres hlt => rw [table_apply]; rfl
  | drop hstatus => rfl
  | recv hstatus hread hr => rw [table_apply]; rfl
  | send hstatus hwrite r => rw [table_apply]; rfl

/-- A step leaves every open connection but the one that it handles alone. A new
connection does not get the number of an open one. -/
theorem Step.frame {t : Option ℕ} {l' : EventLoop} (hs : Step reserved l t l') {fd : ℕ}
    (hopen : l.descriptors.owner fd ≠ none) (hne : t ≠ some fd) :
    l'.descriptors.owner fd = l.descriptors.owner fd ∧ l'.interest fd = l.interest fd := by
  cases hs with
  | idle t => exact ⟨rfl, rfl⟩
  | @reject new hnone =>
      have hnew : fd ≠ new := fun heq => hopen (heq ▸ hnone)
      rw [owner_close_ne _ hnew, interest_close_ne _ hnew]
      exact ⟨Descriptors.owner_accept_ne _ hnew, rfl⟩
  | @connect new hnone hres hlt =>
      have hnew : fd ≠ new := fun heq => hopen (heq ▸ hnone)
      rw [owner_apply_ne _ _ hnew, interest_apply_ne _ _ hnew]
      exact ⟨Descriptors.owner_accept_ne _ hnew, rfl⟩
  | drop hstatus =>
      have hfd := fun heq : fd = _ => hne (by rw [heq])
      exact ⟨owner_close_ne _ hfd, interest_close_ne _ hfd⟩
  | recv hstatus hread hr =>
      have hfd := fun heq : fd = _ => hne (by rw [heq])
      exact ⟨owner_apply_ne _ _ hfd, interest_apply_ne _ _ hfd⟩
  | send hstatus hwrite r =>
      have hfd := fun heq : fd = _ => hne (by rw [heq])
      exact ⟨owner_apply_ne _ _ hfd, interest_apply_ne _ _ hfd⟩

theorem descriptors_apply (l : EventLoop) (fd : ℕ) (v : PeerTable × FdStatus) :
    (l.apply fd v).descriptors = l.descriptors ∨
      (l.apply fd v).descriptors = l.descriptors.close fd := by
  unfold apply
  split
  · exact Or.inr rfl
  · exact Or.inl rfl

/-- What a step does to the connections: a new one may come first, and one may
be closed last. -/
theorem Step.descriptors {t : Option ℕ} {l' : EventLoop} (hs : Step reserved l t l') :
    ∃ d fd, (d = l.descriptors ∨ d = l.descriptors.accept fd) ∧
      (l'.descriptors = d ∨ l'.descriptors = d.close fd) := by
  cases hs with
  | idle t => exact ⟨_, 0, Or.inl rfl, Or.inl rfl⟩
  | @reject new hnone => exact ⟨_, new, Or.inr rfl, Or.inr rfl⟩
  | @connect new hnone hres hlt => exact ⟨_, new, Or.inr rfl, descriptors_apply _ new _⟩
  | @drop fd status hstatus => exact ⟨_, fd, Or.inl rfl, Or.inr rfl⟩
  | @recv fd status hstatus hread r hr => exact ⟨_, fd, Or.inl rfl, descriptors_apply _ fd _⟩
  | @send fd status hstatus hwrite r => exact ⟨_, fd, Or.inl rfl, descriptors_apply _ fd _⟩

/-- A connection that was not there before a step has a new number. -/
theorem Step.fresh {t : Option ℕ} {l' : EventLoop} (hs : Step reserved l t l') :
    l.descriptors.fresh ≤ l'.descriptors.fresh ∧
      ∀ fd c, l'.descriptors.owner fd = some c →
        l.descriptors.owner fd = some c ∨ l.descriptors.fresh ≤ c := by
  obtain ⟨d, new, hd, hd'⟩ := hs.descriptors
  have haccept : l.descriptors.fresh ≤ d.fresh ∧ ∀ fd c, d.owner fd = some c →
      l.descriptors.owner fd = some c ∨ l.descriptors.fresh ≤ c := by
    rcases hd with rfl | rfl
    · exact ⟨le_rfl, fun fd c hc => Or.inl hc⟩
    · exact ⟨Nat.le_succ _, fun fd c => Descriptors.owner_accept_cases⟩
  rcases hd' with hd' | hd'
  · rw [hd']
    exact haccept
  · rw [hd']
    exact ⟨haccept.1, fun fd c hc => haccept.2 fd c (Descriptors.owner_of_owner_close hc)⟩

end EventLoop

end ConcurrentServers

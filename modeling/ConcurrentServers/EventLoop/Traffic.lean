import ConcurrentServers.Echo
import ConcurrentServers.EventLoop

/-!
# The reply streams of a readiness loop

What the kernel delivered on a connection and what it accepted for sending are
kept beside the loop. A handler moves bytes on the connection it is called for
and on no other, and closing or reusing a descriptor moves none. So the peer
behind every open descriptor tracks the two streams of its connection, and every
step of the loop is one of the echo service.
-/

namespace ConcurrentServers

open Systems

/-! ## The bytes of one call -/

namespace PeerState

/-- What the `recv` of `peer_on_ready_recv` delivers. Without room it is not called. -/
def recvBytes (peer : PeerState) : SysResult (List UInt8) → List UInt8
  | .ok data => if peer.recvRoom = 0 then [] else data
  | .error _ => []

/-- What the `send` of `peer_on_ready_send` takes from the pending bytes. -/
def sendBytes (peer : PeerState) : SysResult ℕ → List UInt8
  | .ok n => peer.pending.take n
  | .error _ => []

/-- `send` does not take more than it was given. -/
def allowsSend (peer : PeerState) : SysResult ℕ → Bool
  | .ok n => n ≤ peer.pending.length
  | .error _ => true

variable {peer : PeerState} {consumed drained : List UInt8}

theorem Tracks.onReadyRecv (h : peer.Tracks consumed drained) {r : SysResult (List UInt8)}
    (hr : peer.AllowsRecv r) :
    (peer.onReadyRecv r).1.Tracks (consumed ++ peer.recvBytes r) drained := by
  unfold PeerState.onReadyRecv
  by_cases hroom : peer.recvRoom = 0
  · have hnone : peer.recvBytes r = [] := by
      cases r <;> simp [recvBytes, hroom]
    rw [if_pos hroom, hnone, List.append_nil]
    exact h
  · rw [if_neg hroom]
    cases r with
    | error e =>
        have hnone : consumed ++ peer.recvBytes (.error e) = consumed := List.append_nil _
        rw [hnone]
        dsimp only
        split
        · exact h
        · split
          · exact h.closeWith _
          · exact h.closeWith _
    | ok data =>
        have hall : peer.recvBytes (.ok data) = data := if_neg hroom
        rw [hall]
        cases data with
        | nil =>
            rw [List.append_nil]
            exact h.closeWith _
        | cons b data =>
            have hwant : peer.want ≤ peer.recvRoom := by
              unfold want
              split <;> omega
            exact h.consume ((hr _ rfl).trans hwant)

theorem Tracks.onReadySend (h : peer.Tracks consumed drained) {r : SysResult ℕ}
    (hr : peer.allowsSend r = true) :
    (peer.onReadySend r).1.Tracks consumed (drained ++ peer.sendBytes r) := by
  unfold PeerState.onReadySend
  by_cases hlen : peer.pending.length = 0
  · have hnone : peer.sendBytes r = [] := by
      cases r <;> simp [sendBytes, List.length_eq_zero_iff.mp hlen]
    rw [if_pos hlen, hnone, List.append_nil]
    exact h
  · rw [if_neg hlen]
    cases r with
    | error e =>
        have hnone : drained ++ peer.sendBytes (.error e) = drained := List.append_nil _
        rw [hnone]
        dsimp only
        split
        · exact h
        · split
          · exact h.closeWith _
          · exact h.closeWith _
    | ok n => exact h.sent (by simpa [allowsSend] using hr)

end PeerState

/-! ## The loop with its traffic -/

namespace EventLoop

variable {reserved : List ℕ} {l l' : EventLoop} {t t' : Traffic} {fd c : ℕ}

/-- One step, with what it does to the streams. -/
inductive Transfer (l : EventLoop) (t : Traffic) : EventLoop → Traffic → Prop where
  | idle : Transfer l t l t
  | reject {fd : ℕ} (hnone : l.descriptors.owner fd = none) :
      Transfer l t ((l.accept fd).close fd) t
  | connect {fd : ℕ} (hnone : l.descriptors.owner fd = none) :
      Transfer l t ((l.accept fd).apply fd (peerOnConnected l.table fd)) t
  | drop {fd c : ℕ} (howner : l.descriptors.owner fd = some c) : Transfer l t (l.close fd) t
  | recv {fd c : ℕ} {r : SysResult (List UInt8)} (howner : l.descriptors.owner fd = some c)
      (hroom : 0 < (l.table.peers fd).recvRoom) (hr : (l.table.peers fd).AllowsRecv r) :
      Transfer l t (l.apply fd (peerOnReadyRecv l.table fd r))
        (t.deliver (l.descriptors.owner fd) ((l.table.peers fd).recvBytes r))
  | send {fd c : ℕ} {r : SysResult ℕ} (howner : l.descriptors.owner fd = some c)
      (hr : (l.table.peers fd).allowsSend r = true) :
      Transfer l t (l.apply fd (peerOnReadySend l.table fd r))
        (t.send (l.descriptors.owner fd) ((l.table.peers fd).sendBytes r))

/-- The peer behind every descriptor tracks the streams of its connection. -/
structure Conforms (l : EventLoop) (t : Traffic) : Prop where
  tracks : ∀ fd c, l.descriptors.owner fd = some c →
    (l.table.peers fd).Tracks (t.delivered c) (t.sent c)
  isPrefix : ∀ c, t.sent c <+: Frame.reply (t.delivered c)
  fresh : ∀ c, l.descriptors.fresh ≤ c → t.delivered c = [] ∧ t.sent c = []

/-- The steps that are taken for no connection move no bytes. -/
theorem Step.transfer (hs : Step reserved l none l') : Transfer l t l' t := by
  cases hs with
  | idle => exact .idle
  | reject hnone => exact .reject hnone
  | connect hnone hres hlt => exact .connect hnone

theorem Conforms.close (h : Conforms l t) (fd : ℕ) : Conforms (l.close fd) t where
  tracks fd' c hc := h.tracks fd' c (Descriptors.owner_of_owner_close hc)
  isPrefix := h.isPrefix
  fresh := h.fresh

/-- A handler was called for the connection `c` behind `fd`, or a connection was
accepted there. It left the streams of all others alone. -/
theorem Conforms.apply (h : Conforms l t) (hframe : ∀ c', c' ≠ c →
      t'.delivered c' = t.delivered c' ∧ t'.sent c' = t.sent c')
    (howner : l.descriptors.owner fd = some c) {f : PeerState → PeerState × FdStatus}
    (htracks : (f (l.table.peers fd)).1.Tracks (t'.delivered c) (t'.sent c)) :
    Conforms (l.apply fd (l.table.modify fd f)) t' := by
  have hset : Conforms { l with table := (l.table.modify fd f).1 } t' := by
    refine ⟨?_, ?_, ?_⟩
    · intro fd' c' hc'
      by_cases hfd : fd' = fd
      · subst hfd
        cases howner.symm.trans hc'
        rw [PeerTable.modify_same]
        exact htracks
      · have hne : c' ≠ c := by
          rintro rfl
          exact hfd (l.descriptors.owner_inj hc' howner)
        rw [PeerTable.modify_ne l.table hfd, (hframe c' hne).1, (hframe c' hne).2]
        exact h.tracks fd' c' hc'
    · intro c'
      by_cases hne : c' = c
      · rw [hne]
        exact ⟨_, htracks.stream⟩
      · rw [(hframe c' hne).1, (hframe c' hne).2]
        exact h.isPrefix c'
    · intro c' hle
      have hne : c' ≠ c := by
        rintro rfl
        exact absurd (l.descriptors.owner_lt howner) (Nat.not_lt.mpr hle)
      rw [(hframe c' hne).1, (hframe c' hne).2]
      exact h.fresh c' hle
  unfold EventLoop.apply
  split
  · exact hset.close fd
  · exact ⟨hset.tracks, hset.isPrefix, hset.fresh⟩

/-- The new connection has no streams yet, so the number that it gets does not matter. -/
theorem Conforms.accept (h : Conforms l t) (fd : ℕ) :
    (∀ fd' c, fd' ≠ fd → (l.accept fd).descriptors.owner fd' = some c →
      (l.table.peers fd').Tracks (t.delivered c) (t.sent c)) ∧
    (t.delivered l.descriptors.fresh = [] ∧ t.sent l.descriptors.fresh = []) := by
  refine ⟨?_, h.fresh _ le_rfl⟩
  intro fd' c hne hc
  apply h.tracks fd' c
  rwa [EventLoop.accept, Descriptors.owner_accept_ne _ hne] at hc

theorem Conforms.reject (h : Conforms l t) (fd : ℕ) : Conforms ((l.accept fd).close fd) t := by
  refine ⟨?_, h.isPrefix, ?_⟩
  · intro fd' c hc
    by_cases hfd : fd' = fd
    · simp [hfd, EventLoop.close] at hc
    · apply (h.accept fd).1 fd' c hfd
      exact Descriptors.owner_of_owner_close hc
  · intro c hle
    exact h.fresh c (Nat.le_of_succ_le hle)

theorem Conforms.connect (h : Conforms l t) (fd : ℕ) :
    Conforms ((l.accept fd).apply fd (peerOnConnected l.table fd)) t := by
  obtain ⟨hothers, hdelivered, hsent⟩ := h.accept fd
  have htracks := PeerState.tracks_onConnected (l.table.peers fd)
  have hset : Conforms { l.accept fd with table := (peerOnConnected l.table fd).1 } t := by
    refine ⟨?_, h.isPrefix, fun c hle => h.fresh c (Nat.le_of_succ_le hle)⟩
    intro fd' c hc
    by_cases hfd : fd' = fd
    · subst hfd
      have hfresh : l.descriptors.fresh = c := by simpa [EventLoop.accept] using hc
      rw [← hfresh, hdelivered, hsent, peerOnConnected, PeerTable.modify_same]
      exact htracks
    · rw [peerOnConnected, PeerTable.modify_ne l.table hfd]
      exact hothers fd' c hfd hc
  unfold EventLoop.apply
  split
  · exact hset.close fd
  · exact ⟨hset.tracks, hset.isPrefix, hset.fresh⟩

theorem Conforms.transfer (h : Conforms l t) (hs : Transfer l t l' t') :
    Conforms l' t' := by
  cases hs with
  | idle => exact h
  | reject hnone => exact h.reject _
  | connect hnone => exact h.connect _
  | drop howner => exact h.close _
  | @recv fd c r howner hroom hr =>
      rw [howner]
      refine h.apply (c := c) ?_ howner ?_
      · intro c' hne
        exact ⟨Function.update_of_ne hne _ _, rfl⟩
      · have htracks := (h.tracks fd c howner).onReadyRecv hr
        simpa [Traffic.deliver] using htracks
  | @send fd c r howner hr =>
      rw [howner]
      refine h.apply (c := c) ?_ howner ?_
      · intro c' hne
        exact ⟨rfl, Function.update_of_ne hne _ _⟩
      · have htracks := (h.tracks fd c howner).onReadySend hr
        simpa [Traffic.send] using htracks

theorem conforms_empty {table : PeerTable} {interest : ℕ → Option FdStatus}
    {closes : List (Option ℕ)} : Conforms ⟨table, interest, .empty, closes⟩ .empty where
  tracks := nofun
  isPrefix _ := List.nil_prefix
  fresh _ _ := ⟨rfl, rfl⟩

/-! ## The loop provides the echo service -/

/-- A connection that is watched for reading has been sent its whole reply. -/
theorem Conforms.sent_eq (h : Conforms l t) {status : FdStatus}
    (hwatched : Watched reserved l fd status) (howner : l.descriptors.owner fd = some c)
    (hread : status.wantRead = true) : t.sent c = Frame.reply (t.delivered c) := by
  apply (h.tracks fd c howner).drained_eq
  exact hwatched.live.bounded.pending_of_recvRoom_pos (hwatched.recvRoom_pos hread)

/-- What the service sees of a loop. -/
def toEcho (l : EventLoop) (t : Traffic) : Echo := ⟨l.descriptors, t⟩

/-- A handler ends with a verdict, on which the loop may close the connection. -/
theorem exists_run_apply {v : PeerTable × FdStatus} (howner : l.descriptors.owner fd = some c)
    {bs : List Echo.Label} {p : Process Echo}
    (hrun : echo.run p bs = some (.running (l.toEcho t))) :
    ∃ bs', echo.run p bs' = some (.running ((l.apply fd v).toEcho t)) := by
  rcases descriptors_apply l fd v with hkeeps | hcloses
  · refine ⟨bs, ?_⟩
    rw [hrun, toEcho, toEcho, hkeeps]
  · refine ⟨bs ++ [.close fd], ?_⟩
    rw [toEcho, hcloses]
    exact Machine.run_append hrun (Echo.run_close howner)

theorem Transfer.echo (hs : Transfer l t l' t') (h : Conforms l t) :
    ∃ bs, echo.run (.running (l.toEcho t)) bs = some (.running (l'.toEcho t')) := by
  cases hs with
  | idle => exact ⟨[], rfl⟩
  | @reject fd hnone =>
      refine ⟨[.accept fd] ++ [.close fd], Machine.run_append (Echo.run_accept hnone) ?_⟩
      exact Echo.run_close (Descriptors.owner_accept_same _ _)
  | @connect fd hnone =>
      have hrun : ConcurrentServers.echo.run (.running (l.toEcho t)) [.accept fd] =
          some (.running ((l.accept fd).toEcho t)) := Echo.run_accept hnone
      exact exists_run_apply (Descriptors.owner_accept_same _ _) hrun
  | @drop fd c howner => exact ⟨[.close fd], Echo.run_close howner⟩
  | @recv fd c r howner hroom hr =>
      have htracks := h.tracks fd c howner
      have hanswered : (l.toEcho t).Answered c :=
        htracks.drained_eq (htracks.bounded.pending_of_recvRoom_pos hroom)
      rw [howner]
      exact exists_run_apply howner (Echo.run_deliver howner hanswered _)
  | @send fd c r howner hr =>
      have htracks := (h.tracks fd c howner).onReadySend hr
      rw [howner]
      apply exists_run_apply howner
      exact Echo.run_send howner ⟨_, htracks.stream⟩

end EventLoop

end ConcurrentServers

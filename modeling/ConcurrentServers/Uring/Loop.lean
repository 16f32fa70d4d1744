import ConcurrentServers.Uring.Invariant

/-!
# The invariant along the completion loop

Each way to handle a completion and each way for the kernel to complete a
submission keeps the invariant. What the server relies on when it interprets a
completion is read off the token at the end.
-/

namespace ConcurrentServers.Uring

open Systems

/-! ## Handling a completion -/

/-- Taking the completion of a transfer off the ring opens the hole of its
descriptor. -/
theorem Sound.pop_transfer {cfg : Config} {s : Server} (h : Sound cfg none s) {q : Cqe}
    {cq : List Cqe} (hcq : s.cq = q :: cq) (hop : q.sqe.op ≠ .opAccept) :
    ∃ c, Hole cfg { s with cq := cq } q.sqe.fd c ∧ s.token q.sqe.fd c q.item := by
  have hitems := items_pop hcq
  have hmem : q.item ∈ s.items := hitems ▸ Multiset.mem_cons_self _ _
  have hconcerns : ∀ fd, Concerns fd q.item ↔ q.sqe.fd = fd := fun _ => concerns_transfer hop _
  obtain ⟨c, howner, hres, hops, htoken⟩ := h.token_of_mem hmem ((hconcerns _).mpr rfl)
  refine ⟨c, ⟨⟨?_, ?_, ?_, h.copies, h.closed, h.fresh, h.capacity⟩, howner, hres, ?_⟩, htoken⟩
  · rw [← accepts_cons_of_ne hitems hop]
    exact h.accept
  · intro p hp
    exact h.userData p (hitems ▸ Multiset.mem_cons_of_mem hp)
  · intro fd hne
    apply (h.served fd (by simp)).congr
    have hnot : ¬Concerns fd q.item := fun hc => hne (by rw [(hconcerns fd).mp hc])
    exact ⟨(ops_cons_of_not hitems hnot).symm, rfl, rfl, rfl, fun _ _ => rfl, fun _ _ => rfl⟩
  · exact ops_eq_zero_of_singleton hitems ((hconcerns _).mpr rfl) hops

theorem Hole.handleRecv {cfg : Config} {s s' : Server} {k fd c : ℕ} {e : Sqe}
    {res : SysResult ℕ} (h : Hole cfg s fd c) (hfd : e.fd = fd)
    (htoken : RecvToken (s.table.peers fd) (s.iobufs fd) c (s.delivered c) (s.sent c) e (some res))
    (hs : handleRecv cfg k fd res s = .running s') : Sound cfg none s' := by
  have hlt : fd < maxFds := hfd ▸ htoken.fd_lt
  have hlive := htoken.live
  cases res with
  | error x =>
      have htracks := htoken.stream
      simp only [Uring.handleRecv] at hs
      by_cases hagain : x = .eintr ∨ x = .eagain
      · rw [if_pos hagain] at hs
        exact h.queueRecv hlt hlive htoken.pending htracks hs
      · rw [if_neg hagain] at hs
        exact h.armNext hlt (htracks.closeWith _) (hlive.closeWith _) (Or.inl rfl) hs
  | ok n =>
      obtain ⟨_, pre, hpre, htracks⟩ := htoken.stream
      cases n with
      | zero =>
          rw [Buffer.slice_self, List.append_nil] at hpre
          rw [← hpre] at htracks
          change Uring.armNext cfg k fd (peerFail s.table fd (.text "peer closed")) s = _ at hs
          exact h.armNext hlt (htracks.closeWith _) (hlive.closeWith _) (Or.inl rfl) hs
      | succ n =>
          obtain ⟨hpos, hlen, hn⟩ := htoken.fits
          have hroom := hlen.trans_le hn
          obtain ⟨hlive', hagrees⟩ := hlive.consume hpos hroom
          have htracks' := htracks.consume hroom
          rw [← hpre] at htracks'
          exact h.armNext hlt htracks' hlive' (Or.inr hagrees) hs

theorem Hole.handleSend {cfg : Config} {s s' : Server} {k fd c : ℕ} {e : Sqe}
    {res : SysResult ℕ} (h : Hole cfg s fd c) (hfd : e.fd = fd)
    (htoken : SendToken (s.table.peers fd) (s.iobufs fd) c (s.delivered c) (s.sent c) e (some res))
    (hs : handleSend cfg k fd res s = .running s') : Sound cfg none s' := by
  have hlt : fd < maxFds := hfd ▸ htoken.fd_lt
  have hlive := htoken.live
  cases res with
  | error x =>
      have htracks := htoken.stream
      simp only [Uring.handleSend] at hs
      by_cases hagain : x = .eintr ∨ x = .eagain
      · rw [if_pos hagain] at hs
        exact h.queueSend hlt hlive htoken.pending htracks hs
      · rw [if_neg hagain] at hs
        exact h.armNext hlt (htracks.closeWith _) (hlive.closeWith _) (Or.inl rfl) hs
  | ok n =>
      obtain ⟨hn, pre, hpre, htracks⟩ := htoken.stream
      have htracks' := htracks.sent (htoken.len ▸ hn)
      rw [← hpre] at htracks'
      exact h.armNext hlt htracks' (hlive.sent n) (Or.inr (hlive.agrees_sent n)) hs

/-- The state behind the `queue_accept` that handling an accept starts with. -/
def rearmed (cfg : Config) (s : Server) (cq : List Cqe) (k : ℕ) : Server :=
  (({ s with cq := cq } : Server).submit k).push (acceptSqe cfg)

theorem items_rearmed (cfg : Config) (s : Server) (cq : List Cqe) (k : ℕ) :
    (rearmed cfg s cq k).items = (acceptSqe cfg).item ::ₘ ({ s with cq := cq } : Server).items := by
  rw [rearmed, items_push, items_submit]

/-- Handling an accept puts a new one in place of the old one. Only the
descriptor that the old one returned, if any, loses its token. -/
theorem Sound.rearmed {cfg : Config} {s : Server} (h : Sound cfg none s) {q : Cqe}
    {cq : List Cqe} (hcq : s.cq = q :: cq) (hop : q.sqe.op = .opAccept) (k : ℕ)
    {hole : Option ℕ} (hhole : ∀ fd, q.res = .ok fd → hole = some fd) :
    Sound cfg hole (Uring.rearmed cfg s cq k) := by
  have hitems := items_pop hcq
  have hnew := items_rearmed cfg s cq k
  refine ⟨?_, ?_, ?_, h.copies, h.closed, h.fresh, h.capacity⟩
  · have hone := h.accept
    rw [accepts_cons_of_eq hitems hop, Multiset.card_cons] at hone
    rw [accepts_cons_of_eq hnew rfl, Multiset.card_cons]
    exact hone
  · intro p hp
    rw [hnew] at hp
    rcases Multiset.mem_cons.mp hp with rfl | hp
    · rfl
    · exact h.userData p (hitems ▸ Multiset.mem_cons_of_mem hp)
  · intro fd hne
    apply (h.served fd (by simp)).congr
    have hold : ¬Concerns fd q.item :=
      not_concerns_accept hop fun hres => hne (hhole fd (Option.some.inj hres))
    have hnot : ¬Concerns fd (acceptSqe cfg).item := not_concerns_item rfl fd
    have hops : (Uring.rearmed cfg s cq k).ops fd = s.ops fd :=
      (ops_cons_of_not hnew hnot).trans (ops_cons_of_not hitems hold).symm
    exact ⟨hops, rfl, rfl, rfl, fun _ _ => rfl, fun _ _ => rfl⟩

/-- The accepted descriptor is then a hole with empty streams. -/
theorem Sound.rearmed_hole {cfg : Config} {s : Server} (h : Sound cfg none s) {q : Cqe}
    {cq : List Cqe} (hcq : s.cq = q :: cq) (hop : q.sqe.op = .opAccept) (k : ℕ) {fd : ℕ}
    (hres : q.res = .ok fd) :
    ∃ c, Hole cfg (Uring.rearmed cfg s cq k) fd c ∧ s.delivered c = [] ∧ s.sent c = [] := by
  have hitems := items_pop hcq
  have hmem : q.item ∈ s.items := hitems ▸ Multiset.mem_cons_self _ _
  have hconcerns : Concerns fd q.item := (concerns_accept hop _).mpr (by rw [hres])
  obtain ⟨c, howner, hnotMem, hops, htoken⟩ := h.token_of_mem hmem hconcerns
  refine ⟨c, ⟨?_, howner, hnotMem, ?_⟩, (token_accept_iff hop).mp htoken⟩
  · apply h.rearmed hcq hop k
    intro fd' hfd'
    rw [hres] at hfd'
    cases hfd'
    rfl
  · have hnot : ¬Concerns fd (acceptSqe cfg).item := not_concerns_item rfl fd
    rw [ops_cons_of_not (items_rearmed cfg s cq k) hnot]
    exact ops_eq_zero_of_singleton hitems hconcerns hops

theorem Sound.handleAccept {cfg : Config} {s s' : Server} (h : Sound cfg none s) {q : Cqe}
    {cq : List Cqe} (hcq : s.cq = q :: cq) (hop : q.sqe.op = .opAccept) {k₁ k₂ : ℕ}
    (hs : handleAccept cfg k₁ k₂ q.res { s with cq := cq } = .running s') :
    Sound cfg none s' := by
  obtain ⟨t, ht, hs⟩ := Process.andThen_eq_running hs
  obtain ⟨u, hu, ht⟩ := Process.andThen_eq_running ht
  obtain ⟨k, rfl⟩ := getSqe_running hu
  cases ht
  cases hres : q.res with
  | error x =>
      rw [hres] at hs
      cases hs
      apply h.rearmed hcq hop k
      intro fd hfd
      rw [hres] at hfd
      cases hfd
  | ok fd =>
      obtain ⟨c, hhole, hdel, hsent⟩ := h.rearmed_hole hcq hop k hres
      rw [hres] at hs
      change (if !peerFdInRange (Uring.rearmed cfg s cq k).table fd then
        .running ((Uring.rearmed cfg s cq k).close fd) else _) = Process.running s' at hs
      by_cases hrange : peerFdInRange (Uring.rearmed cfg s cq k).table fd = true
      · have hlt : fd < maxFds := by
          rw [← h.capacity]
          exact lt_capacity_of_inRange hrange
        simp only [hrange, Bool.not_true, Bool.false_eq_true, if_false] at hs
        apply hhole.armNext hlt _ (PeerState.live_onConnected _)
          (Or.inr (PeerState.agrees_onConnected _)) hs
        change PeerState.Tracks _ (s.delivered c) (s.sent c)
        rw [hdel, hsent]
        exact PeerState.tracks_onConnected _
      · rw [Bool.eq_false_of_not_eq_true hrange] at hs
        cases hs
        apply hhole.close
        change s.sent c <+: _
        rw [hsent]
        exact List.nil_prefix

theorem Sound.handle {cfg : Config} {s s' : Server} (h : Sound cfg none s) {q : Cqe}
    {cq : List Cqe} (hcq : s.cq = q :: cq) {k₁ k₂ : ℕ}
    (hs : handle cfg k₁ k₂ q { s with cq := cq } = .running s') : Sound cfg none s' := by
  have hmem : q.item ∈ s.items := items_pop hcq ▸ Multiset.mem_cons_self _ _
  have hdata : q.sqe.userData = pack q.sqe.op q.sqe.fd := h.userData _ hmem
  have hsmall : maxFds < 2 ^ 32 := by decide
  simp only [Uring.handle, hdata, unpackOp_pack] at hs
  cases hop : q.sqe.op with
  | opAccept =>
      rw [hop] at hs
      exact h.handleAccept hcq hop hs
  | opRecv =>
      obtain ⟨c, hhole, htoken⟩ := h.pop_transfer hcq (by simp [hop])
      have htoken' := (token_recv_iff hop).mp htoken
      rw [hop] at hs
      simp only [unpackFd_pack _ (htoken'.fd_lt.trans hsmall)] at hs
      exact hhole.handleRecv rfl htoken' hs
  | opSend =>
      obtain ⟨c, hhole, htoken⟩ := h.pop_transfer hcq (by simp [hop])
      have htoken' := (token_send_iff hop).mp htoken
      rw [hop] at hs
      simp only [unpackFd_pack _ (htoken'.fd_lt.trans hsmall)] at hs
      exact hhole.handleSend rfl htoken' hs

/-! ## The kernel completes a submission -/

/-- The completion of `e` has taken the place of `e` among the items. -/
def Posted (s s' : Server) (e : Sqe) (res : SysResult ℕ) : Prop :=
  ∃ t : Server, s.items = e.item ::ₘ t.items ∧ s'.items = Cqe.item ⟨e, res⟩ ::ₘ t.items

theorem posted_of_inflight {s s' : Server} {i : ℕ} {e : Sqe} {res : SysResult ℕ}
    (hi : s.inflight[i]? = some e) (hsq : s'.sq = s.sq)
    (hinflight : s'.inflight = s.inflight.eraseIdx i) (hcq : s'.cq = s.cq ++ [⟨e, res⟩]) :
    Posted s s' e res := by
  refine ⟨_, items_take hi, ?_⟩
  rw [← items_post]
  simp only [Server.items, hsq, hinflight, hcq]

theorem Posted.card_accepts {s s' : Server} {e : Sqe} {res : SysResult ℕ}
    (h : Posted s s' e res) : s'.accepts.card = s.accepts.card := by
  obtain ⟨t, hs, hs'⟩ := h
  by_cases hop : e.op = .opAccept
  · rw [accepts_cons_of_eq hs hop, accepts_cons_of_eq hs' hop, Multiset.card_cons,
      Multiset.card_cons]
  · rw [accepts_cons_of_ne hs hop, accepts_cons_of_ne hs' hop]

theorem Posted.userData {s s' : Server} {e : Sqe} {res : SysResult ℕ} (h : Posted s s' e res)
    (hdata : ∀ p ∈ s.items, p.1.userData = pack p.1.op p.1.fd) :
    ∀ p ∈ s'.items, p.1.userData = pack p.1.op p.1.fd := by
  obtain ⟨t, hs, hs'⟩ := h
  intro p hp
  rw [hs'] at hp
  rcases Multiset.mem_cons.mp hp with rfl | hp
  · exact hdata e.item (hs ▸ Multiset.mem_cons_self _ _)
  · exact hdata p (hs ▸ Multiset.mem_cons_of_mem hp)

theorem Posted.mem {s s' : Server} {e : Sqe} {res : SysResult ℕ} (h : Posted s s' e res) :
    e.item ∈ s.items := by
  obtain ⟨t, hs, _⟩ := h
  exact hs ▸ Multiset.mem_cons_self _ _

theorem Posted.ops_of_not {s s' : Server} {e : Sqe} {res : SysResult ℕ} {fd : ℕ}
    (h : Posted s s' e res) (hold : ¬Concerns fd e.item)
    (hnew : ¬Concerns fd (Cqe.item ⟨e, res⟩)) : s'.ops fd = s.ops fd := by
  obtain ⟨t, hs, hs'⟩ := h
  exact (ops_cons_of_not hs' hnew).trans (ops_cons_of_not hs hold).symm

theorem Posted.ops_transfer {s s' : Server} {e : Sqe} {res : SysResult ℕ}
    (h : Posted s s' e res) (hop : e.op ≠ .opAccept) (hops : s.ops e.fd = {e.item}) :
    s'.ops e.fd = {Cqe.item ⟨e, res⟩} := by
  obtain ⟨t, hs, hs'⟩ := h
  have hrest := ops_eq_zero_of_singleton hs ((concerns_transfer hop _).mpr rfl) hops
  rw [ops_cons_of_concerns hs' ((concerns_transfer hop _).mpr rfl), hrest]
  rfl

/-- The completion of a transfer moves bytes of its own connection only. -/
theorem Sound.post_transfer {cfg : Config} {s s' : Server} (h : Sound cfg none s) {e : Sqe}
    {res : SysResult ℕ} (hpost : Posted s s' e res) (hop : e.op ≠ .opAccept) {c : ℕ}
    (howner : s.descriptors.owner e.fd = some c) (hdesc : s'.descriptors = s.descriptors)
    (htable : s'.table = s.table) (hcopies : s'.copies = s.copies)
    (hiobufs : ∀ fd, fd ≠ e.fd → s'.iobufs fd = s.iobufs fd)
    (hdel : ∀ c', c' ≠ c → s'.delivered c' = s.delivered c')
    (hsent : ∀ c', c' ≠ c → s'.sent c' = s.sent c')
    (htoken : s'.token e.fd c (Cqe.item ⟨e, res⟩)) : Sound cfg none s' := by
  obtain ⟨c', howner', hres, hops, _⟩ :=
    h.token_of_mem hpost.mem ((concerns_transfer hop none).mpr rfl)
  refine ⟨?_, hpost.userData h.userData, ?_, ?_, ?_, ?_, ?_⟩
  · rw [hpost.card_accepts]
    exact h.accept
  · intro fd _
    by_cases hfd : fd = e.fd
    · rw [hfd]
      exact served_of_some (hdesc ▸ howner) hres (hpost.ops_transfer hop hops) htoken
    · apply (h.served fd (by simp)).congr
      have hnot : ∀ r, ¬Concerns fd (e, r) := fun r hc =>
        hfd ((concerns_transfer hop r).mp hc).symm
      have hother : ∀ c', s.descriptors.owner fd = some c' → c' ≠ c := fun c' hc' heq =>
        hfd (s.descriptors.owner_inj hc' (heq ▸ howner))
      exact ⟨hpost.ops_of_not (hnot _) (hnot _), by rw [hdesc], by rw [htable], hiobufs fd hfd,
        fun c' hc' => hdel c' (hother c' hc'), fun c' hc' => hsent c' (hother c' hc')⟩
  · rw [hcopies]
    exact h.copies
  · intro c' hc'
    rw [hdesc] at hc'
    have hne : c' ≠ c := fun heq => hc' e.fd (heq ▸ howner)
    rw [hdel c' hne, hsent c' hne]
    exact h.closed c' hc'
  · intro c' hc'
    rw [hdesc] at hc'
    have hlt := s.descriptors.owner_lt howner
    have hne : c' ≠ c := by omega
    rw [hdel c' hne, hsent c' hne]
    exact h.fresh c' hc'
  · rw [htable]
    exact h.capacity

theorem Sound.post_accept {cfg : Config} {s s' : Server} (h : Sound cfg none s) {e : Sqe} {fd : ℕ}
    (hpost : Posted s s' e (.ok fd)) (hop : e.op = .opAccept)
    (hnone : s.descriptors.owner fd = none) (hres : fd ∉ cfg.reserved)
    (hdesc : s'.descriptors = s.descriptors.accept fd) (htable : s'.table = s.table)
    (hcopies : s'.copies = s.copies) (hiobufs : s'.iobufs = s.iobufs)
    (hdel : s'.delivered = s.delivered) (hsent : s'.sent = s.sent) : Sound cfg none s' := by
  have hold := not_concerns_item hop
  refine ⟨?_, hpost.userData h.userData, ?_, ?_, ?_, ?_, ?_⟩
  · rw [hpost.card_accepts]
    exact h.accept
  · intro fd' _
    by_cases hfd : fd' = fd
    · subst hfd
      obtain ⟨t, hs, hs'⟩ := hpost
      have hzero := (h.served fd' (by simp)).ops_eq_zero hnone
      have hops : s'.ops fd' = {Cqe.item ⟨e, .ok fd'⟩} := by
        rw [ops_cons_of_concerns hs' ((concerns_accept hop _).mpr rfl),
          ← ops_cons_of_not hs (hold fd'), hzero]
        rfl
      have hempty := h.fresh s.descriptors.fresh le_rfl
      apply served_of_some (c := s.descriptors.fresh) (by simp [hdesc]) hres hops
      rw [← hdel, ← hsent] at hempty
      exact (token_accept_iff hop).mpr hempty
    · apply (h.served fd' (by simp)).congr
      have hnew : ¬Concerns fd' (Cqe.item ⟨e, .ok fd⟩) := by
        apply not_concerns_accept hop
        rintro ⟨⟩
        exact hfd rfl
      have howner : s'.descriptors.owner fd' = s.descriptors.owner fd' := by
        rw [hdesc]
        exact Descriptors.owner_accept_ne _ hfd
      exact ⟨hpost.ops_of_not (hold fd') hnew, howner, by rw [htable], by rw [hiobufs],
        fun _ _ => by rw [hdel], fun _ _ => by rw [hsent]⟩
  · rw [hcopies]
    exact h.copies
  · intro c hc
    rw [hdel, hsent]
    apply h.closed c
    intro fd' hown
    have hne : fd' ≠ fd := fun heq => by
      rw [heq, hnone] at hown
      cases hown
    apply hc fd'
    rw [hdesc, Descriptors.owner_accept_ne _ hne]
    exact hown
  · intro c hc
    rw [hdesc, Descriptors.fresh_accept] at hc
    rw [hdel, hsent]
    exact h.fresh c (by omega)
  · rw [htable]
    exact h.capacity

/-- An error leaves the streams as they are, whatever was submitted. -/
theorem Sound.post_error {cfg : Config} {s : Server} (h : Sound cfg none s) {i : ℕ} {e : Sqe}
    (hi : s.inflight[i]? = some e) (x : Errno) :
    Sound cfg none
      { s with inflight := s.inflight.eraseIdx i, cq := s.cq ++ [⟨e, .error x⟩] } := by
  have hpost : Posted s
      { s with inflight := s.inflight.eraseIdx i, cq := s.cq ++ [⟨e, .error x⟩] } e (.error x) :=
    posted_of_inflight hi rfl rfl rfl
  by_cases hop : e.op = .opAccept
  · refine ⟨?_, hpost.userData h.userData, ?_, h.copies, h.closed, h.fresh, h.capacity⟩
    · rw [hpost.card_accepts]
      exact h.accept
    · intro fd _
      apply (h.served fd (by simp)).congr
      have hnew : ¬Concerns fd (Cqe.item ⟨e, .error x⟩) := not_concerns_accept hop (by simp)
      exact ⟨hpost.ops_of_not (not_concerns_item hop fd) hnew, rfl, rfl, rfl, fun _ _ => rfl,
        fun _ _ => rfl⟩
  · obtain ⟨c, howner, _, _, htoken⟩ :=
      h.token_of_mem hpost.mem ((concerns_transfer hop none).mpr rfl)
    apply h.post_transfer hpost hop howner rfl rfl rfl (fun _ _ => rfl) (fun _ _ => rfl)
      (fun _ _ => rfl)
    cases hcase : e.op with
    | opAccept => exact absurd hcase hop
    | opRecv =>
        have hrecv := (token_recv_iff hcase).mp htoken
        exact (token_recv_iff hcase).mpr { hrecv with }
    | opSend =>
        have hsend := (token_send_iff hcase).mp htoken
        exact (token_send_iff hcase).mpr { hsend with }

theorem Sound.post_recv {cfg : Config} {s s' : Server} (h : Sound cfg none s) {i : ℕ} {e : Sqe}
    (hi : s.inflight[i]? = some e) {data : List UInt8}
    (hs : complete cfg { s with inflight := s.inflight.eraseIdx i } e (.recv (.ok data)) =
      some s') : Sound cfg none s' := by
  simp only [complete, Option.ite_none_right_eq_some] at hs
  obtain ⟨⟨hop, hlen⟩, hs⟩ := hs
  have hne : e.op ≠ .opAccept := by simp [hop]
  have hpost : Posted s s' e (.ok data.length) := by
    cases hs
    exact posted_of_inflight hi rfl rfl rfl
  obtain ⟨c, howner, _, _, htoken⟩ :=
    h.token_of_mem hpost.mem ((concerns_transfer hne none).mpr rfl)
  have htoken := (token_recv_iff hop).mp htoken
  have hrecord : record s.delivered e.conn data =
      Function.update s.delivered c (s.delivered c ++ data) := by rw [htoken.conn, record]
  cases hs
  apply h.post_transfer hpost hne howner rfl rfl rfl _ _ (fun _ _ => rfl) _
  · intro fd hfd
    exact Function.update_of_ne hfd _ _
  · intro c' hc'
    change record s.delivered e.conn data c' = _
    rw [hrecord]
    exact Function.update_of_ne hc' _ _
  · have hbuf : data.length ≤ iobufSize := hlen.trans htoken.len.le
    refine (token_recv_iff hop).mpr ?_
    simp only [hrecord, Function.update_self]
    exact { htoken with
      stream := ⟨hlen, s.delivered c, by rw [Buffer.slice_overwrite _ hbuf], htoken.stream⟩ }

theorem Sound.post_send {cfg : Config} {s s' : Server} (h : Sound cfg none s) {i : ℕ} {e : Sqe}
    (hi : s.inflight[i]? = some e) {n : ℕ}
    (hs : complete cfg { s with inflight := s.inflight.eraseIdx i } e (.send (.ok n)) =
      some s') : Sound cfg none s' := by
  simp only [complete, Option.ite_none_right_eq_some] at hs
  obtain ⟨⟨hop, hlen⟩, hs⟩ := hs
  have hne : e.op ≠ .opAccept := by simp [hop]
  have hpost : Posted s s' e (.ok n) := by
    cases hs
    exact posted_of_inflight hi rfl rfl rfl
  obtain ⟨c, howner, _, _, htoken⟩ :=
    h.token_of_mem hpost.mem ((concerns_transfer hne none).mpr rfl)
  have htoken := (token_send_iff hop).mp htoken
  -- What the kernel sends is a prefix of the copy, and the copy is what is pending.
  have hbytes : Buffer.slice (s.iobufs e.fd) 0 n = (s.table.peers e.fd).pending.take n := by
    rw [← htoken.copy, Buffer.take_slice _ (by omega), Nat.zero_add]
  have hrecord : record s.sent e.conn (Buffer.slice (s.iobufs e.fd) 0 n) =
      Function.update s.sent c (s.sent c ++ (s.table.peers e.fd).pending.take n) := by
    rw [htoken.conn, record, hbytes]
  cases hs
  apply h.post_transfer hpost hne howner rfl rfl rfl (fun _ _ => rfl) (fun _ _ => rfl) _ _
  · intro c' hc'
    change record s.sent e.conn _ c' = _
    rw [hrecord]
    exact Function.update_of_ne hc' _ _
  · refine (token_send_iff hop).mpr ?_
    simp only [hrecord, Function.update_self]
    exact { htoken with stream := ⟨hlen, s.sent c, rfl, htoken.stream⟩ }

theorem Sound.complete {cfg : Config} {s s' : Server} (h : Sound cfg none s) {i : ℕ} {e : Sqe}
    (hi : s.inflight[i]? = some e) {r : Completion}
    (hs : complete cfg { s with inflight := s.inflight.eraseIdx i } e r = some s') :
    Sound cfg none s' := by
  cases r with
  | accept r =>
      cases r with
      | error x =>
          cases hs
          exact h.post_error hi x
      | ok fd =>
          simp only [Uring.complete, Option.ite_none_right_eq_some] at hs
          obtain ⟨⟨hop, hnone, hres⟩, hs⟩ := hs
          cases hs
          exact h.post_accept (posted_of_inflight (s := s) hi rfl rfl rfl) hop hnone hres rfl rfl
            rfl rfl rfl rfl
  | recv r =>
      cases r with
      | error x =>
          cases hs
          exact h.post_error hi x
      | ok data => exact h.post_recv hi hs
  | send r =>
      cases r with
      | error x =>
          cases hs
          exact h.post_error hi x
      | ok n => exact h.post_send hi hs

/-! ## The loop -/

theorem Sound.congr_rings {cfg : Config} {s s' : Server} (h : Sound cfg none s)
    (hitems : s'.items = s.items) (hdesc : s'.descriptors = s.descriptors)
    (htable : s'.table = s.table) (hiobufs : s'.iobufs = s.iobufs)
    (hcopies : s'.copies = s.copies) (hdel : s'.delivered = s.delivered)
    (hsent : s'.sent = s.sent) : Sound cfg none s' := by
  refine ⟨?_, ?_, ?_, ?_, ?_, ?_, ?_⟩
  · rw [Server.accepts, hitems]
    exact h.accept
  · rw [hitems]
    exact h.userData
  · intro fd hne
    apply (h.served fd hne).congr
    exact ⟨ops_congr hitems fd, by rw [hdesc], by rw [htable], by rw [hiobufs],
      fun _ _ => by rw [hdel], fun _ _ => by rw [hsent]⟩
  · rw [hcopies]
    exact h.copies
  · rw [hdesc, hdel, hsent]
    exact h.closed
  · rw [hdesc, hdel, hsent]
    exact h.fresh
  · rw [htable]
    exact h.capacity

theorem Sound.step {cfg : Config} {s : Server} {l : Label} {s' : Server} (h : Sound cfg none s)
    (hs : Server.step cfg s l = some (.running s')) : Sound cfg none s' := by
  cases l with
  | submit k =>
      simp only [Server.step, Option.ite_none_right_eq_some] at hs
      obtain ⟨_, hs⟩ := hs
      cases hs
      exact h.congr_rings (items_submit s k) rfl rfl rfl rfl rfl rfl
  | wait r =>
      simp only [Server.step, Option.ite_none_right_eq_some] at hs
      obtain ⟨_, hs⟩ := hs
      cases r with
      | ok _ =>
          simp only [Option.ite_none_left_eq_some] at hs
          obtain ⟨_, hs⟩ := hs
          cases hs
          exact h.congr_rings rfl rfl rfl rfl rfl rfl rfl
      | error e =>
          by_cases he : e = .eintr
          · simp only [he] at hs
            cases hs
            exact h.congr_rings rfl rfl rfl rfl rfl rfl rfl
          · simp [he] at hs
  | post i r =>
      cases hi : s.inflight[i]? with
      | none => simp [Server.step, hi] at hs
      | some e =>
          simp only [Server.step, hi, Option.map_eq_some_iff, Process.running.injEq] at hs
          obtain ⟨t, hs, rfl⟩ := hs
          exact h.complete hi hs
  | handle k₁ k₂ =>
      simp only [Server.step, Option.ite_none_right_eq_some] at hs
      obtain ⟨_, hs⟩ := hs
      cases hcq : s.cq with
      | nil => simp [hcq] at hs
      | cons q cq =>
          simp only [hcq, Option.some.injEq] at hs
          exact h.handle hcq hs
  | advance =>
      simp only [Server.step, Option.ite_none_right_eq_some] at hs
      obtain ⟨_, hs⟩ := hs
      cases hs
      exact h.congr_rings rfl rfl rfl rfl rfl rfl rfl

theorem sound_start (cfg : Config) : Sound cfg none (Server.start cfg) := by
  have hitems : (Server.start cfg).items = {(acceptSqe cfg).item} := by
    simp [Server.items, Server.start]
  refine ⟨?_, ?_, ?_, ?_, ?_, ?_, rfl⟩
  · rw [Server.accepts, hitems]
    rfl
  · intro p hp
    rw [hitems, Multiset.mem_singleton] at hp
    rw [hp]
    rfl
  · intro fd _
    apply served_of_none rfl
    rw [Server.ops, hitems, Multiset.filter_singleton, if_neg]
    · rfl
    · exact not_concerns_item rfl fd
  · intro w hw
    simp [Server.start] at hw
  · intro c _
    exact List.nil_prefix
  · intro c _
    exact ⟨rfl, rfl⟩

theorem reachable_sound {cfg : Config} {s : Server} (h : (server cfg).Reachable (.running s)) :
    Sound cfg none s := by
  apply Process.machine_invariant _ _ h
  · intro s hs
    rw [hs]
    exact sound_start cfg
  · intro s l s' hsound hs
    exact hsound.step hs

end ConcurrentServers.Uring

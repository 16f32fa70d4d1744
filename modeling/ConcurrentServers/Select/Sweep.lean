import ConcurrentServers.Select.Masters

/-!
# What every sweep of the select server guarantees

During a sweep the bits from the current index on still belong to the
connections that they were reported for, and `nready` is their number. So the
loop goes on as long as one of them is left, and a connection accepted on a
number that was released behind the index is not visited.
-/

namespace ConcurrentServers.Select

open Systems

/-! ## Bits that are left -/

/-- The number of bits from an index on. -/
def bitsFrom (fds : Finset ℕ) (fd : ℕ) : ℕ := (fds.filter (fd ≤ ·)).card

theorem bitsFrom_zero (fds : Finset ℕ) : bitsFrom fds 0 = fds.card := by
  simp [bitsFrom]

theorem bitsFrom_pos_iff (fds : Finset ℕ) (fd : ℕ) :
    0 < bitsFrom fds fd ↔ ∃ fd', fd ≤ fd' ∧ fd' ∈ fds := by
  rw [bitsFrom, Finset.card_pos]
  constructor
  · rintro ⟨fd', hmem⟩
    obtain ⟨hmem, hle⟩ := Finset.mem_filter.mp hmem
    exact ⟨fd', hle, hmem⟩
  · rintro ⟨fd', hle, hmem⟩
    exact ⟨fd', Finset.mem_filter.mpr ⟨hmem, hle⟩⟩

theorem bitsFrom_succ_of_notMem {fds : Finset ℕ} {fd : ℕ} (hmem : fd ∉ fds) :
    bitsFrom fds (fd + 1) = bitsFrom fds fd := by
  refine congrArg Finset.card (Finset.filter_congr fun fd' hfd' => ?_)
  have hne : fd' ≠ fd := fun heq => hmem (heq ▸ hfd')
  omega

theorem bitsFrom_succ_of_mem {fds : Finset ℕ} {fd : ℕ} (hmem : fd ∈ fds) :
    bitsFrom fds (fd + 1) + 1 = bitsFrom fds fd := by
  have hsplit : fds.filter (fd ≤ ·) = insert fd (fds.filter (fd + 1 ≤ ·)) := by
    ext fd'
    simp only [Finset.mem_filter, Finset.mem_insert]
    constructor
    · rintro ⟨hfd', hle⟩
      rcases eq_or_lt_of_le hle with heq | hlt
      · exact Or.inl heq.symm
      · exact Or.inr ⟨hfd', hlt⟩
    · rintro (heq | ⟨hfd', hle⟩)
      · rw [heq]
        exact ⟨hmem, le_rfl⟩
      · exact ⟨hfd', by omega⟩
  rw [bitsFrom, bitsFrom, hsplit, Finset.card_insert_of_notMem (by simp)]

/-! ## One iteration -/

/-- The bits that `select` left in one of the two sets. -/
def Sweep.bits (v : Sweep) (write : Bool) : Finset ℕ := if write then v.writefds else v.readfds

/-- How often a bit was serviced. -/
def Sweep.times (v : Sweep) (write : Bool) (fd : ℕ) : ℕ :=
  v.serviced.countP fun r => r.fd = fd ∧ r.write = write

variable {cfg : Config} {s s' : Server} {v v' : Sweep} {o : Outcome}

/-- What the current index has in the two sets decides what an iteration
services. -/
inductive Services (v : Sweep) (s : Server) : Sweep → Prop where
  | nothing (hbits : ∀ write, v.fd ∉ v.bits write) : Services v s v
  | bit (write : Bool) (hbit : v.fd ∈ v.bits write) (hother : v.fd ∉ v.bits !write) :
      Services v s (v.service s write)

/-- What is left of a sweep, and what has been done in it. -/
structure Sweeping (cfg : Config) (s : Server) (v : Sweep) : Prop where
  mem_master : ∀ write fd, v.fd ≤ fd → fd ∈ v.bits write → fd ∈ s.master write
  owner : ∀ write fd, v.fd ≤ fd → fd ∈ v.bits write → s.descriptors.owner fd = v.owners fd
  owners_lt : ∀ fd c, v.owners fd = some c → c < v.fresh
  fresh_le : v.fresh ≤ s.descriptors.fresh
  accepted : ∀ fd c, s.descriptors.owner fd = some c → v.owners fd = some c ∨ v.fresh ≤ c
  nready : v.nready = bitsFrom (v.bits false) v.fd + bitsFrom (v.bits true) v.fd
  times : ∀ write fd, v.times write fd = if fd < v.fd ∧ fd ∈ v.bits write then 1 else 0
  serviced : ∀ r ∈ v.serviced, r.conn = v.owners r.fd ∧
    (r.fd = cfg.listener ∧ r.write = false ∨ r.conn ≠ none)

/-- The two sets of a sweep are disjoint, as the master sets are. -/
theorem Sweeping.notMem_other (hv : Sweeping cfg s v) (h : Valid cfg s) {write : Bool}
    (hbit : v.fd ∈ v.bits write) : v.fd ∉ v.bits !write := by
  intro hother
  exact h.notMem_other (hv.mem_master write _ le_rfl hbit) (hv.mem_master _ _ le_rfl hother)

theorem readPart_follows (h : Valid cfg s) (hmaster : v.fd ∈ s.master false)
    (hbit : v.fd ∈ v.readfds) {closed : Bool}
    (hs : readPart cfg o v s = some (.running (s', v', closed))) :
    v' = v.service s false ∧
      ∃ t, (∀ fd, t = some fd → fd = v.fd) ∧ Follows cfg t s s' := by
  unfold readPart at hs
  rw [if_pos hbit] at hs
  split at hs
  · obtain ⟨p, haccept, hs⟩ := Option.map_eq_some_iff.mp hs
    obtain ⟨s₁, rfl, hs⟩ := Process.andThen_eq_running hs
    cases hs
    exact ⟨rfl, none, nofun, acceptPeer_follows h haccept⟩
  · next hne =>
      simp only [Option.ite_none_right_eq_some, Option.some.injEq, Process.running.injEq,
        Prod.mk.injEq] at hs
      obtain ⟨hallows, rfl, rfl, _⟩ := hs
      refine ⟨rfl, some v.fd, fun fd heq => (Option.some.inj heq).symm, ?_⟩
      have hinterest := toLoop_interest_mem hne hmaster
      exact .applyStatus hne rfl le_rfl (h.master_le _ _ hmaster)
        (.recv hinterest (decide_eq_true hmaster) hallows)

theorem writePart_follows (h : Valid cfg s) (hmaster : v.fd ∈ s.master true) :
    Follows cfg (some v.fd) s (applyStatus v.fd (peerOnReadySend s.table v.fd o.send) s) := by
  have hne : v.fd ≠ cfg.listener := by
    intro heq
    rw [heq, h.listener_mem] at hmaster
    cases hmaster
  have hinterest := toLoop_interest_mem hne hmaster
  exact .applyStatus hne rfl le_rfl (h.master_le _ _ hmaster)
    (.send hinterest (decide_eq_true hmaster) o.send)

theorem visit_running (h : Valid cfg s) (hv : Sweeping cfg s v)
    (hs : visit cfg o v s = some (.running s')) :
    ∃ s₁ v₁ t, (∀ fd, t = some fd → fd = v.fd) ∧ Follows cfg t s s₁ ∧ Services v s v₁ ∧
      s' = { s₁ with sweep := some { v₁ with fd := v.fd + 1 } } := by
  unfold visit at hs
  obtain ⟨p, hp, hs⟩ := Option.map_eq_some_iff.mp hs
  obtain ⟨⟨s₁, v₁, closed⟩, rfl, hrest⟩ := Process.andThen_eq_running hs
  by_cases hread : v.fd ∈ v.readfds
  · -- The other set cannot have the bit as well, so the second `if` is skipped
    -- whether or not the descriptor was closed.
    have hbit : v.fd ∈ v.bits false := hread
    have hother : v.fd ∉ v.writefds := hv.notMem_other h hbit
    obtain ⟨rfl, t, ht, hfollows⟩ :=
      readPart_follows h (hv.mem_master false _ le_rfl hbit) hread hp
    have hskip : writePart o (v.service s false) closed s₁ = (s₁, v.service s false) :=
      if_neg (by simp [Sweep.service, hother])
    simp only [hskip, Process.running.injEq] at hrest
    exact ⟨s₁, _, t, ht, hfollows, .bit false hbit hother, hrest.symm⟩
  · rw [readPart, if_neg hread] at hp
    cases hp
    by_cases hwrite : v.fd ∈ v.writefds
    · have hmaster := hv.mem_master true _ le_rfl hwrite
      have hsend : writePart o v false s =
          (applyStatus v.fd (peerOnReadySend s.table v.fd o.send) s, v.service s true) :=
        if_pos (by simp [hwrite])
      simp only [hsend, Process.running.injEq] at hrest
      exact ⟨_, _, some v.fd, fun fd heq => (Option.some.inj heq).symm,
        writePart_follows h hmaster, .bit true hwrite hread, hrest.symm⟩
    · have hskip : writePart o v false s = (s, v) := if_neg (by simp [hwrite])
      simp only [hskip, Process.running.injEq] at hrest
      refine ⟨s, v, none, nofun, .idle cfg none s, .nothing ?_, hrest.symm⟩
      intro write
      cases write with
      | false => exact hread
      | true => exact hwrite

/-! ## The invariant of the sweep -/

/-- The bits behind the index keep their connections while the bit at the index
is serviced. -/
theorem Sweeping.frame (hv : Sweeping cfg s v) (h : Valid cfg s) {t : Option ℕ}
    (hs : Follows cfg t s s') (ht : ∀ fd, t = some fd → fd = v.fd) {write : Bool} {fd : ℕ}
    (hlt : v.fd < fd) (hbit : fd ∈ v.bits write) :
    fd ∈ s'.master write ∧ s'.descriptors.owner fd = v.owners fd := by
  have hmem := hv.mem_master write fd hlt.le hbit
  have howner := hv.owner write fd hlt.le hbit
  by_cases hne : fd = cfg.listener
  · subst hne
    refine ⟨(hs.listener write).mpr hmem, ?_⟩
    rw [(h.follows hs).owner_listener, ← howner, h.owner_listener]
  · have hopen := h.owner_ne_none hne hmem
    have ht' : t ≠ some fd := fun heq => hlt.ne' (ht fd heq)
    refine ⟨(hs.mem_master_iff hne hopen ht' write).mpr hmem, ?_⟩
    exact (hs.loop.frame hopen ht').1.trans howner

theorem times_service (v : Sweep) (s : Server) (write write' : Bool) (fd : ℕ) :
    (v.service s write).times write' fd =
      v.times write' fd + if v.fd = fd ∧ write = write' then 1 else 0 := by
  simp [Sweep.times, Sweep.service, List.countP_append, List.countP_singleton]

/-- `nready` after an iteration counts the bits that are left. -/
theorem Services.nready (hserv : Services v s v')
    (hnready : v.nready = bitsFrom (v.bits false) v.fd + bitsFrom (v.bits true) v.fd) :
    v'.nready = bitsFrom (v.bits false) (v.fd + 1) + bitsFrom (v.bits true) (v.fd + 1) := by
  cases hserv with
  | nothing hbits =>
      rw [hnready, bitsFrom_succ_of_notMem (hbits false), bitsFrom_succ_of_notMem (hbits true)]
  | bit write hbit hother =>
      have hone := bitsFrom_succ_of_mem hbit
      have hsame := bitsFrom_succ_of_notMem hother
      have hcount : (v.service s write).nready = v.nready - 1 := rfl
      cases write with
      | false =>
          rw [Bool.not_false] at hsame
          omega
      | true =>
          rw [Bool.not_true] at hsame
          omega

/-- An iteration services the bits at the index and no others. -/
theorem Services.times (hserv : Services v s v')
    (htimes : ∀ write fd, v.times write fd = if fd < v.fd ∧ fd ∈ v.bits write then 1 else 0)
    (write : Bool) (fd : ℕ) :
    v'.times write fd = if fd < v.fd + 1 ∧ fd ∈ v.bits write then 1 else 0 := by
  cases hserv with
  | nothing hbits =>
      rw [htimes]
      have hiff : fd < v.fd ∧ fd ∈ v.bits write ↔ fd < v.fd + 1 ∧ fd ∈ v.bits write := by
        refine and_congr_left fun hmem => ?_
        have hne : fd ≠ v.fd := fun heq => hbits write (heq ▸ hmem)
        omega
      simp only [hiff]
  | bit write' hbit hother =>
      rw [times_service, htimes]
      by_cases hfd : fd = v.fd
      · subst hfd
        by_cases hwrite : write' = write
        · subst hwrite
          simp [hbit]
        · have hnot : (!write') = write := by
            cases write' <;> cases write <;> simp_all
          rw [hnot] at hother
          simp [hwrite, hother]
      · have hiff : fd < v.fd ↔ fd < v.fd + 1 := by omega
        simp [Ne.symm hfd, hiff]

/-- The bit at the index still belongs to the connection it was reported for. -/
theorem Services.serviced (hserv : Services v s v') (h : Valid cfg s) (hv : Sweeping cfg s v) :
    ∀ r ∈ v'.serviced, r.conn = v.owners r.fd ∧
      (r.fd = cfg.listener ∧ r.write = false ∨ r.conn ≠ none) := by
  cases hserv with
  | nothing hbits => exact hv.serviced
  | bit write hbit hother =>
      intro r hr
      rcases List.mem_append.mp hr with hr | hr
      · exact hv.serviced r hr
      · rw [List.mem_singleton.mp hr]
        have hmem := hv.mem_master write v.fd le_rfl hbit
        refine ⟨hv.owner write v.fd le_rfl hbit, ?_⟩
        by_cases hne : v.fd = cfg.listener
        · rw [hne] at hmem
          exact Or.inl ⟨hne, (h.listener_mem write).mp hmem⟩
        · exact Or.inr (h.owner_ne_none hne hmem)

theorem Services.bits_eq (hserv : Services v s v') :
    v'.bits = v.bits ∧ v'.owners = v.owners ∧ v'.fresh = v.fresh := by
  cases hserv <;> exact ⟨rfl, rfl, rfl⟩

theorem Sweeping.advance (hv : Sweeping cfg s v) (h : Valid cfg s) {t : Option ℕ}
    (hs : Follows cfg t s s') (ht : ∀ fd, t = some fd → fd = v.fd) (hserv : Services v s v') :
    Sweeping cfg s' { v' with fd := v.fd + 1 } := by
  have hframe : ∀ write fd, v.fd + 1 ≤ fd → fd ∈ v.bits write →
      fd ∈ s'.master write ∧ s'.descriptors.owner fd = v.owners fd :=
    fun write fd hle hbit => hv.frame h hs ht hle hbit
  have hnready := hserv.nready hv.nready
  have htimes := hserv.times hv.times
  have hserviced := hserv.serviced h hv
  obtain ⟨hbits, howners, hfresh⟩ := hserv.bits_eq
  rw [← hbits] at hframe hnready htimes
  rw [← howners] at hframe hserviced
  obtain ⟨hfresh_le, haccepted⟩ := hs.loop.fresh
  refine ⟨?_, ?_, ?_, ?_, ?_, hnready, htimes, hserviced⟩
  · exact fun write fd hle hbit => (hframe write fd hle hbit).1
  · exact fun write fd hle hbit => (hframe write fd hle hbit).2
  · intro fd c hc
    rw [howners] at hc
    exact hfresh ▸ hv.owners_lt fd c hc
  · exact hfresh ▸ hv.fresh_le.trans hfresh_le
  · intro fd c hc
    rcases haccepted fd c hc with hold | hnew
    · exact howners ▸ hfresh ▸ hv.accepted fd c hold
    · exact Or.inr (hfresh ▸ hv.fresh_le.trans hnew)

theorem sweeping_select {readfds writefds : Finset ℕ}
    (hread : readfds ⊆ s.readfdsMaster) (hwrite : writefds ⊆ s.writefdsMaster) :
    Sweeping cfg s {
      fd := 0
      readfds := readfds
      writefds := writefds
      nready := readfds.card + writefds.card
      owners := s.descriptors.owner
      fresh := s.descriptors.fresh
      serviced := [] } := by
  refine ⟨?_, fun _ _ _ _ => rfl, fun _ _ => s.descriptors.owner_lt, le_rfl,
    fun _ _ => Or.inl, ?_, ?_, nofun⟩
  · intro write fd _ hbit
    cases write with
    | false => exact hread hbit
    | true => exact hwrite hbit
  · change _ = ((bitsFrom readfds 0 : ℕ) : ℤ) + (bitsFrom writefds 0 : ℕ)
    rw [bitsFrom_zero, bitsFrom_zero]
  · intro write fd
    simp [Sweep.times]

/-- The loop goes on exactly as long as a bit is left. -/
theorem Sweeping.sweeps_iff (hv : Sweeping cfg s v) (h : Valid cfg s) :
    s.sweeps v ↔ ∃ write fd, v.fd ≤ fd ∧ fd ∈ v.bits write := by
  have hnready := hv.nready
  constructor
  · rintro ⟨_, hpos⟩
    have hleft : 0 < bitsFrom (v.bits false) v.fd ∨ 0 < bitsFrom (v.bits true) v.fd := by omega
    rcases hleft with hleft | hleft
    · exact ⟨false, (bitsFrom_pos_iff _ _).mp hleft⟩
    · exact ⟨true, (bitsFrom_pos_iff _ _).mp hleft⟩
  · rintro ⟨write, fd, hle, hbit⟩
    have hmax := h.master_le write fd (hv.mem_master write fd hle hbit)
    have hpos := (bitsFrom_pos_iff (v.bits write) v.fd).mpr ⟨fd, hle, hbit⟩
    refine ⟨hle.trans hmax, ?_⟩
    cases write <;> omega

structure Invariant (cfg : Config) (s : Server) : Prop where
  valid : Valid cfg s
  sweeping : ∀ v, s.sweep = some v → Sweeping cfg s v

theorem Invariant.step (h : Invariant cfg s) {l : Label}
    (hs : s.step cfg l = some (.running s')) : Invariant cfg s' := by
  obtain ⟨⟨hsound, hcapacity, hlistener, hmax⟩, hsweeping⟩ := h
  cases l with
  | select r =>
      simp only [Server.step] at hs
      split at hs
      · cases hs
      · split at hs
        · cases hs
          exact ⟨⟨hsound, hcapacity, hlistener, hmax⟩, hsweeping⟩
        · cases hs
      · simp only [Option.ite_none_right_eq_some, Option.some.injEq, Process.running.injEq] at hs
        obtain ⟨⟨hread, hwrite⟩, rfl⟩ := hs
        refine ⟨⟨hsound, hcapacity, hlistener, hmax⟩, ?_⟩
        rintro v ⟨⟩
        exact sweeping_select hread hwrite
  | visit o =>
      simp only [Server.step] at hs
      split at hs
      · next v hsweep =>
          simp only [Option.ite_none_right_eq_some] at hs
          have hv := hsweeping v hsweep
          have hvalid : Valid cfg s := ⟨hsound, hcapacity, hlistener, hmax⟩
          obtain ⟨s₁, v₁, t, ht, hfollows, hserv, rfl⟩ := visit_running hvalid hv hs.2
          obtain ⟨hsound', hcapacity', hlistener', hmax'⟩ := hvalid.follows hfollows
          obtain ⟨hmem, howner, hlt, hle, haccepted, hnready, htimes, hserviced⟩ :=
            hv.advance hvalid hfollows ht hserv
          refine ⟨⟨hsound', hcapacity', hlistener', hmax'⟩, ?_⟩
          rintro v ⟨⟩
          exact ⟨hmem, howner, hlt, hle, haccepted, hnready, htimes, hserviced⟩
      · cases hs
  | finish =>
      simp only [Server.step] at hs
      split at hs
      · split at hs
        · cases hs
        · cases hs
          exact ⟨⟨hsound, hcapacity, hlistener, hmax⟩, nofun⟩
      · cases hs

theorem invariant_start (cfg : Config) : Invariant cfg (Server.start cfg) := by
  refine ⟨⟨⟨?_, fun _ _ _ => rfl, rfl⟩, rfl, ?_, ?_⟩, nofun⟩
  · intro fd status _ hstatus
    by_cases hfd : fd = cfg.listener <;>
      simp [Server.toLoop, Server.start, watchedFor, hfd] at hstatus
  · intro write
    cases write <;> simp [Server.master, Server.start]
  · intro write fd hmem
    cases write with
    | false => exact (Finset.mem_singleton.mp hmem).le
    | true => cases hmem

theorem reachable_invariant (h : (server cfg).Reachable (.running s)) : Invariant cfg s := by
  apply Process.machine_invariant _ _ h
  · rintro _ rfl
    exact invariant_start cfg
  · intro s l s' hinv hs
    exact hinv.step hs

/-! ## Main result -/

/-- In every sweep, the bits below the index have been serviced once and nothing
else has. The loop goes on exactly as long as a bit is left, and every iteration
advances the index, so that the loop ends with every bit serviced once. Every
service is of the connection that the bit was reported for: of the listener, by
`accept`, or of one that is open and was accepted before `select` returned. The
connections accepted since are numbered from `fresh` on. -/
theorem sweep_services_every_bit_once (h : (server cfg).Reachable (.running s))
    (hsweep : s.sweep = some v) :
    (∀ write fd, v.times write fd = if fd < v.fd ∧ fd ∈ v.bits write then 1 else 0) ∧
    (s.sweeps v ↔ ∃ write fd, v.fd ≤ fd ∧ fd ∈ v.bits write) ∧
    (∀ o s', s.step cfg (.visit o) = some (.running s') → ∃ v', s'.sweep = some v' ∧
      v'.fd = v.fd + 1 ∧ v'.bits = v.bits ∧ v'.owners = v.owners ∧ v'.fresh = v.fresh) ∧
    (¬ s.sweeps v → ∀ write fd, v.times write fd = if fd ∈ v.bits write then 1 else 0) ∧
    (∀ r ∈ v.serviced, r.conn = v.owners r.fd ∧
      (r.fd = cfg.listener ∧ r.write = false ∨ ∃ c, r.conn = some c ∧ c < v.fresh)) ∧
    ∀ fd c, s.descriptors.owner fd = some c → v.owners fd = some c ∨ v.fresh ≤ c := by
  obtain ⟨hvalid, hsweeping⟩ := reachable_invariant h
  have hv := hsweeping v hsweep
  have hiff := hv.sweeps_iff hvalid
  refine ⟨hv.times, hiff, ?_, ?_, ?_, hv.accepted⟩
  · intro o s' hs
    simp only [Server.step, hsweep, Option.ite_none_right_eq_some] at hs
    obtain ⟨s₁, v₁, t, _, _, hserv, rfl⟩ := visit_running hvalid hv hs.2
    exact ⟨_, rfl, rfl, hserv.bits_eq⟩
  · intro hend write fd
    have hbelow : fd < v.fd ∧ fd ∈ v.bits write ↔ fd ∈ v.bits write := by
      refine and_iff_right_of_imp fun hbit => ?_
      by_contra hle
      exact hend (hiff.mpr ⟨write, fd, not_lt.mp hle, hbit⟩)
    rw [hv.times]
    simp only [hbelow]
  · intro r hr
    obtain ⟨hconn, hlistener | hopen⟩ := hv.serviced r hr
    · exact ⟨hconn, Or.inl hlistener⟩
    · obtain ⟨c, hc⟩ := Option.ne_none_iff_exists'.mp hopen
      exact ⟨hconn, Or.inr ⟨c, hc, hv.owners_lt r.fd c (hconn ▸ hc)⟩⟩

theorem reachable_of_labels (cfg : Config) {p : Process Server} (labels : List Label)
    (h : (server cfg).run (.running (.start cfg)) labels = some p) : (server cfg).Reachable p :=
  Machine.reachable_of_run labels ⟨_, rfl, rfl⟩ h

/-- The listener has a number between those of its connections. -/
def smallConfig : Config := ⟨1, [1], by decide, by decide⟩

/-- An iteration in which `accept` would return this number, `recv` the end of
the stream, and `send` would take one byte. -/
def iteration (fd : ℕ) : Label := .visit ⟨.ok fd, .ok (), .ok [], .ok 1⟩

/-- Connections arrive as descriptors 0 and 2. In the last sweep 0 is closed, the
listener behind it accepts a new connection as 0, and 2 is sent its greeting. -/
def reusedNumber : List Label :=
  [.select (.ok ({1}, ∅)), iteration 0, iteration 0, .finish,
    .select (.ok ({1}, {0})), iteration 2, iteration 2, .finish,
    .select (.ok ({0, 1}, {2})), iteration 0, iteration 0, iteration 0]

theorem sweep_services_every_bit_once_reusedNumber :
    ∃ s v, (server smallConfig).run (.running (.start smallConfig)) reusedNumber =
        some (.running s) ∧ s.sweep = some v ∧
      v.serviced.map Service.conn = [some 0, none, some 1] ∧ s.descriptors.owner 0 = some 2 ∧
      ∀ write fd, v.times write fd = if fd ∈ v.bits write then 1 else 0 := by
  refine ⟨_, _, rfl, rfl, rfl, rfl, ?_⟩
  have hsweep := sweep_services_every_bit_once
    (reachable_of_labels smallConfig reusedNumber rfl) rfl
  exact hsweep.2.2.2.1 (by decide)

end ConcurrentServers.Select

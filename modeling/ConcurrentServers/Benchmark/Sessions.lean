import ConcurrentServers.Benchmark.Model

/-!
# The parts of the system

Each of the two programs runs as it does on its own, and each client with the call
for it is a session of `Exchange`. What was proved of them holds here, together
with the numbers that tie the clients to the connections of the server.
-/

namespace ConcurrentServers.Benchmark

open Systems
open Loadgen (Args Conn)
open Protocol (Connection)
open ThreadPool (Config Serving)
open Exchange (exchange clientPuts clientGets serverPuts serverGets)

variable {args : Args} {cfg : Config} {net : Network} {b b' : Bench args cfg}

/-! ## Steps of a session -/

section Session

variable {job : Loadgen.Job} {rooms : Exchange.Rooms} {x : Exchange.Session}

/-- A step of the client without any bytes. -/
theorem run_quiet {a : Loadgen.Answer} {c : Conn} (hpermits : x.clientPermits rooms a = true)
    (hputs : clientPuts x.client a = []) (hgets : clientGets a = [])
    (hc : job.step x.client a = some c) :
    (exchange job rooms).run x [.client a] = some { x with client := c } := by
  have hafter : x.afterClient a c = { x with client := c } := by
    unfold Exchange.Session.afterClient
    rw [hputs, hgets, List.append_nil]
    rfl
  rw [← hafter]
  exact Machine.run_singleton (M := exchange job rooms) (Exchange.clientStep_of hpermits hc)

/-- A client at the barrier is left alone or released. -/
theorem settle_conns {s : Loadgen.State args} {i : Fin args.connections} {c : Conn}
    (hc : s.conns i = c) :
    s.settle.conns i = c ∨ args.step c .release = some (s.settle.conns i) := by
  subst hc
  rcases Loadgen.settle_cases s with ⟨-, hsettle⟩ | ⟨-, hall, hsettle⟩
  · left
    rw [hsettle]
  · right
    have hi := hall i
    rw [hsettle, Loadgen.State.release]
    cases hc : (s.conns i).control with
    | waiting fd => simp [Loadgen.Job.step, hc]
    | _ => simp [hc, Loadgen.Control.waits] at hi

/-- What the main thread does is seen by a client as its start, its release, or not at all. -/
theorem main_conns {s t : Loadgen.State args} {l : Loadgen.Label args}
    (hmove : Loadgen.MainMoves s s.main l t) (i : Fin args.connections) :
    t.conns i = s.conns i ∨ args.step (s.conns i) .start = some (t.conns i) ∨
      args.step (s.conns i) .release = some (t.conns i) := by
  generalize s.main = m at hmove
  cases hmove with
  | @creates k c hk hc =>
      by_cases hi : i = ⟨k, hk⟩
      · subst hi
        have hnext : Function.update s.conns ⟨k, hk⟩ c ⟨k, hk⟩ = c := Function.update_self _ _ _
        exact Or.inr (Or.inl (hc.trans (congrArg some hnext.symm)))
      · left
        exact Function.update_of_ne hi _ _
  | standsIn hi => exact (settle_conns rfl).imp_right Or.inr
  | arrives => exact (settle_conns rfl).imp_right Or.inr
  | _ => exact Or.inl rfl

/-- A thread moves, and if it is the last one to arrive at the barrier all are released. -/
theorem thread_conns {s t : Loadgen.State args} {i : Fin args.connections} {a : Loadgen.Answer}
    (hs : s.step (.thread i a) = some t) :
    ∃ c, args.step (s.conns i) a = some c ∧
      (t.conns i = c ∨ args.step c .release = some (t.conns i)) ∧
      ∀ j, j ≠ i → t.conns j = s.conns j ∨ args.step (s.conns j) .release = some (t.conns j) := by
  cases a with
  | start | release => cases hs
  | arrive =>
      obtain ⟨u, hu, rfl⟩ := Option.map_eq_some_iff.mp hs
      obtain ⟨c, hc, rfl⟩ := Option.map_eq_some_iff.mp hu
      exact ⟨c, hc, settle_conns (Function.update_self _ _ _),
        fun j hj => settle_conns (Function.update_of_ne hj _ _)⟩
  | connect | proceed | recv | send =>
      obtain ⟨c, hc, rfl⟩ := Option.map_eq_some_iff.mp hs
      exact ⟨c, hc, Or.inl (Function.update_self _ _ _),
        fun j hj => Or.inl (Function.update_of_ne hj _ _)⟩

theorem connected_step {c c' : Conn} {a : Loadgen.Answer} (hs : job.step c a = some c')
    (ha : connects a = false) : c'.connected = c.connected := by
  have hadvances := Loadgen.advances_of_step hs
  generalize c.control = k at hadvances
  cases hadvances with
  | connects => cases ha
  | _ => rfl

theorem connects_step {c c' : Conn} {a : Loadgen.Answer} (hs : job.step c a = some c')
    (ha : connects a = true) : c.control = .connecting ∧
      ∃ addresses, a = .connect addresses ∧
        c'.connected = (Loadgen.connectTo addresses).isSome := by
  have hadvances := Loadgen.advances_of_step hs
  generalize c.control = k at hadvances
  cases hadvances with
  | connects => exact ⟨rfl, _, rfl, rfl⟩
  | _ => cases ha

/-- A client that is released, or not. -/
theorem reachable_release {c : Conn} (h : (exchange job rooms).Reachable x)
    (hc : c = x.client ∨ job.step x.client .release = some c) :
    (exchange job rooms).Reachable { x with client := c } := by
  rcases hc with rfl | hc
  · exact h
  · exact h.run (run_quiet rfl rfl rfl hc)

end Session

/-! ## The numbers -/

/-- The clients of the connections that the server has accepted, and those in the backlog. -/
structure Linked (b : Bench args cfg) : Prop where
  connected : ∀ i, (b.loadgen.conns i).connected = true ↔ i ∈ b.backlog ∨ b.number i ≠ none
  unnumbered : ∀ i ∈ b.backlog, b.number i = none
  nodup : b.backlog.Nodup
  inj : ∀ {i j c}, b.number i = some c → b.number j = some c → i = j
  lt : ∀ {i c}, b.number i = some c → c < b.server.pool.descriptors.fresh
  surj : ∀ c < b.server.pool.descriptors.fresh, ∃ i, b.number i = some c

structure Bench.Sound (net : Network) (b : Bench args cfg) : Prop where
  loadgen : (Loadgen.loadgen args).Reachable b.loadgen
  started : b.loadgen.OnTheWay
  server : (ThreadPool.serving cfg).Reachable (.running b.server)
  stays : b.server.pool.Stays
  room : b.backlog.length ≤ net.backlog
  linked : Linked b
  sessions : ∀ i, (exchange args.toJob net.toRooms).Reachable (b.session i)

theorem Bench.Sound.pool (h : b.Sound net) :
    (ThreadPool.pool cfg).Reachable (.running b.server.pool) :=
  (ThreadPool.serving_refines_pool cfg).reachable h.server

/-! ## Steps of the load generator -/

theorem Linked.loadgen (h : Linked b) {s : Loadgen.State args}
    (hconnected : ∀ i, (s.conns i).connected = (b.loadgen.conns i).connected) :
    Linked { b with loadgen := s } where
  connected i := by
    rw [← h.connected i, ← hconnected i]
  unnumbered := h.unnumbered
  nodup := h.nodup
  inj := h.inj
  lt := h.lt
  surj := h.surj

theorem Bench.Sound.main (h : b.Sound net) {l : Loadgen.Label args} {s : Loadgen.State args}
    (hok : Loadgen.creates b.loadgen l) (hs : b.loadgen.step l = some s)
    (hmove : Loadgen.MainMoves b.loadgen b.loadgen.main l s) :
    Bench.Sound net { b with loadgen := s } where
  loadgen := h.loadgen.step l hs
  started := Loadgen.OnTheWay.step h.started hok (Loadgen.steps_of_step hs)
  server := h.server
  stays := h.stays
  room := h.room
  linked := by
    refine h.linked.loadgen fun i => ?_
    rcases main_conns hmove i with hsame | hstart | hrelease
    · rw [hsame]
    · exact connected_step hstart rfl
    · exact connected_step hrelease rfl
  sessions i := by
    rcases main_conns hmove i with hsame | hstart | hrelease
    · exact reachable_release (h.sessions i) (Or.inl hsame)
    · exact (h.sessions i).run (run_quiet rfl rfl rfl hstart)
    · exact reachable_release (h.sessions i) (Or.inr hrelease)

/-- A thread is not connected before `connect_to` has returned. -/
theorem unconnected {job : Loadgen.Job} {c : Conn} (h : (Loadgen.connMain job).Reachable c) :
    c.control = .unborn ∨ c.control = .connecting → c.connected = false := by
  refine Machine.Reachable.invariant (P := fun c : Conn =>
    c.control = .unborn ∨ c.control = .connecting → c.connected = false) ?_ ?_ h
  · rintro _ rfl _
    rfl
  · intro c a c' _ ih hs hearly
    have hadvances := Loadgen.advances_of_step hs
    have hhead : ∀ m, ¬(job.head m = .unborn ∨ job.head m = .connecting) := by
      intro m
      unfold Loadgen.Job.head
      split <;> simp
    generalize hk : c.control = k at hadvances
    cases hadvances with
    | starts => exact ih (Or.inl hk)
    | acked => exact absurd hearly (hhead 0)
    | received => exact absurd hearly (hhead _)
    | _ => simp [Conn.failAll, Conn.failOne] at hearly

theorem Linked.connect (h : Linked b) {s : Loadgen.State args} {i : Fin args.connections}
    (hnot : (b.loadgen.conns i).connected = false) (hi : (s.conns i).connected = true)
    (hothers : ∀ j, j ≠ i → (s.conns j).connected = (b.loadgen.conns j).connected) :
    Linked { b with loadgen := s, backlog := b.backlog ++ [i] } := by
  have hnew : ¬(i ∈ b.backlog ∨ b.number i ≠ none) := by
    rw [← h.connected i, hnot]
    exact Bool.false_ne_true
  obtain ⟨hbacklog, hnumber⟩ := not_or.mp hnew
  refine ⟨?_, ?_, ?_, h.inj, h.lt, h.surj⟩
  · intro j
    change (s.conns j).connected = true ↔ j ∈ b.backlog ++ [i] ∨ b.number j ≠ none
    by_cases hj : j = i
    · subst hj
      simp [hi]
    · rw [hothers j hj, h.connected j]
      simp [hj]
  · intro j hj
    rcases List.mem_append.mp hj with hj | hj
    · exact h.unnumbered j hj
    · rw [List.mem_singleton.mp hj]
      exact not_not.mp hnumber
  · refine List.nodup_append.mpr ⟨h.nodup, List.nodup_singleton i, ?_⟩
    rintro j hj k hk rfl
    rw [List.mem_singleton.mp hk] at hj
    exact hbacklog hj

theorem session_client_same {i : Fin args.connections} {a : Loadgen.Answer}
    {s : Loadgen.State args} (c : Conn) : (b.afterClient i a s).session i =
      { (b.session i).afterClient a c with client := s.conns i } := by
  simp only [Bench.session, Bench.afterClient, Exchange.Session.afterClient, Function.update_self]

theorem session_client_ne {i j : Fin args.connections} (hj : j ≠ i) {a : Loadgen.Answer}
    {s : Loadgen.State args} : (b.afterClient i a s).session j =
      { b.session j with client := s.conns j } := by
  simp only [Bench.session, Bench.afterClient, Function.update_of_ne hj]

theorem Bench.Sound.client (h : b.Sound net) {i : Fin args.connections} {a : Loadgen.Answer}
    {s : Loadgen.State args} (hpermits : (b.session i).clientPermits net.toRooms a = true)
    (hroom : connects a = true → b.backlog.length < net.backlog)
    (hs : b.loadgen.step (.thread i a) = some s) : (b.afterClient i a s).Sound net := by
  obtain ⟨c, hc, hi, hothers⟩ := thread_conns hs
  have hsteps := Loadgen.steps_of_step hs
  have hsame : ∀ j, j ≠ i → (s.conns j).connected = (b.loadgen.conns j).connected := by
    intro j hj
    rcases hothers j hj with hj | hj
    · rw [hj]
    · exact connected_step hj rfl
  have hconnected : (s.conns i).connected = c.connected := by
    rcases hi with hi | hi
    · rw [hi]
    · exact connected_step hi rfl
  refine ⟨h.loadgen.step (.thread i a) hs,
    Loadgen.OnTheWay.step (l := .thread i a) h.started trivial hsteps, h.server, h.stays,
    ?_, ?_, ?_⟩
  · unfold Bench.afterClient
    dsimp only
    split
    · next ha =>
        rw [List.length_append]
        exact hroom ha
    · exact h.room
  · unfold Bench.afterClient
    by_cases ha : connects a = true
    · obtain ⟨hcontrol, addresses, rfl, hsome⟩ := connects_step hc ha
      have hnot := unconnected (Loadgen.reachable_conns h.loadgen i) (Or.inr hcontrol)
      have hlinked := h.linked.connect hnot ((hconnected.trans hsome).trans hpermits) hsame
      exact ⟨hlinked.connected, hlinked.unnumbered, hlinked.nodup, hlinked.inj, hlinked.lt,
        hlinked.surj⟩
    · rw [if_neg ha]
      have hlinked := h.linked.loadgen (s := s) fun j => ?_
      · exact ⟨hlinked.connected, hlinked.unnumbered, hlinked.nodup, hlinked.inj, hlinked.lt,
          hlinked.surj⟩
      · by_cases hj : j = i
        · subst hj
          rw [hconnected, connected_step hc (Bool.eq_false_of_not_eq_true ha)]
        · exact hsame j hj
  · intro j
    by_cases hj : j = i
    · subst hj
      have hstep : (exchange args.toJob net.toRooms).step (b.session j) (.client a) =
          some ((b.session j).afterClient a c) := Exchange.clientStep_of hpermits hc
      rw [session_client_same c]
      exact reachable_release ((h.sessions j).step _ hstep) hi
    · rw [session_client_ne hj]
      exact reachable_release (h.sessions j) (hothers j hj)

/-! ## Steps of the server -/

theorem pool_step {r s : Serving cfg} {l : ThreadPool.Label cfg.numWorkers}
    (hs : r.step (.pool l) = some (.running s)) :
    r.pool.step l = some (.running s.pool) ∧ s.calls = r.calls := by
  obtain ⟨-, hs⟩ := Option.ite_none_right_eq_some.mp hs
  obtain ⟨p, hp, rfl⟩ := map_eq_running hs
  exact ⟨hp, rfl⟩

theorem permits_ne {n : ℕ} {l : ThreadPool.Label n} (hl : permits l = true) :
    l ≠ .stopSignal ∧ ∀ fd, l ≠ .acceptReturns (.ok fd) := by
  refine ⟨?_, ?_⟩
  · rintro rfl
    cases hl
  · rintro fd rfl
    cases hl

theorem Bench.Sound.pool_step (h : b.Sound net) {l : ThreadPool.Label cfg.numWorkers}
    {s : Serving cfg} (hl : permits l = true) (hs : b.server.step (.pool l) = some (.running s)) :
    Bench.Sound net { b with server := s } := by
  obtain ⟨hp, hcalls⟩ := Benchmark.pool_step hs
  obtain ⟨hstop, haccept⟩ := permits_ne hl
  have hfresh := ThreadPool.fresh_step haccept hp
  refine ⟨h.loadgen, h.started, h.server.step (.pool l) hs, h.stays.step hstop hp, h.room,
    ⟨h.linked.connected, h.linked.unnumbered, h.linked.nodup, h.linked.inj, ?_, ?_⟩, ?_⟩
  · intro i c hc
    change c < s.pool.descriptors.fresh
    rw [hfresh]
    exact h.linked.lt hc
  · intro c hc
    change c < s.pool.descriptors.fresh at hc
    rw [hfresh] at hc
    exact h.linked.surj c hc
  · intro i
    have hsession : Bench.session { b with server := s } i = b.session i := by
      simp only [Bench.session, hcalls]
    rw [hsession]
    exact h.sessions i

/-- `accept` numbers the first client of the backlog. -/
theorem Linked.accept (h : Linked b) {i : Fin args.connections}
    {rest : List (Fin args.connections)} {s : Serving cfg} (hbacklog : b.backlog = i :: rest)
    (hfresh : s.pool.descriptors.fresh = b.server.pool.descriptors.fresh + 1) :
    Linked (b.afterAccept i rest s) := by
  have hnodup := h.nodup
  rw [hbacklog, List.nodup_cons] at hnodup
  have hnone : b.number i = none := h.unnumbered i (by simp [hbacklog])
  have hold : ∀ {j}, j ≠ i → Function.update b.number i
      (some b.server.pool.descriptors.fresh) j = b.number j := fun hj =>
    Function.update_of_ne hj _ _
  refine ⟨?_, ?_, hnodup.2, ?_, ?_, ?_⟩
  · intro j
    refine (h.connected j).trans ?_
    change _ ↔ j ∈ rest ∨ Function.update b.number i _ j ≠ none
    by_cases hj : j = i
    · subst hj
      simp [hbacklog]
    · rw [hold hj, hbacklog]
      simp [hj]
  · intro j hj
    have hne : j ≠ i := by
      rintro rfl
      exact hnodup.1 hj
    change Function.update b.number i _ j = none
    rw [hold hne]
    exact h.unnumbered j (by rw [hbacklog]; exact List.mem_cons_of_mem _ hj)
  · intro j k c hj hk
    change Function.update b.number i _ j = some c at hj
    change Function.update b.number i _ k = some c at hk
    by_cases hji : j = i
    · subst hji
      by_cases hki : k = j
      · exact hki.symm
      · rw [Function.update_self] at hj
        rw [hold hki] at hk
        have hlt := h.lt hk
        rw [← Option.some.inj hj] at hlt
        exact absurd hlt (lt_irrefl _)
    · rw [hold hji] at hj
      by_cases hki : k = i
      · subst hki
        rw [Function.update_self] at hk
        have hlt := h.lt hj
        rw [← Option.some.inj hk] at hlt
        exact absurd hlt (lt_irrefl _)
      · rw [hold hki] at hk
        exact h.inj hj hk
  · intro j c hj
    change Function.update b.number i _ j = some c at hj
    change c < s.pool.descriptors.fresh
    rw [hfresh]
    by_cases hji : j = i
    · subst hji
      rw [Function.update_self] at hj
      rw [← Option.some.inj hj]
      exact Nat.lt_succ_self _
    · rw [hold hji] at hj
      exact (h.lt hj).trans (Nat.lt_succ_self _)
  · intro c hc
    change c < s.pool.descriptors.fresh at hc
    rw [hfresh] at hc
    rcases Nat.lt_succ_iff_lt_or_eq.mp hc with hc | rfl
    · obtain ⟨j, hj⟩ := h.surj c hc
      have hne : j ≠ i := by
        rintro rfl
        cases hnone.symm.trans hj
      exact ⟨j, (hold hne).trans hj⟩
    · exact ⟨i, Function.update_self _ _ _⟩

/-- The call for a connection that is new has not been made. -/
theorem Bench.Sound.session_accept (h : b.Sound net) {i : Fin args.connections}
    {rest : List (Fin args.connections)} {s : Serving cfg} (hbacklog : b.backlog = i :: rest)
    (hcalls : s.calls = b.server.calls) (j : Fin args.connections) :
    (b.afterAccept i rest s).session j = b.session j := by
  have hfresh := (ThreadPool.Serving.reachable_calls h.server).fresh _ le_rfl
  by_cases hj : j = i
  · subst hj
    have hnone : b.number j = none := h.linked.unnumbered j (by simp [hbacklog])
    simp [Bench.session, Bench.afterAccept, hcalls, hfresh, hnone]
  · simp [Bench.session, Bench.afterAccept, hcalls, hj]

theorem fresh_accept {r s : Serving cfg} {fd : ℕ}
    (hp : r.pool.step (.acceptReturns (.ok fd)) = some (.running s.pool)) :
    s.pool.descriptors.fresh = r.pool.descriptors.fresh + 1 := by
  obtain ⟨-, hp⟩ := Option.ite_none_right_eq_some.mp hp
  obtain ⟨-, hp⟩ := Option.ite_none_right_eq_some.mp hp
  have hpool := Process.running.inj (Option.some.inj hp)
  rw [← hpool]
  rfl

theorem Bench.Sound.accept (h : b.Sound net) {fd : ℕ} {i : Fin args.connections}
    {rest : List (Fin args.connections)} {s : Serving cfg} (hbacklog : b.backlog = i :: rest)
    (hs : b.server.step (.pool (.acceptReturns (.ok fd))) = some (.running s)) :
    (b.afterAccept i rest s).Sound net := by
  obtain ⟨hp, hcalls⟩ := Benchmark.pool_step hs
  refine ⟨h.loadgen, h.started, h.server.step (.pool (.acceptReturns (.ok fd))) hs,
    h.stays.step (by simp) hp, ?_, h.linked.accept hbacklog (fresh_accept hp), fun j => ?_⟩
  · have hroom := h.room
    rw [hbacklog] at hroom
    exact (Nat.le_succ _).trans hroom
  · rw [h.session_accept hbacklog hcalls]
    exact h.sessions j

/-- A worker is in the call for the client with the number of its connection. -/
theorem Bench.Sound.call (h : b.Sound net) {w : Fin cfg.numWorkers} {fd : ℕ}
    (hpc : b.server.pool.workers w = .serving fd) :
    ∃ c i, b.server.pool.descriptors.owner fd = some c ∧ b.number i = some c ∧
      b.server.calls c = b.server.stack w := by
  have hcalls := ThreadPool.Serving.reachable_calls h.server
  have hhandoff := (ThreadPool.reachable_handoff h.pool).2
  obtain ⟨c, howner, hcall⟩ := hcalls.call hhandoff (congrArg ThreadPool.WorkerPc.held hpc)
  obtain ⟨i, hi⟩ := h.linked.surj c (b.server.pool.descriptors.owner_lt howner)
  exact ⟨c, i, howner, hi, hcall⟩

theorem session_setCall_same {w : Fin cfg.numWorkers} {fd c : ℕ} {v : Connection}
    {i : Fin args.connections} {up down : Fin args.connections → List UInt8}
    (howner : b.server.pool.descriptors.owner fd = some c) (hi : b.number i = some c) :
    Bench.session { b with server := b.server.setCall w fd v, up := up, down := down } i =
      ⟨b.loadgen.conns i, some v, up i, down i⟩ := by
  simp [Bench.session, Serving.setCall, Protocol.recordCall_of_owner howner, hi]

theorem session_setCall_ne {w : Fin cfg.numWorkers} {fd c : ℕ} {v : Connection}
    {i : Fin args.connections} {up down : Fin args.connections → List UInt8}
    (howner : b.server.pool.descriptors.owner fd = some c) (hi : b.number i ≠ some c) :
    Bench.session { b with server := b.server.setCall w fd v, up := up, down := down } i =
      ⟨b.loadgen.conns i, (b.session i).server, up i, down i⟩ := by
  simp only [Bench.session, Serving.setCall, Protocol.recordCall_of_owner howner]
  cases hnumber : b.number i with
  | none => rfl
  | some c' =>
      have hne : c' ≠ c := by
        rintro rfl
        exact hi hnumber
      simp [hne]

/-- A step inside a call is a step of one session. -/
structure CallStep (net : Network) (b b' : Bench args cfg) (i : Fin args.connections)
    (l : Exchange.Label) : Prop where
  step : (exchange args.toJob net.toRooms).step (b.session i) l = some (b'.session i)
  others : ∀ j, j ≠ i → b'.session j = b.session j
  pool : b'.server.pool = b.server.pool

theorem Bench.Sound.enter_call (h : b.Sound net) {w : Fin cfg.numWorkers}
    {state : Protocol.ProcessingState} {recvbuf : List.Vector UInt8 Protocol.recvbufSize}
    {s : Serving cfg} (hs : b.server.step (.enter w state recvbuf) = some (.running s)) :
    ∃ i, CallStep net b { b with server := s } i (.enter state recvbuf) := by
  simp only [Serving.step] at hs
  split at hs
  case h_2 => cases hs
  case h_1 fd hpc hstack =>
    cases hs
    obtain ⟨c, i, howner, hi, hcall⟩ := h.call hpc
    have hnone : (b.session i).server = none := by
      simp only [Bench.session, hi, Option.bind_some, hcall, hstack]
    have hconnected : (b.session i).client.connected = true :=
      (h.linked.connected i).mpr (Or.inr (by rw [hi]; exact Option.some_ne_none c))
    have hguard : ((b.session i).server.isNone && (b.session i).client.connected) = true := by
      rw [hnone, hconnected]
      rfl
    refine ⟨i, ?_, fun j hj => ?_, rfl⟩
    · rw [session_setCall_same howner hi]
      exact if_pos hguard
    · rw [session_setCall_ne howner fun hc => hj (h.linked.inj hc hi)]
      rfl

theorem Bench.Sound.answer_call (h : b.Sound net) {w : Fin cfg.numWorkers}
    {i : Fin args.connections} {a : Protocol.Answer} {s : Serving cfg}
    (hserves : b.serves w i = true)
    (hpermits : (b.session i).serverPermits net.toRooms a = true)
    (hs : b.server.step (.answer w a) = some (.running s)) :
    CallStep net b (b.afterAnswer w i a s) i (.server a) := by
  simp only [Serving.step] at hs
  split at hs
  case h_2 => cases hs
  case h_1 fd v hpc hstack =>
    obtain ⟨v', hv', hs⟩ := Option.map_eq_some_iff.mp hs
    cases hs
    obtain ⟨c, -, howner, -, hcall⟩ := h.call hpc
    have hi : b.number i = some c := by
      simp only [Bench.serves, hpc, Bool.and_eq_true, decide_eq_true_eq] at hserves
      rw [← hserves.2, howner]
    have hv : (b.session i).server = some v := by
      simp only [Bench.session, hi, Option.bind_some, hcall, hstack]
    unfold Bench.afterAnswer
    refine ⟨?_, fun j hj => ?_, rfl⟩
    · rw [session_setCall_same howner hi, Function.update_self, Function.update_self, hstack]
      exact Exchange.serverStep_of hv hpermits hv'
    · rw [session_setCall_ne howner fun hc => hj (h.linked.inj hc hi), Function.update_of_ne hj,
        Function.update_of_ne hj]
      rfl

theorem Bench.Sound.of_call (h : b.Sound net) {i : Fin args.connections} {l : Exchange.Label}
    (hcall : CallStep net b b' i l)
    (hserver : (ThreadPool.serving cfg).Reachable (.running b'.server))
    (hloadgen : b'.loadgen = b.loadgen) (hbacklog : b'.backlog = b.backlog)
    (hnumber : b'.number = b.number) : b'.Sound net := by
  refine ⟨?_, ?_, hserver, ?_, ?_, ?_, fun j => ?_⟩
  · rw [hloadgen]
    exact h.loadgen
  · rw [hloadgen]
    exact h.started
  · rw [hcall.pool]
    exact h.stays
  · rw [hbacklog]
    exact h.room
  · have hlinked := h.linked
    refine ⟨?_, ?_, ?_, ?_, ?_, ?_⟩
    · rw [hloadgen, hbacklog, hnumber]
      exact hlinked.connected
    · rw [hbacklog, hnumber]
      exact hlinked.unnumbered
    · rw [hbacklog]
      exact hlinked.nodup
    · rw [hnumber]
      exact hlinked.inj
    · rw [hnumber, hcall.pool]
      exact hlinked.lt
    · rw [hnumber, hcall.pool]
      exact hlinked.surj
  · by_cases hj : j = i
    · subst hj
      exact (h.sessions j).step l hcall.step
    · rw [hcall.others j hj]
      exact h.sessions j

/-! ## Every reachable state -/

theorem Bench.Sound.moves (h : b.Sound net) {l : Label args cfg} (hm : Moves net b l b') :
    b'.Sound net := by
  cases hm with
  | create hs =>
      cases Loadgen.steps_of_step hs with
      | main hmove => exact h.main (l := .create true) rfl hs hmove
  | main hs =>
      cases Loadgen.steps_of_step hs with
      | main hmove => exact h.main (l := .main) trivial hs hmove
  | client hpermits hroom hs => exact h.client hpermits hroom hs
  | accept hbacklog hs => exact h.accept hbacklog hs
  | pool hl hs => exact h.pool_step hl hs
  | @enter w state recvbuf s hs =>
      obtain ⟨i, hcall⟩ := h.enter_call hs
      exact h.of_call hcall (h.server.step (.enter w state recvbuf) hs) rfl rfl rfl
  | @answer w i a s hserves hpermits hs =>
      exact h.of_call (h.answer_call hserves hpermits hs) (h.server.step (.answer w a) hs)
        rfl rfl rfl

theorem sound_start (args : Args) (cfg : Config) (net : Network) (memory : ℕ → ℕ) :
    (Bench.start args cfg memory).Sound net where
  loadgen := .init rfl
  started := Or.inl (Loadgen.starting_start args)
  server := .init ⟨_, rfl, memory, rfl⟩
  stays := ⟨rfl, nofun⟩
  room := Nat.zero_le _
  linked := by
    refine ⟨fun i => ?_, nofun, List.nodup_nil, nofun, nofun, nofun⟩
    simp [Bench.start, Loadgen.State.start, Conn.blank]
  sessions i := .init rfl

theorem acceptFailed_ne_exited {p : ThreadPool.Pool cfg} {e : Errno} (he : transient e = true) :
    ThreadPool.acceptFailed e p ≠ .exited := by
  simp only [transient, Bool.or_eq_true, decide_eq_true_eq] at he
  unfold ThreadPool.acceptFailed
  split
  · nofun
  · split
    · nofun
    · next hfirst hsecond => tauto

theorem map_eq_exited {σ τ : Type*} {r : Option (Process σ)} {f : σ → τ}
    (h : r.map (Process.map f) = some .exited) : r = some .exited := by
  obtain ⟨p, hp, h⟩ := Option.map_eq_some_iff.mp h
  cases p with
  | running s => cases h
  | exited => exact hp

theorem Bench.Sound.pool_not_exited (h : b.Sound net) {l : ThreadPool.Label cfg.numWorkers}
    (hl : permits l = true ∨ ∃ fd, l = .acceptReturns (.ok fd)) :
    b.server.step (.pool l) ≠ some .exited := by
  intro hs
  obtain ⟨-, hs⟩ := Option.ite_none_right_eq_some.mp hs
  rcases ThreadPool.exited_cases (map_eq_exited hs) with ⟨-, hpc⟩ | ⟨e, rfl, he⟩
  · exact h.stays.2 hpc
  · rcases hl with hl | ⟨fd, hfd⟩
    · exact acceptFailed_ne_exited hl he
    · cases hfd

/-- Nothing in the system ends the server. -/
theorem Bench.Sound.not_exited (h : b.Sound net) (l : Label args cfg) :
    b.step net l ≠ some .exited := by
  intro hs
  cases l with
  | create | main =>
      obtain ⟨s, -, hs⟩ := Option.map_eq_some_iff.mp hs
      cases hs
  | client i a =>
      obtain ⟨-, hs⟩ := Option.ite_none_right_eq_some.mp hs
      obtain ⟨s, -, hs⟩ := Option.map_eq_some_iff.mp hs
      cases hs
  | accept fd =>
      simp only [Bench.step] at hs
      split at hs
      · cases hs
      · exact h.pool_not_exited (Or.inr ⟨fd, rfl⟩) (map_eq_exited hs)
  | pool l =>
      obtain ⟨hl, hs⟩ := Option.ite_none_right_eq_some.mp hs
      exact h.pool_not_exited (Or.inl hl) (map_eq_exited hs)
  | enter w state recvbuf =>
      have hs := map_eq_exited hs
      simp only [Serving.step] at hs
      split at hs <;> cases hs
  | answer w i a =>
      obtain ⟨-, hs⟩ := Option.ite_none_right_eq_some.mp hs
      have hs := map_eq_exited hs
      simp only [Serving.step] at hs
      split at hs
      · obtain ⟨v, -, hs⟩ := Option.map_eq_some_iff.mp hs
        cases hs
      · cases hs

/-- The process at the end of a run is up, and its parts are as they should be. -/
theorem reachable_sound {p : Process (Bench args cfg)} (h : (bench args cfg net).Reachable p) :
    ∃ b, p = .running b ∧ b.Sound net := by
  refine Machine.Reachable.invariant
    (P := fun p : Process (Bench args cfg) => ∃ b, p = .running b ∧ b.Sound net) ?_ ?_ h
  · rintro _ ⟨_, rfl, memory, rfl⟩
    exact ⟨_, rfl, sound_start args cfg net memory⟩
  · rintro _ l q _ ⟨b, rfl, hb⟩ hs
    cases q with
    | exited => exact absurd hs (hb.not_exited l)
    | running b' => exact ⟨b', rfl, hb.moves (moves_of_step hs)⟩

end ConcurrentServers.Benchmark

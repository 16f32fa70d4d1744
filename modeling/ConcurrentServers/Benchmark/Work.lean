import ConcurrentServers.Benchmark.Sessions

/-!
# The work of a benchmark

A step that is not a disturbance uses up some of the work that is left, and a
disturbance adds little. What is left is the way of the main thread, what the
sessions still have to exchange, the connections to be accepted, and the rank of
the pool.
-/

namespace ConcurrentServers.Benchmark

open Systems
open Loadgen (Args Conn)
open ThreadPool (Config Serving)
open Exchange (exchange clientPuts clientGets)

variable {args : Args} {cfg : Config} {net : Network} {b b' : Bench args cfg}

/-! ## What is left -/

def mainLeft (connections : ℕ) : Loadgen.Main → ℕ
  | .creating i => connections - i + connections + 4
  | .starting _ => connections + 3
  | .waiting _ => connections + 2
  | .joining i _ => connections - i + 1
  | _ => 0

def Bench.left (b : Bench args cfg) : ℕ :=
  mainLeft args.connections b.loadgen.main + ∑ i, (b.session i).left args.toJob +
    23 * (args.connections - b.server.pool.descriptors.fresh) + b.server.pool.rank

/-! ## The main thread of the load generator -/

theorem settle_main (s : Loadgen.State args) :
    s.settle.main = s.main ∨ s.settle.main = s.main.release := by
  unfold Loadgen.State.settle
  split
  · exact Or.inr rfl
  · exact Or.inl rfl

theorem mainLeft_release_le (connections : ℕ) (m : Loadgen.Main) :
    mainLeft connections m.release ≤ mainLeft connections m := by
  cases m <;> simp [Loadgen.Main.release, mainLeft]

theorem mainLeft_settle_le (s : Loadgen.State args) :
    mainLeft args.connections s.settle.main ≤ mainLeft args.connections s.main := by
  rcases settle_main s with h | h
  · rw [h]
  · rw [h]
    exact mainLeft_release_le _ _

theorem mainLeft_main {s t : Loadgen.State args} {l : Loadgen.Label args} (h : s.OnTheWay)
    (hok : Loadgen.creates s l) (hmove : Loadgen.MainMoves s s.main l t) :
    mainLeft args.connections t.main + 1 ≤ mainLeft args.connections s.main := by
  have hphase : ∀ i n, s.main ≠ .recovering i n := by
    intro i n hmain
    rcases h with ⟨_, _, _, hphase⟩ | ⟨_, hphase⟩
    · rcases hphase with hphase | ⟨_, hphase | hphase⟩ <;> cases hmain.symm.trans hphase
    · rcases hphase with ⟨_, hphase⟩ | ⟨_, hphase⟩ <;> cases hmain.symm.trans hphase
  generalize hmain : s.main = m at hmove
  cases hmove with
  | creates hi hc =>
      simp only [mainLeft]
      omega
  | fails hi => cases hok
  | created hi =>
      simp only [mainLeft]
      omega
  | standsIn hi => exact absurd hmain (hphase _ _)
  | recovered hi => exact absurd hmain (hphase _ _)
  | @arrives n =>
      have hle := mainLeft_settle_le { s with main := .waiting n }
      simp only [mainLeft] at hle ⊢
      omega
  | joins hi hreturned =>
      simp only [mainLeft]
      omega
  | ends hi => exact Nat.succ_le_succ (Nat.zero_le _)

theorem mainLeft_thread {s t : Loadgen.State args} {i : Fin args.connections}
    {a : Loadgen.Answer} (hs : s.step (.thread i a) = some t) :
    mainLeft args.connections t.main ≤ mainLeft args.connections s.main := by
  cases Loadgen.threadMoves_of_threadStep hs with
  | moves hc ha => exact le_rfl
  | arrives hc => exact mainLeft_settle_le _

/-! ## Sessions -/

section Session

variable {job : Loadgen.Job} {x y : Exchange.Session}

/-- What a step of a session leaves of the work. -/
theorem left_of_step {rooms : Exchange.Rooms} (h : x.Sound job) {l : Exchange.Label}
    (hs : (exchange job rooms).step x l = some y) :
    y.left job + (if l.interrupted then 0 else 1) ≤ x.left job := by
  rcases h.left_lt (Exchange.moves_of_step hs) with ⟨hl, rfl⟩ | ⟨hl, hlt⟩
  · simp [hl]
  · simpa [hl] using hlt

theorem left_quiet (rooms : Exchange.Rooms) {a : Loadgen.Answer} {c : Conn} (h : x.Sound job)
    (hpermits : x.clientPermits rooms a = true) (hputs : clientPuts x.client a = [])
    (hgets : clientGets a = []) (hl : (Exchange.Label.client a).interrupted = false)
    (hc : job.step x.client a = some c) :
    ({ x with client := c } : Exchange.Session).left job < x.left job := by
  have hrun := run_quiet hpermits hputs hgets hc
  obtain ⟨y, hs, hy⟩ := Option.bind_eq_some_iff.mp hrun
  cases hy
  have hleft := left_of_step h hs
  rwa [hl] at hleft

theorem left_release_le {c : Conn} (h : x.Sound job)
    (hc : c = x.client ∨ job.step x.client .release = some c) :
    ({ x with client := c } : Exchange.Session).left job ≤ x.left job := by
  rcases hc with rfl | hc
  · exact le_rfl
  · exact (left_quiet ⟨0, 0⟩ h rfl rfl rfl rfl hc).le

end Session

theorem Bench.Sound.session (h : b.Sound net) (i : Fin args.connections) :
    (b.session i).Sound args.toJob := Exchange.reachable_sound (h.sessions i)

/-- What the main thread does adds nothing to the sessions. -/
theorem Bench.Sound.sum_main (h : b.Sound net) {l : Loadgen.Label args} {s : Loadgen.State args}
    (hmove : Loadgen.MainMoves b.loadgen b.loadgen.main l s) :
    ∑ i, (Bench.session { b with loadgen := s } i).left args.toJob ≤
      ∑ i, (b.session i).left args.toJob := by
  refine Finset.sum_le_sum fun i _ => ?_
  have hsound := h.session i
  rcases main_conns hmove i with hsame | hstart | hrelease
  · exact left_release_le hsound (Or.inl hsame)
  · exact (left_quiet net.toRooms hsound rfl rfl rfl rfl hstart).le
  · exact left_release_le hsound (Or.inr hrelease)

theorem Bench.Sound.sum_client (h : b.Sound net) {i : Fin args.connections} {a : Loadgen.Answer}
    {s : Loadgen.State args} (hpermits : (b.session i).clientPermits net.toRooms a = true)
    (hs : b.loadgen.step (.thread i a) = some s) :
    ∑ j, ((b.afterClient i a s).session j).left args.toJob +
        (if (Exchange.Label.client a).interrupted then 0 else 1) ≤
      ∑ j, (b.session j).left args.toJob := by
  obtain ⟨c, hc, hi, hothers⟩ := thread_conns hs
  refine sum_add_le (i := i) ?_ fun j hj => ?_
  · have hstep : (exchange args.toJob net.toRooms).step (b.session i) (.client a) =
        some ((b.session i).afterClient a c) := Exchange.clientStep_of hpermits hc
    have hsound := Exchange.reachable_sound ((h.sessions i).step (.client a) hstep)
    have hleft := left_of_step (h.session i) hstep
    rw [session_client_same c]
    exact (Nat.add_le_add_right (left_release_le hsound hi) _).trans hleft
  · rw [session_client_ne hj]
    exact left_release_le (h.session j) (hothers j hj)

theorem Bench.Sound.sum_call (h : b.Sound net) {i : Fin args.connections} {l : Exchange.Label}
    (hcall : CallStep net b b' i l) :
    ∑ j, (b'.session j).left args.toJob + (if l.interrupted then 0 else 1) ≤
      ∑ j, (b.session j).left args.toJob := by
  refine sum_add_le (left_of_step (h.session i) hcall.step) fun j hj => ?_
  rw [hcall.others j hj]

/-! ## The clients that are connected -/

/-- Numbered clients and those in the backlog are all different. -/
theorem Linked.exists_injective (h : Linked b) :
    ∃ f : Fin b.server.pool.descriptors.fresh ⊕ Fin b.backlog.length → Fin args.connections,
      f.Injective ∧ ∀ x, (b.loadgen.conns (f x)).connected = true := by
  choose g hg using fun c : Fin b.server.pool.descriptors.fresh => h.surj c.val c.isLt
  refine ⟨Sum.elim g b.backlog.get, ?_, ?_⟩
  · refine Function.Injective.sumElim ?_ h.nodup.injective_get ?_
    · intro c c' hcc
      have hc := hg c
      rw [hcc, hg c'] at hc
      exact Fin.ext (Option.some.inj hc).symm
    · intro c k heq
      have hnone := h.unnumbered _ (List.get_mem b.backlog k)
      rw [← heq, hg c] at hnone
      cases hnone
  · rintro (c | k)
    · refine (h.connected (g c)).mpr (Or.inr ?_)
      rw [hg c]
      exact Option.some_ne_none _
    · exact (h.connected _).mpr (Or.inl (List.get_mem b.backlog k))

theorem Linked.fresh_add_le (h : Linked b) :
    b.server.pool.descriptors.fresh + b.backlog.length ≤ args.connections := by
  obtain ⟨f, hf, -⟩ := h.exists_injective
  simpa using Fintype.card_le_of_injective f hf

/-- A client that is not connected is one more. -/
theorem Linked.fresh_add_lt (h : Linked b) {i : Fin args.connections}
    (hi : (b.loadgen.conns i).connected = false) :
    b.server.pool.descriptors.fresh + b.backlog.length < args.connections := by
  obtain ⟨f, hf, hconnected⟩ := h.exists_injective
  have hnot : i ∉ Set.range f := by
    rintro ⟨x, rfl⟩
    rw [hconnected x] at hi
    cases hi
  simpa using Fintype.card_lt_of_injective_of_notMem f hf hnot

/-- When all are connected, each is numbered or in the backlog. -/
theorem Linked.le_fresh_add (h : Linked b) (hall : ∀ i, (b.loadgen.conns i).connected = true) :
    args.connections ≤ b.server.pool.descriptors.fresh + b.backlog.length := by
  have hcover : Finset.univ ⊆ (Finset.univ.filter fun i => b.number i ≠ none) ∪
      b.backlog.toFinset := by
    intro i _
    rw [Finset.mem_union, Finset.mem_filter, List.mem_toFinset]
    exact ((h.connected i).mp (hall i)).symm.imp_left fun hi => ⟨Finset.mem_univ i, hi⟩
  have hnumbered : (Finset.univ.filter fun i => b.number i ≠ none).card ≤
      b.server.pool.descriptors.fresh := by
    rw [← Finset.card_range b.server.pool.descriptors.fresh]
    refine Finset.card_le_card_of_injOn (fun i => (b.number i).getD 0) ?_ ?_
    · intro i hi
      obtain ⟨c, hc⟩ := Option.ne_none_iff_exists'.mp (Finset.mem_filter.mp hi).2
      simpa [hc] using h.lt hc
    · intro i hi j hj heq
      obtain ⟨c, hc⟩ := Option.ne_none_iff_exists'.mp (Finset.mem_filter.mp hi).2
      obtain ⟨c', hc'⟩ := Option.ne_none_iff_exists'.mp (Finset.mem_filter.mp hj).2
      simp only [hc, hc', Option.getD_some] at heq
      subst heq
      exact h.inj hc hc'
  have hcard := (Finset.card_le_card hcover).trans (Finset.card_union_le _ _)
  have hbacklog := b.backlog.toFinset_card_le
  rw [Finset.card_univ, Fintype.card_fin] at hcard
  omega

/-! ## One step -/

theorem credit_le {l : ThreadPool.Label cfg.numWorkers} (hl : permits l = true) :
    l.credit ≤ if (Label.pool l : Label args cfg).disturbed then 3 else 0 := by
  cases l with
  | acceptReturns r =>
      cases r with
      | ok fd => cases hl
      | error e => exact le_rfl
  | stopSignal => cases hl
  | _ => exact le_rfl

theorem le_add_disturbance {m n : ℕ} {interrupted : Bool}
    (h : m + (if interrupted then 0 else 1) ≤ n) : m + 1 ≤ n + if interrupted then 3 else 0 := by
  cases interrupted <;> simp only [Bool.false_eq_true, if_false, if_true] at h ⊢ <;> omega

/-- A step uses up some of the work, but for what a disturbance adds. -/
theorem Bench.Sound.left_moves (h : b.Sound net) {l : Label args cfg} (hm : Moves net b l b') :
    b'.left + 1 ≤ b.left + if l.disturbed then 3 else 0 := by
  have hlocked := (ThreadPool.reachable_handoff h.pool).1
  unfold Bench.left
  cases hm with
  | create hs =>
      cases Loadgen.steps_of_step hs with
      | main hmove =>
          have hmain := mainLeft_main (l := .create true) h.started rfl hmove
          have hsum := h.sum_main hmove
          dsimp only at hmain hsum ⊢
          omega
  | main hs =>
      cases Loadgen.steps_of_step hs with
      | main hmove =>
          have hmain := mainLeft_main (l := .main) h.started trivial hmove
          have hsum := h.sum_main hmove
          dsimp only at hmain hsum ⊢
          omega
  | @client i a s hpermits hroom hs =>
      have hmain := mainLeft_thread hs
      have hsum := le_add_disturbance (h.sum_client hpermits hs)
      change mainLeft args.connections s.main + _ + 23 * (args.connections -
        b.server.pool.descriptors.fresh) + b.server.pool.rank + 1 ≤
          _ + if (Exchange.Label.client a).interrupted then 3 else 0
      omega
  | @accept fd i rest s hbacklog hs =>
      obtain ⟨hp, hcalls⟩ := Benchmark.pool_step hs
      have hrank : s.pool.rank + 1 ≤ b.server.pool.rank + 23 := ThreadPool.rank_step hlocked hp
      have hfresh := fresh_accept hp
      have hle := h.linked.fresh_add_le
      have hsum : ∑ j, ((b.afterAccept i rest s).session j).left args.toJob =
          ∑ j, (b.session j).left args.toJob :=
        Finset.sum_congr rfl fun j _ => by rw [h.session_accept hbacklog hcalls]
      rw [hbacklog, List.length_cons] at hle
      rw [hsum]
      change mainLeft _ b.loadgen.main + _ + 23 * (_ - s.pool.descriptors.fresh) + s.pool.rank + 1 ≤
        _ + 0
      omega
  | @pool l s hl hs =>
      obtain ⟨hp, hcalls⟩ := Benchmark.pool_step hs
      have hrank := ThreadPool.rank_step hlocked hp
      have hfresh := ThreadPool.fresh_step (permits_ne hl).2 hp
      have hcredit : l.credit ≤ if (Label.pool l : Label args cfg).disturbed then 3 else 0 :=
        credit_le hl
      have hsum : ∑ j, (Bench.session { b with server := s } j).left args.toJob =
          ∑ j, (b.session j).left args.toJob :=
        Finset.sum_congr rfl fun j _ => by simp only [Bench.session, hcalls]
      rw [hsum]
      dsimp only
      rw [hfresh]
      omega
  | @enter w state recvbuf s hs =>
      obtain ⟨i, hcall⟩ := h.enter_call hs
      have hsum := le_add_disturbance (h.sum_call hcall)
      rw [hcall.pool]
      change _ + 1 ≤ _ + 0 at hsum
      change _ + 1 ≤ _ + 0
      dsimp only
      omega
  | @answer w i a s hserves hpermits hs =>
      have hcall := h.answer_call hserves hpermits hs
      have hsum := le_add_disturbance (h.sum_call hcall)
      rw [hcall.pool]
      change mainLeft _ b.loadgen.main + _ + _ + _ + 1 ≤
        _ + if (Exchange.Label.server a).interrupted then 3 else 0
      omega

/-- What a run can do, by the work at its start and the disturbances. -/
theorem countP_run_le {p : Process (Bench args cfg)} {ls : List (Label args cfg)}
    (h : b.Sound net) (hrun : (bench args cfg net).run (.running b) ls = some p) :
    ls.countP (fun l => !l.disturbed) ≤ b.left + 2 * ls.countP Label.disturbed := by
  induction ls generalizing b with
  | nil => exact Nat.zero_le _
  | cons l ls ih =>
      obtain ⟨q, hq, hrun⟩ := Option.bind_eq_some_iff.mp hrun
      cases q with
      | exited => exact absurd hq (h.not_exited l)
      | running b' =>
          have hm := moves_of_step hq
          have hleft := h.left_moves hm
          have hrest := ih (h.moves hm) hrun
          rw [List.countP_cons, List.countP_cons]
          cases hl : l.disturbed <;>
            simp only [hl, Bool.not_false, Bool.not_true, if_true, if_false,
              Bool.false_eq_true] at hleft ⊢ <;>
            omega

end ConcurrentServers.Benchmark

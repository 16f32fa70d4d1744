import ConcurrentServers.Loadgen.Join

/-!
# The exit status

The totals are sums of the counts of all connections in 32 bits, where the counts
of one connection fit but their sums need not. A sum of errors that wraps to zero
or to a negative number passes for none. A sum of completed requests that wraps
makes the array of all latencies too small.
-/

namespace ConcurrentServers.Loadgen

open Systems

variable {args : Args} {s t : State args}

/-! ## Sums in 32 bits -/

/-- A field of the totals that sums up `f` holds the exact sum modulo `2 ^ 32`. -/
theorem toInt_totals (field : Totals → Int32) {f : Conn → ℕ} (hzero : field ⟨0, 0, 0⟩ = 0)
    (hadd : ∀ t c, field (t.add c) = field t + Int32.ofNat (f c)) (ctxs : List Conn) :
    (field (totals ctxs)).toInt = ((ctxs.map f).sum : ℤ).bmod (2 ^ 32) := by
  have hsize : Int32.size = 2 ^ 32 := rfl
  have hfold : ∀ (ctxs : List Conn) (t : Totals), (field (ctxs.foldl Totals.add t)).toInt =
      ((field t).toInt + ((ctxs.map f).sum : ℕ)).bmod (2 ^ 32) := by
    intro ctxs
    induction ctxs with
    | nil => simp
    | cons c ctxs ih =>
        intro t
        rw [List.foldl_cons, ih, hadd, Int32.toInt_add, Int32.toInt_ofNat', hsize,
          Int.add_bmod_bmod, Int.bmod_add_bmod, List.map_cons, List.sum_cons, Nat.cast_add,
          Int.add_assoc]
  rw [totals, hfold, hzero, Int32.toInt_zero, Int.zero_add]

/-! ## The array of all latencies -/

theorem copyConn_eq {size k : ℕ} (hk : k ≤ size) (n : ℕ) :
    copyConn size k n = if k + n ≤ size then some (k + n) else none := by
  induction n generalizing k with
  | zero => rw [copyConn, Nat.add_zero, if_pos hk]
  | succ n ih =>
      rw [copyConn]
      by_cases hlt : k < size
      · have hnext : k + 1 + n = k + (n + 1) := by omega
        rw [if_pos hlt, ih hlt, hnext]
      · rw [if_neg hlt, if_neg (by omega)]

theorem foldlM_copyConn_eq {size k : ℕ} (hk : k ≤ size) (ctxs : List Conn) :
    ctxs.foldlM (fun k c => copyConn size k c.completed) k =
      if k + (ctxs.map Conn.completed).sum ≤ size then
        some (k + (ctxs.map Conn.completed).sum) else none := by
  induction ctxs generalizing k with
  | nil => rw [List.foldlM_nil, List.map_nil, List.sum_nil, Nat.add_zero, if_pos hk]; rfl
  | cons c ctxs ih =>
      rw [List.foldlM_cons, copyConn_eq hk, List.map_cons, List.sum_cons, ← Nat.add_assoc]
      by_cases hle : k + c.completed ≤ size
      · rw [if_pos hle]
        exact ih hle
      · rw [if_neg hle, if_neg (by omega)]
        rfl

/-- The array is large enough exactly when its size did not wrap. -/
theorem le_allSize_iff (ctxs : List Conn) :
    (ctxs.map Conn.completed).sum ≤ allSize (totals ctxs) ↔
      (ctxs.map Conn.completed).sum < 2 ^ 31 := by
  have htotal := toInt_totals Totals.total rfl (fun _ _ => rfl) ctxs
  have hbound := (totals ctxs).total.toNatClampNeg_lt
  have hclamp := (totals ctxs).total.toNat_toInt
  simp only [allSize, gt_iff_lt, Int32.lt_iff_toInt_lt, Int32.toInt_zero]
  constructor
  · intro hle
    split at hle <;> omega
  · intro hlt
    rw [Int.bmod_eq_of_le (by omega) (by omega)] at htotal
    split <;> omega

/-! ## How the process ends -/

/-- A number that is positive as an `int` when only its low 32 bits are kept. -/
def PositiveInt (n : ℕ) : Prop := 0 < n % 2 ^ 32 ∧ n % 2 ^ 32 < 2 ^ 31

instance (n : ℕ) : Decidable (PositiveInt n) := inferInstanceAs (Decidable (_ ∧ _))

theorem bmod_pos_iff (n : ℕ) : 0 < (n : ℤ).bmod (2 ^ 32) ↔ PositiveInt n := by
  rw [Int.bmod_eq_emod, PositiveInt]
  split <;> omega

theorem finish_eq (ctxs : List Conn) :
    finish ctxs = if (ctxs.map Conn.completed).sum < 2 ^ 31 then
      .exited (if PositiveInt (ctxs.map Conn.errors).sum ∨
        PositiveInt (ctxs.map Conn.mismatches).sum then 1 else 0)
    else .undefined := by
  have herrors := toInt_totals Totals.errors rfl (fun _ _ => rfl) ctxs
  have hmismatches := toInt_totals Totals.mismatches rfl (fun _ _ => rfl) ctxs
  unfold finish copyAll
  dsimp only
  rw [foldlM_copyConn_eq (Nat.zero_le _), Nat.zero_add]
  by_cases hlt : (ctxs.map Conn.completed).sum < 2 ^ 31
  · rw [if_pos hlt, if_pos ((le_allSize_iff ctxs).mpr hlt)]
    simp only [gt_iff_lt, Int32.lt_iff_toInt_lt, Int32.toInt_zero, herrors, hmismatches,
      bmod_pos_iff]
  · rw [if_neg hlt, if_neg (mt (le_allSize_iff ctxs).mp hlt)]

/-! ## Requests that were answered rightly -/

theorem closer_ne_payloadByte (i : ℕ) : Frame.closer ≠ payloadByte i := by
  intro heq
  have hnat := congrArg UInt8.toNat heq
  have hcloser : Frame.closer.toNat = 36 := rfl
  have ha : 'a'.toUInt8.toNat = 97 := rfl
  rw [payloadByte, UInt8.toNat_add, UInt8.toNat_ofNat', hcloser, ha] at hnat
  omega

/-- What `conn_main` compares an echo with is the reply that the protocol gives. -/
theorem transform_request (n : ℕ) : Frame.transform (request n) = expected n := by
  have hnot : Frame.closer ∉ (List.range n).map payloadByte := by
    rw [List.mem_map]
    rintro ⟨i, -, hi⟩
    exact closer_ne_payloadByte i hi.symm
  obtain ⟨houtput, hstate⟩ := Frame.output_inside hnot
  have hopen : Frame.machine.next .outside '^'.toUInt8 = .inside := rfl
  rw [← Frame.output_eq_transform, request, List.cons_append, Transducer.output_cons, hopen,
    Transducer.output_append, houtput, hstate, List.map_map]
  exact List.append_nil _

/-- Every request was completed with the echo that the protocol gives. -/
def State.AllRight (s : State args) : Prop :=
  ∀ i, (s.conns i).echoes =
    List.replicate args.messages (Frame.transform (request args.payloadBytes))

theorem Conn.Books.right_iff {job : Job} {c : Conn} (h : c.Books job)
    (hreturned : c.control = .returned) :
    c.echoes = List.replicate job.messages (Frame.transform (request job.payloadBytes)) ↔
      c.errors = 0 ∧ c.mismatches = 0 := by
  obtain ⟨hle, hall⟩ := h.stage.returned hreturned
  rw [transform_request, List.eq_replicate_iff, h.echoes, h.mismatches, List.countP_eq_zero]
  simp only [ne_eq, decide_not, Bool.not_eq_eq_eq_not, Bool.not_true, decide_eq_false_iff_not,
    Decidable.not_not]
  constructor
  · rintro ⟨hcompleted, hechoes⟩
    exact ⟨by omega, hechoes⟩
  · rintro ⟨herrors, hechoes⟩
    exact ⟨hall herrors, hechoes⟩

theorem Conn.Books.mismatches_le {job : Job} {c : Conn} (h : c.Books job) :
    c.mismatches ≤ c.completed := by
  rw [h.mismatches, ← h.echoes]
  exact List.countP_le_length

theorem sum_ctxs (s : State args) (f : Conn → ℕ) :
    ((s.ctxs args.connections).map f).sum = ∑ i, f (s.conns i) := by
  rw [State.ctxs, List.take_of_length_le (by simp), List.map_map, Fin.sum_univ_def]
  rfl

theorem allRight_iff
    (h : ∀ i, (s.conns i).Books args.toJob ∧ (s.conns i).control = .returned) :
    s.AllRight ↔ ∑ i, (s.conns i).errors = 0 ∧ ∑ i, (s.conns i).mismatches = 0 := by
  simp only [State.AllRight, Finset.sum_eq_zero_iff, Finset.mem_univ, true_imp_iff,
    ← forall_and]
  exact forall_congr' fun i => (h i).1.right_iff (h i).2

/-- The totals tell the truth: fewer than `2 ^ 31` requests were completed, and there are
no errors, or some wrong echo, or a number of errors that is positive in 32 bits. -/
def State.TotalsHold (s : State args) : Prop :=
  ∑ i, (s.conns i).completed < 2 ^ 31 ∧
    (∑ i, (s.conns i).errors = 0 ∨ 0 < ∑ i, (s.conns i).mismatches ∨
      PositiveInt (∑ i, (s.conns i).errors))

/-- Fewer than `2 ^ 31` requests in all are enough. -/
theorem totalsHold_of_lt {n : ℕ} (h : (loadgen args).Reachable s) (hmain : s.main = .joining n n)
    (hlt : args.connections * args.messages < 2 ^ 31) : s.TotalsHold := by
  obtain ⟨-, hjoined⟩ := joined_all h hmain
  have hle : ∑ i, ((s.conns i).completed + (s.conns i).errors) ≤
      args.connections * args.messages := by
    have hsum := Finset.sum_le_card_nsmul Finset.univ
      (fun i => (s.conns i).completed + (s.conns i).errors) args.messages
      fun i _ => ((hjoined i).1.stage.returned (hjoined i).2).1
    rwa [Finset.card_univ, Fintype.card_fin, smul_eq_mul] at hsum
  rw [Finset.sum_add_distrib] at hle
  refine ⟨by omega, ?_⟩
  unfold PositiveInt
  omega

/-- The outcome and the truth, for the exact sums. -/
theorem outcome_iff {completed errors mismatches : ℕ} (hle : mismatches ≤ completed) :
    (∃ status, (if completed < 2 ^ 31 then
        Outcome.exited (if PositiveInt errors ∨ PositiveInt mismatches then 1 else 0)
        else .undefined) = .exited status ∧ (status = 0 ↔ errors = 0 ∧ mismatches = 0)) ↔
      completed < 2 ^ 31 ∧ (errors = 0 ∨ 0 < mismatches ∨ PositiveInt errors) := by
  by_cases hlt : completed < 2 ^ 31
  · rw [if_pos hlt]
    simp only [hlt, true_and, Outcome.exited.injEq, exists_eq_left']
    unfold PositiveInt
    split <;> omega
  · rw [if_neg hlt]
    simp only [hlt, false_and, reduceCtorEq, exists_false]

/-- When all threads are joined the process ends. Its status is zero exactly if every
request was answered rightly, as long as the totals hold, and only then. -/
theorem exit_status_iff {n : ℕ} (h : (loadgen args).Reachable s) (hmain : s.main = .joining n n) :
    n = args.connections ∧ ∃ t o, (loadgen args).step s .main = some t ∧ t.main = .ended o ∧
      ((∃ status, o = .exited status ∧ (status = 0 ↔ s.AllRight)) ↔ s.TotalsHold) := by
  obtain ⟨rfl, hjoined⟩ := joined_all h hmain
  have hstep : (loadgen args).step s .main =
      some { s with main := .ended (finish (s.ctxs args.connections)) } := by
    simp [loadgen, State.step, State.mainStep, hmain]
  refine ⟨rfl, _, _, hstep, rfl, ?_⟩
  have hle : ∑ i, (s.conns i).mismatches ≤ ∑ i, (s.conns i).completed :=
    Finset.sum_le_sum fun i _ => (hjoined i).1.mismatches_le
  simp only [finish_eq, sum_ctxs, allRight_iff hjoined]
  exact outcome_iff hle

/-! ## Runs -/

/-- All threads are started and fail to connect, and are joined. -/
def refusals (args : Args) : List (Label args) :=
  let threads := List.finRange args.connections
  List.flatten [
    threads.map fun _ => Label.create true,
    [Label.main],
    threads.flatMap fun i => [Label.thread i (Answer.connect none), Label.thread i Answer.arrive],
    [Label.main],
    threads.map fun i => Label.thread i Answer.proceed,
    threads.map fun _ => Label.main]

theorem exit_status_iff_refusals :
    ∃ s, (loadgen twoConnections).run (.start twoConnections) (refusals twoConnections) = some s ∧
      ∃ t o, (loadgen twoConnections).step s .main = some t ∧ t.main = .ended o ∧
        ((∃ status, o = .exited status ∧ (status = 0 ↔ s.AllRight)) ↔ s.TotalsHold) := by
  obtain ⟨s, hrun, hmain⟩ : ∃ s, (loadgen twoConnections).run (.start twoConnections)
      (refusals twoConnections) = some s ∧ s.main = .joining 2 2 := ⟨_, rfl, rfl⟩
  exact ⟨s, hrun, (exit_status_iff (Machine.reachable_of_run _ rfl hrun) hmain).2⟩

/-- Two connections of `2 ^ 30` messages. -/
def manyMessages : Args := (parseArgs 2 1073741824 (some 1)).get (by decide)

/-- All requests fail, and the sum of the errors is negative. -/
theorem failures_exit_zero :
    ∃ s t, (loadgen manyMessages).run (.start manyMessages) (refusals manyMessages) = some s ∧
      (loadgen manyMessages).step s .main = some t ∧ t.main = .ended (.exited 0) ∧
      (∀ i, (s.conns i).completed = 0 ∧ (s.conns i).errors = 2 ^ 30) ∧ ¬s.AllRight := by
  obtain ⟨s, t, hrun, hstep, ht, hfirst, hsecond⟩ : ∃ s t,
      (loadgen manyMessages).run (.start manyMessages) (refusals manyMessages) = some s ∧
      (loadgen manyMessages).step s .main = some t ∧ t.main = .ended (.exited 0) ∧
      s.conns ⟨0, by decide⟩ = ⟨.returned, false, 0, 2 ^ 30, 0, []⟩ ∧
      s.conns ⟨1, by decide⟩ = ⟨.returned, false, 0, 2 ^ 30, 0, []⟩ :=
    ⟨_, _, rfl, rfl, rfl, rfl, rfl⟩
  have hall : ∀ i, s.conns i = ⟨.returned, false, 0, 2 ^ 30, 0, []⟩
    | ⟨0, _⟩ => hfirst
    | ⟨1, _⟩ => hsecond
  refine ⟨s, t, hrun, hstep, ht, fun i => by rw [hall i]; exact ⟨rfl, rfl⟩, fun hright => ?_⟩
  have hechoes := congrArg List.length (hright ⟨0, by decide⟩)
  rw [hfirst, List.length_replicate] at hechoes
  cases hechoes

end ConcurrentServers.Loadgen

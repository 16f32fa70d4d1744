import ConcurrentServers.Metrics.Threads

/-!
# The histogram

A duration is counted in one bucket, and a bucket is reported together with all
buckets before it. Because the bounds increase, what is reported for a bound is
the number of durations that do not exceed it. The decimal labels denote the
bounds exactly.
-/

namespace ConcurrentServers.Metrics

open Systems
open Systems.Text (ascii decimal parseFixed)

/-! ## Bounds and buckets -/

/-- The duration does not exceed the `k`-th bound. There is no bound behind the
last one. -/
def Within (k : ℕ) (d : UInt64) : Prop := ∀ bound ∈ kBucketUpperNs[k]?, d ≤ bound

instance (k : ℕ) : DecidablePred (Within k) := fun _ => Option.decidableForallMem _

theorem bounds_sorted : kBucketUpperNs.Pairwise (· ≤ ·) := by decide

theorem bucketIndex_le_iff (d : UInt64) {k : ℕ} (hk : k ≤ bucketCount) :
    (bucketIndex d).val ≤ k ↔ Within k d := by
  change kBucketUpperNs.findIdx (d ≤ ·) ≤ k ↔ Within k d
  rcases hk.eq_or_lt with rfl | hlt
  · exact iff_of_true List.findIdx_le_length (by simp [Within, kBucketUpperNs, bucketCount])
  · have hlen : k < kBucketUpperNs.length := hlt
    have hwithin : Within k d ↔ d ≤ kBucketUpperNs[k] := by
      simp [Within, List.getElem?_eq_getElem hlen]
    rw [hwithin]
    constructor
    · intro hle
      have hfound := hle.trans_lt hlen
      have hbound : d ≤ kBucketUpperNs[kBucketUpperNs.findIdx (d ≤ ·)] := by
        simpa using List.findIdx_getElem (w := hfound)
      rcases hle.eq_or_lt with heq | hbefore
      · simpa only [heq] using hbound
      · exact UInt64.le_trans hbound
          (List.pairwise_iff_getElem.mp bounds_sorted _ _ hfound hlen hbefore)
    · intro hbound
      by_contra hafter
      exact of_decide_eq_false (List.not_of_lt_findIdx (Nat.lt_of_not_le hafter)) hbound

theorem countBelow_inBucket (ds : List UInt64) {k : ℕ} (hk : k ≤ bucketCount) :
    countBelow (inBucket ds) (k + 1) = ds.countP (Within k) := by
  induction ds with
  | nil => simp [countBelow, inBucket]
  | cons d ds ih =>
      have hcons : ∀ i, inBucket (d :: ds) i =
          inBucket ds i + if bucketIndex d = i then 1 else 0 := by
        intro i
        simp [inBucket, List.countP_cons]
      have hone : ∑ i ∈ Finset.univ.filter (fun i : Fin (bucketCount + 1) => i.val < k + 1),
          (if bucketIndex d = i then 1 else 0) = if Within k d then 1 else 0 := by
        rw [Finset.sum_ite_eq]
        simp only [Finset.mem_filter, Finset.mem_univ, true_and, Nat.lt_succ_iff,
          bucketIndex_le_iff d hk]
      rw [List.countP_cons, ← ih, countBelow, Finset.sum_congr rfl fun i _ => hcons i,
        Finset.sum_add_distrib, hone]
      simp [countBelow]

theorem sum_inBucket (ds : List UInt64) : ∑ i, inBucket ds i = ds.length := by
  have hall : ∀ d ∈ ds, decide (Within bucketCount d) = true := by
    simp [Within, kBucketUpperNs, bucketCount]
  have hbelow := countBelow_inBucket ds (le_refl bucketCount)
  rwa [List.countP_eq_length.mpr hall, countBelow,
    Finset.filter_true_of_mem fun i _ => i.isLt] at hbelow

/-- The labels of the table denote its bounds, in seconds. -/
theorem parseFixed_kBucketLe (i : Fin bucketCount) :
    parseFixed (kBucketLe.getD i []) = some ((kBucketUpperNs.getD i 0).toNat / 10 ^ 9 : ℚ) := by
  revert i
  decide +kernel

/-- A duration in seconds against a decimal label. -/
theorem within_iff {k : ℕ} (hk : k < bucketCount) (d : UInt64) {x : ℚ}
    (hx : parseFixed (kBucketLe.getD k []) = some x) :
    Within k d ↔ (d.toNat : ℚ) / 10 ^ 9 ≤ x := by
  have hlabel := parseFixed_kBucketLe ⟨k, hk⟩
  have hlen : k < kBucketUpperNs.length := hk
  rw [hx, Option.some.injEq] at hlabel
  subst hlabel
  rw [div_le_div_iff_of_pos_right (by norm_num), Nat.cast_le]
  simp [Within, List.getElem?_eq_getElem hlen, UInt64.le_iff_toNat_le]

/-! ## What is reported -/

theorem toNat_ofNat {n : ℕ} (h : n < 2 ^ 64) : (UInt64.ofNat n).toNat = n := by
  rw [UInt64.toNat_ofNat', Nat.mod_eq_of_lt h]

theorem Counted.toNat_latencyCount {s : State} (h : Counted s) (hsmall : s.observed.length < 2 ^ 64)
    (i : Fin (bucketCount + 1)) : (s.g.latencyCount i).toNat = inBucket s.observed i := by
  rw [h.latencyCount]
  exact toNat_ofNat (List.countP_le_length.trans_lt hsmall)

theorem Counted.toNat_cumulative {s : State} (h : Counted s) (hsmall : s.observed.length < 2 ^ 64)
    {k : ℕ} (hk : k ≤ bucketCount) :
    (cumulative s.g (k + 1)).toNat = s.observed.countP (Within k) := by
  have hcount := h.toNat_latencyCount hsmall
  have htotal : ∑ i, (s.g.latencyCount i).toNat < 2 ^ 64 := by
    rw [Finset.sum_congr rfl fun i _ => hcount i, sum_inBucket]
    exact hsmall
  rw [Metrics.toNat_cumulative s.g htotal (Nat.succ_le_succ hk), funext hcount]
  exact countBelow_inBucket s.observed hk

theorem Counted.toNat_latencySumNs {s : State} (h : Counted s) (hdone : s.inFlight = 0) :
    s.g.latencySumNs.toNat = nanoseconds s.observed % 2 ^ 64 := by
  have hsum := h.latencySumNs
  have hlt := s.g.latencySumNs.toNat_lt
  have hzero : nanoseconds s.inFlight = 0 := by
    rw [hdone]
    rfl
  rw [hzero, Nat.add_zero, Nat.mod_eq_of_lt hlt] at hsum
  exact hsum

theorem find_bucketSample (g : Registry) (i : Fin (bucketCount + 1)) :
    find (samples g) (bucketName, some (bucketLabel i)) =
      some (decimal (cumulative g (i + 1)).toNat) :=
  find_of_mem (keys_nodup g) (s := bucketSample g i) (by simp [samples])

theorem find_count (g : Registry) :
    find (samples g) (countName, none) = some (decimal (cumulative g (bucketCount + 1)).toNat) :=
  find_of_mem (keys_nodup g)
    (s := ⟨countName, g.modelLabel, none, decimal (cumulative g (bucketCount + 1)).toNat⟩)
    (by simp [samples])

theorem find_sum (g : Registry) :
    find (samples g) (sumName, none) = some (seconds g.latencySumNs) :=
  find_of_mem (keys_nodup g) (s := ⟨sumName, g.modelLabel, none, seconds g.latencySumNs⟩)
    (by simp [samples])

/-- Only the labels of the table and `+Inf` occur. -/
theorem le_of_bucketName {g : Registry} {t : Sample} (ht : t ∈ samples g)
    (hname : t.name = bucketName) : ∃ i, t.le = some (bucketLabel i) := by
  simp only [samples, List.mem_append, List.mem_cons, List.not_mem_nil, or_false,
    List.mem_map] at ht
  rcases ht with ((rfl | rfl | rfl | rfl | rfl) | ⟨i, _, rfl⟩) | rfl | rfl
  case inl.inr => exact ⟨i, rfl⟩
  all_goals
    dsimp only at hname
    exact absurd hname (by decide)

theorem bucketLabel_mem (i : Fin (bucketCount + 1)) :
    bucketLabel i ∈ kBucketLe ++ [ascii "+Inf"] := by
  revert i
  decide

/-- Two complete runs over the same durations leave the same histogram. -/
theorem Counted.histogram_eq {s s' : State} (h : Counted s) (h' : Counted s')
    (hdone : s.inFlight = 0) (hdone' : s'.inFlight = 0) (hperm : s'.observed.Perm s.observed) :
    s'.g.latencyCount = s.g.latencyCount ∧ s'.g.latencySumNs = s.g.latencySumNs := by
  constructor
  · funext i
    rw [h.latencyCount, h'.latencyCount, inBucket, inBucket, hperm.countP_eq]
  · apply UInt64.toNat_inj.mp
    rw [h.toNat_latencySumNs hdone, h'.toNat_latencySumNs hdone', Multiset.coe_eq_coe.mpr hperm]

/-- What a render reports when every observation is complete: for a bound the
number of durations up to it, then their number and the sum of their
nanoseconds. The order of the observations makes no difference to the text. -/
theorem histogram_reports {s : State} (h : registry.Reachable s) (hdone : s.inFlight = 0)
    (hsmall : s.observed.length < 2 ^ 64) {cap : ℕ} (out : List.Vector UInt8 cap)
    (hcap : (metricsRender s.g (some out)).2 < cap) :
    (∃ buf len ss, metricsRender s.g (some out) = (some buf, len) ∧
      parse (Buffer.slice buf 0 len) = some ss ∧ (ss.map Sample.key).Nodup ∧
      (∀ t ∈ ss, t.name = bucketName → ∃ le ∈ kBucketLe ++ [ascii "+Inf"], t.le = some le) ∧
      (∀ le ∈ kBucketLe, ∃ x, parseFixed le = some x ∧ find ss (bucketName, some le) =
        some (decimal (s.observed.countP fun d => (d.toNat : ℚ) / 10 ^ 9 ≤ x))) ∧
      find ss (bucketName, some (ascii "+Inf")) = some (decimal s.observed.length) ∧
      find ss (countName, none) = some (decimal s.observed.length) ∧
      ∃ v, find ss (sumName, none) = some v ∧
        parseFixed v = some (((nanoseconds s.observed % 2 ^ 64 : ℕ) : ℚ) / 10 ^ 9)) ∧
    ∀ s', registry.Reachable s' → s'.inFlight = 0 → s'.observed.Perm s.observed →
      metricsRender { s.g with
        latencyCount := s'.g.latencyCount
        latencySumNs := s'.g.latencySumNs } (some out) = metricsRender s.g (some out) := by
  have hcounted := reachable_counted h
  rw [metricsRender_len] at hcap
  obtain ⟨buf, hrender, hslice⟩ := metricsRender_full s.g out hcap
  have hlast : (cumulative s.g (bucketCount + 1)).toNat = s.observed.length := by
    rw [hcounted.toNat_cumulative hsmall (le_refl bucketCount)]
    exact List.countP_eq_length.mpr (by simp [Within, kBucketUpperNs, bucketCount])
  refine ⟨⟨buf, _, samples s.g, hrender, ?_, keys_nodup s.g, ?_, ?_, ?_, ?_, ?_⟩, ?_⟩
  · rw [hslice]
    exact parse_exposition s.g hcounted.model
  · intro t ht hname
    obtain ⟨i, hi⟩ := le_of_bucketName ht hname
    exact ⟨bucketLabel i, bucketLabel_mem i, hi⟩
  · intro le hle
    obtain ⟨k, hk⟩ := List.mem_iff_getElem?.mp hle
    have hlt : k < bucketCount := (List.getElem?_eq_some_iff.mp hk).1
    have hget : kBucketLe.getD k [] = le := by
      rw [List.getD_eq_getElem?_getD, hk]
      rfl
    have hx := parseFixed_kBucketLe ⟨k, hlt⟩
    have hlabel := bucketLabel_castSucc ⟨k, hlt⟩
    refine ⟨_, hget ▸ hx, ?_⟩
    rw [← hget, ← hlabel, find_bucketSample]
    change some (decimal (cumulative s.g (k + 1)).toNat) = _
    rw [hcounted.toNat_cumulative hsmall hlt.le]
    congr 2
    apply List.countP_congr
    intro d _
    simp only [decide_eq_true_eq]
    exact within_iff hlt d hx
  · have hinf := find_bucketSample s.g (Fin.last bucketCount)
    rw [← hlast]
    exact hinf
  · rw [← hlast]
    exact find_count s.g
  · refine ⟨_, find_sum s.g, ?_⟩
    rw [parseFixed_seconds, hcounted.toNat_latencySumNs hdone]
  · intro s' hs' hdone' hperm
    obtain ⟨hcount, hsum⟩ := hcounted.histogram_eq (reachable_counted hs') hdone hdone' hperm
    rw [hcount, hsum]

/-- Two observations that overlap, one on a bound and one just behind it. -/
def overlapping : List Label :=
  [.bucketAdd 20000, .bucketAdd 20001, .sumAdd 20001, .sumAdd 20000]

theorem histogram_reports_overlapping :
    ∃ s, registry.run (.start zeroRegistry none) overlapping = some s ∧
      s.observed = [20000, 20001] ∧
      ∃ buf len ss,
        metricsRender s.g (some (List.Vector.replicate ((exposition s.g).length + 1) 0)) =
          (some buf, len) ∧ parse (Buffer.slice buf 0 len) = some ss ∧
        find ss (bucketName, some (ascii "+Inf")) = some (decimal 2) := by
  refine ⟨_, rfl, rfl, ?_⟩
  have hreach := Machine.reachable_of_run (M := registry) overlapping
    ⟨zeroRegistry, none, rfl⟩ rfl
  obtain ⟨⟨buf, len, ss, hrender, hparse, _, _, _, hinf, _⟩, _⟩ := histogram_reports hreach
    (by decide) (by decide) (List.Vector.replicate _ 0)
    (by rw [metricsRender_len]; exact Nat.lt_add_one _)
  exact ⟨buf, len, ss, hrender, hparse, hinf⟩

end ConcurrentServers.Metrics

import ConcurrentServers.Metrics.Histogram

/-!
# Renders while others count

A render is not a snapshot: a counter can change before it is loaded and after.
But a counter never falls, so what is loaded lies between its value before the
first load and its value after the last, and a later render loads everything
later than an earlier one.
-/

namespace ConcurrentServers.Metrics

open Systems
open Systems.Text (ascii decimal parseNat)

/-! ## Counters that only grow -/

/-- The value of a counter. The gauges and the sum, which can fall or wrap, are
left out. -/
def Load.read (l : Load) (g : Registry) : ℕ :=
  match l with
  | .accepted => g.accepted.toNat
  | .refused => g.refused.toNat
  | .latencyCount i => (g.latencyCount i).toNat
  | _ => 0

/-- The number of updates of the counter. -/
def State.amount (s : State) : Load → ℕ
  | .accepted => s.acceptedTotal
  | .refused => s.refusedTotal
  | .latencyCount i => inBucket s.observed i
  | _ => 0

/-- No counter has wrapped. -/
structure Small (s : State) : Prop where
  observed : s.observed.length < 2 ^ 64
  accepted : s.acceptedTotal < 2 ^ 64
  refused : s.refusedTotal < 2 ^ 64

theorem Counted.read {s : State} (h : Counted s) (hsmall : Small s) (l : Load) :
    l.read s.g = s.amount l := by
  cases l with
  | accepted => exact (congrArg UInt64.toNat h.accepted).trans (toNat_ofNat hsmall.accepted)
  | refused => exact (congrArg UInt64.toNat h.refused).trans (toNat_ofNat hsmall.refused)
  | latencyCount i => exact h.toNat_latencyCount hsmall.observed i
  | active | queueDepth | workersBusy | latencySumNs => rfl

theorem read_copy (l l' : Load) (g seen : Registry) :
    l.read (l'.copy g seen) = if l = l' then l.read g else l.read seen := by
  cases l with
  | latencyCount i =>
      cases l' with
      | latencyCount j =>
          by_cases hij : i = j
          · simp [Load.read, Load.copy, hij]
          · simp [Load.read, Load.copy, hij]
      | _ => simp [Load.read, Load.copy]
  | _ => cases l' <;> simp [Load.read, Load.copy]

theorem inBucket_mono {ds ds' : List UInt64} (h : ds <+: ds') (i : Fin (bucketCount + 1)) :
    inBucket ds i ≤ inBucket ds' i := by
  obtain ⟨rest, rfl⟩ := h
  rw [inBucket, inBucket, List.countP_append]
  exact Nat.le_add_right _ _

/-- What every step does to the counters. -/
structure Grows (s s' : State) : Prop where
  model : s'.g.model = s.g.model
  observed : s.observed <+: s'.observed
  accepted : s.acceptedTotal ≤ s'.acceptedTotal
  refused : s.refusedTotal ≤ s'.refusedTotal

theorem Grows.amount {s s' : State} (h : Grows s s') (l : Load) : s.amount l ≤ s'.amount l := by
  cases l with
  | accepted => exact h.accepted
  | refused => exact h.refused
  | latencyCount i => exact inBucket_mono h.observed i
  | active | queueDepth | workersBusy | latencySumNs => exact le_refl _

theorem grows_render (s : State) (scrape : Option (Render × ℕ)) (renders : List Render) :
    Grows s { s with scrape := scrape, renders := renders } :=
  ⟨rfl, List.prefix_refl _, le_refl _, le_refl _⟩

theorem Small.of_grows {s s' : State} (h : Small s') (hgrows : Grows s s') : Small s :=
  ⟨hgrows.observed.length_le.trans_lt h.observed, hgrows.accepted.trans_lt h.accepted,
    hgrows.refused.trans_lt h.refused⟩

/-! ## A render under way -/

/-- A load that updates the record of the first bucket load finds no bucket
loaded. -/
theorem notMem_take_of_opens : ∀ n < renderLoads.length, ∀ l ∈ renderLoads[n]?, l.opens = true →
    ∀ i, Load.latencyCount i ∉ renderLoads.take n := by
  decide

theorem closes_of_opens {l : Load} (h : l.opens = true) : l.closes = true := by
  cases l with
  | latencySumNs => cases h
  | _ => rfl

theorem mem_renderLoads (l : Load) : l ∈ renderLoads := by
  cases l with
  | latencyCount i => simp [renderLoads]
  | _ => decide

/-- What holds of a render that has made the loads `done`. -/
structure Seen (s : State) (r : Render) (done : List Load) : Prop where
  model : r.seen.model = s.g.model
  first : r.first <+: r.last
  last : r.last <+: s.observed
  amount : ∀ l ∈ done, l.read r.seen ≤ s.amount l
  buckets : ∀ i, Load.latencyCount i ∈ done →
    inBucket r.first i ≤ (r.seen.latencyCount i).toNat ∧
      (r.seen.latencyCount i).toNat ≤ inBucket r.last i

theorem Seen.grows {s s' : State} {r : Render} {done : List Load} (h : Seen s r done)
    (hgrows : Grows s s') : Seen s' r done where
  model := h.model.trans hgrows.model.symm
  first := h.first
  last := h.last.trans hgrows.observed
  amount l hl := (h.amount l hl).trans (hgrows.amount l)
  buckets := h.buckets

theorem mem_take_succ {n : ℕ} {l l' : Load} (hl : renderLoads[n]? = some l) :
    l' ∈ renderLoads.take (n + 1) ↔ l' = l ∨ l' ∈ renderLoads.take n := by
  rw [List.take_add_one, hl, List.mem_append, or_comm]
  simp

section Load

variable {s : State} {r : Render} {n : ℕ} {l : Load}

theorem read_load_of_ne {l' : Load} (hne : l' ≠ l) (g : Registry) (observed : List UInt64) :
    l'.read (r.load l g observed).seen = l'.read r.seen :=
  (read_copy l' l g r.seen).trans (if_neg hne)

theorem read_load_self (g : Registry) (observed : List UInt64) :
    l.read (r.load l g observed).seen = l.read g :=
  (read_copy l l g r.seen).trans (if_pos rfl)

theorem Seen.first_load (h : Seen s r (renderLoads.take n)) :
    (r.load l s.g s.observed).first <+: s.observed := by
  by_cases hopens : l.opens = true
  · simp [Render.load, hopens]
  · simpa [Render.load, hopens] using h.first.trans h.last

/-- One more load: it adds a counter whose value is the number of its updates. -/
theorem Seen.load (h : Seen s r (renderLoads.take n)) (hl : renderLoads[n]? = some l)
    (hread : ∀ l, l.read s.g = s.amount l) :
    Seen s (r.load l s.g s.observed) (renderLoads.take (n + 1)) where
  model := by
    rw [← h.model]
    cases l <;> rfl
  first := by
    by_cases hcloses : l.closes = true
    · have hlast : (r.load l s.g s.observed).last = s.observed := if_pos hcloses
      rw [hlast]
      exact h.first_load
    · have hopens : ¬l.opens = true := fun hopens => hcloses (closes_of_opens hopens)
      simpa [Render.load, hcloses, hopens] using h.first
  last := by
    by_cases hcloses : l.closes = true
    · simp [Render.load, hcloses]
    · simpa [Render.load, hcloses] using h.last
  amount := by
    intro l' hl'
    by_cases hne : l' = l
    · rw [hne, read_load_self, hread]
    · rw [read_load_of_ne hne]
      exact h.amount l' (((mem_take_succ hl).mp hl').resolve_left hne)
  buckets := by
    intro i hi
    by_cases hne : Load.latencyCount i = l
    · have hcount : ((r.load l s.g s.observed).seen.latencyCount i).toNat =
          inBucket s.observed i := by
        have hself := read_load_self (r := r) (l := l) s.g s.observed
        rw [hread, ← hne] at hself
        exact hne ▸ hself
      have hlast : (r.load l s.g s.observed).last = s.observed := by
        rw [← hne]
        rfl
      rw [hcount, hlast]
      exact ⟨inBucket_mono h.first_load i, le_refl _⟩
    · -- An earlier bucket: the record of the first bucket load is not touched any more.
      have hold := ((mem_take_succ hl).mp hi).resolve_left hne
      have hlt : n < renderLoads.length := (List.getElem?_eq_some_iff.mp hl).1
      have hopens : ¬l.opens = true := fun hopens =>
        notMem_take_of_opens n hlt l hl hopens i hold
      have hcount : ((r.load l s.g s.observed).seen.latencyCount i).toNat =
          (r.seen.latencyCount i).toNat := read_load_of_ne hne s.g s.observed
      have hfirst : (r.load l s.g s.observed).first = r.first := if_neg hopens
      obtain ⟨hge, hle⟩ := h.buckets i hold
      rw [hcount, hfirst]
      refine ⟨hge, hle.trans ?_⟩
      by_cases hcloses : l.closes = true
      · have hlast : (r.load l s.g s.observed).last = s.observed := if_pos hcloses
        rw [hlast]
        exact inBucket_mono h.last i
      · have hlast : (r.load l s.g s.observed).last = r.last := if_neg hcloses
        rw [hlast]

end Load

/-! ## All renders of a run -/

/-- The renders are in the order in which they were finished. -/
structure Consistent (s : State) : Prop where
  finished : ∀ r ∈ s.renders, Seen s r renderLoads
  ordered : s.renders.Pairwise fun r r' => ∀ l : Load, l.read r.seen ≤ l.read r'.seen
  scrape : ∀ r n, s.scrape = some (r, n) → n < renderLoads.length ∧
    Seen s r (renderLoads.take n) ∧
    ∀ l ∈ renderLoads.take n, ∀ r' ∈ s.renders, l.read r'.seen ≤ l.read r.seen

/-- A step of a thread that does not render. -/
theorem Consistent.grows {s s' : State} (h : Consistent s) (hgrows : Grows s s')
    (hscrape : s'.scrape = s.scrape) (hrenders : s'.renders = s.renders) : Consistent s' where
  finished r hr := (h.finished r (hrenders ▸ hr)).grows hgrows
  ordered := hrenders ▸ h.ordered
  scrape r n hrn := by
    obtain ⟨hlt, hseen, hlater⟩ := h.scrape r n (hscrape ▸ hrn)
    exact ⟨hlt, hseen.grows hgrows, by rwa [hrenders]⟩

theorem Consistent.render {s : State} (h : Consistent s) :
    Consistent { s with scrape := some (⟨s.g.unseen, s.observed, s.observed⟩, 0) } where
  finished r hr := (h.finished r hr).grows (grows_render s _ _)
  ordered := h.ordered
  scrape r n hrn := by
    cases hrn
    refine ⟨by decide, ⟨rfl, List.prefix_refl _, List.prefix_refl _, ?_, ?_⟩, ?_⟩
    · simp
    · simp
    · simp

section Load

variable {s : State} {r : Render} {n : ℕ} {l : Load}

/-- A load finds at least what every finished render has found. -/
theorem Consistent.read_load (h : Consistent s) (hscrape : s.scrape = some (r, n))
    (hl : renderLoads[n]? = some l) (hread : ∀ l, l.read s.g = s.amount l) {l' : Load}
    (hl' : l' ∈ renderLoads.take (n + 1)) {r' : Render} (hr' : r' ∈ s.renders) :
    l'.read r'.seen ≤ l'.read (r.load l s.g s.observed).seen := by
  by_cases hne : l' = l
  · rw [hne, read_load_self, hread]
    exact (h.finished r' hr').amount l (mem_renderLoads l)
  · obtain ⟨_, _, hlater⟩ := h.scrape r n hscrape
    rw [read_load_of_ne hne]
    exact hlater l' (((mem_take_succ hl).mp hl').resolve_left hne) r' hr'

theorem Consistent.load (h : Consistent s) (hscrape : s.scrape = some (r, n))
    (hl : renderLoads[n]? = some l) (hread : ∀ l, l.read s.g = s.amount l)
    (hnext : n + 1 < renderLoads.length) :
    Consistent { s with scrape := some (r.load l s.g s.observed, n + 1) } where
  finished r hr := (h.finished r hr).grows (grows_render s _ _)
  ordered := h.ordered
  scrape r' n' hrn := by
    cases hrn
    obtain ⟨_, hseen, _⟩ := h.scrape r n hscrape
    exact ⟨hnext, (hseen.load hl hread).grows (grows_render s _ _),
      fun l' hl' r' hr' => h.read_load hscrape hl hread hl' hr'⟩

/-- The last load. -/
theorem Consistent.finish (h : Consistent s) (hscrape : s.scrape = some (r, n))
    (hl : renderLoads[n]? = some l) (hread : ∀ l, l.read s.g = s.amount l)
    (hlast : ¬n + 1 < renderLoads.length) :
    Consistent { s with
      scrape := none, renders := s.renders ++ [r.load l s.g s.observed] } := by
  obtain ⟨_, hseen, _⟩ := h.scrape r n hscrape
  have hall : renderLoads.take (n + 1) = renderLoads :=
    List.take_of_length_le (Nat.le_of_not_lt hlast)
  have hload := hseen.load hl hread
  rw [hall] at hload
  refine ⟨?_, ?_, fun r' n' hrn => by cases hrn⟩
  · intro r' hr'
    rcases List.mem_append.mp hr' with hold | hnew
    · exact (h.finished r' hold).grows (grows_render s _ _)
    · rw [List.mem_singleton.mp hnew]
      exact hload.grows (grows_render s _ _)
  · refine List.pairwise_append.mpr ⟨h.ordered, List.pairwise_singleton _ _, ?_⟩
    intro r' hr' r'' hr'' l'
    rw [List.mem_singleton.mp hr'']
    refine h.read_load hscrape hl hread ?_ hr'
    rw [hall]
    exact mem_renderLoads l'

end Load

/-- What a step can be: an update by a thread that does not render, the start of a
render, or one of its loads. -/
theorem step_cases {s s' : State} {a : Label} (h : s.step a = some s') :
    Grows s s' ∧ s'.scrape = s.scrape ∧ s'.renders = s.renders ∨
    s' = { s with scrape := some (⟨s.g.unseen, s.observed, s.observed⟩, 0) } ∨
    ∃ r n l, s.scrape = some (r, n) ∧ renderLoads[n]? = some l ∧
      (n + 1 < renderLoads.length ∧
          s' = { s with scrape := some (r.load l s.g s.observed, n + 1) } ∨
        ¬n + 1 < renderLoads.length ∧ s' = { s with
          scrape := none, renders := s.renders ++ [r.load l s.g s.observed] }) := by
  cases a with
  | acceptedAdd =>
      cases h
      exact .inl ⟨⟨rfl, List.prefix_refl _, Nat.le_succ _, le_refl _⟩, rfl, rfl⟩
  | refusedAdd =>
      cases h
      exact .inl ⟨⟨rfl, List.prefix_refl _, le_refl _, Nat.le_succ _⟩, rfl, rfl⟩
  | activeAdd delta | queueDepthSet depth | workersBusyAdd delta =>
      cases h
      exact .inl ⟨⟨rfl, List.prefix_refl _, le_refl _, le_refl _⟩, rfl, rfl⟩
  | bucketAdd d =>
      cases h
      exact .inl ⟨⟨rfl, List.prefix_append _ _, le_refl _, le_refl _⟩, rfl, rfl⟩
  | sumAdd d =>
      simp only [State.step, Option.ite_none_right_eq_some, Option.some.injEq] at h
      obtain ⟨_, rfl⟩ := h
      exact .inl ⟨⟨rfl, List.prefix_refl _, le_refl _, le_refl _⟩, rfl, rfl⟩
  | render =>
      simp only [State.step] at h
      split at h
      · cases h
        exact .inr (.inl rfl)
      · cases h
  | load =>
      simp only [State.step] at h
      split at h
      · cases h
      · rename_i r n hscrape
        split at h
        · cases h
        · rename_i l hl
          refine .inr (.inr ⟨r, n, l, hscrape, hl, ?_⟩)
          split at h
          · cases h
            exact .inl ⟨‹_›, rfl⟩
          · cases h
            exact .inr ⟨‹_›, rfl⟩

theorem Consistent.step {s s' : State} {a : Label} (hcounted : Counted s)
    (h : Small s → Consistent s) (hs : s.step a = some s') (hsmall : Small s') :
    Consistent s' := by
  rcases step_cases hs with ⟨hgrows, hscrape, hrenders⟩ | rfl |
    ⟨r, n, l, hscrape, hl, ⟨hnext, rfl⟩ | ⟨hlast, rfl⟩⟩
  · exact (h (hsmall.of_grows hgrows)).grows hgrows hscrape hrenders
  · exact (h (hsmall.of_grows (grows_render s _ _))).render
  · have hbefore := hsmall.of_grows (grows_render s _ _)
    exact (h hbefore).load hscrape hl (hcounted.read hbefore) hnext
  · have hbefore := hsmall.of_grows (grows_render s _ _)
    exact (h hbefore).finish hscrape hl (hcounted.read hbefore) hlast

theorem reachable_consistent {s : State} (h : registry.Reachable s) (hsmall : Small s) :
    Consistent s := by
  refine Machine.Reachable.invariant (P := fun s => Small s → Consistent s) ?_ ?_ h hsmall
  · rintro _ ⟨g, model, rfl⟩ _
    exact ⟨by simp [State.start], List.Pairwise.nil, by simp [State.start]⟩
  · intro s a s' hreach hs hstep
    exact Consistent.step (reachable_counted hreach) hs hstep

/-! ## The numbers in the texts -/

/-- A number in the text of a render, found by its name and its bound. -/
def Render.series (r : Render) (key : List UInt8 × Option (List UInt8)) : Option ℕ :=
  ((parse (exposition r.seen)).bind fun ss => find ss key).bind parseNat

/-- The series that are never reset: two counters, the number of durations, and the
buckets. -/
def monotoneKeys : List (List UInt8 × Option (List UInt8)) :=
  [(acceptedName, none), (refusedName, none), (countName, none)] ++
    (List.finRange (bucketCount + 1)).map fun i => (bucketName, some (bucketLabel i))

theorem series_eq {r : Render} (hmodel : Plain r.seen.modelLabel)
    {key : List UInt8 × Option (List UInt8)} {n : ℕ}
    (hfind : find (samples r.seen) key = some (decimal n)) : r.series key = some n := by
  rw [Render.series, parse_exposition r.seen hmodel, Option.bind_some, hfind, Option.bind_some,
    Text.parseNat_decimal]

theorem find_accepted (g : Registry) :
    find (samples g) (acceptedName, none) = some (decimal g.accepted.toNat) :=
  find_of_mem (keys_nodup g) (s := ⟨acceptedName, g.modelLabel, none, decimal g.accepted.toNat⟩)
    (by simp [samples])

theorem find_refused (g : Registry) :
    find (samples g) (refusedName, none) = some (decimal g.refused.toNat) :=
  find_of_mem (keys_nodup g) (s := ⟨refusedName, g.modelLabel, none, decimal g.refused.toNat⟩)
    (by simp [samples])

theorem countBelow_mono {c c' : Fin (bucketCount + 1) → ℕ} (h : ∀ i, c i ≤ c' i) (k : ℕ) :
    countBelow c k ≤ countBelow c' k :=
  Finset.sum_le_sum fun i _ => h i

theorem countBelow_le_of_le (c : Fin (bucketCount + 1) → ℕ) {k k' : ℕ} (h : k ≤ k') :
    countBelow c k ≤ countBelow c k' := by
  refine Finset.sum_le_sum_of_subset fun i hi => ?_
  rw [Finset.mem_filter] at hi ⊢
  exact ⟨hi.1, hi.2.trans_le h⟩

/-- The buckets of a render, added up. -/
def Render.below (r : Render) (k : ℕ) : ℕ :=
  countBelow (fun i => (r.seen.latencyCount i).toNat) k

section Finished

variable {s : State} {r : Render}

theorem Seen.plain (h : Seen s r renderLoads) (hcounted : Counted s) :
    Plain r.seen.modelLabel := by
  have hlabel : r.seen.modelLabel = s.g.modelLabel := by
    rw [Registry.modelLabel, Registry.modelLabel, h.model]
  rw [hlabel]
  exact hcounted.model

theorem Seen.latencyCount (h : Seen s r renderLoads) (i : Fin (bucketCount + 1)) :
    inBucket r.first i ≤ (r.seen.latencyCount i).toNat ∧
      (r.seen.latencyCount i).toNat ≤ inBucket r.last i :=
  h.buckets i (mem_renderLoads _)

theorem Seen.toNat_cumulative (h : Seen s r renderLoads) (hsmall : Small s) {k : ℕ}
    (hk : k ≤ bucketCount + 1) : (cumulative r.seen k).toNat = r.below k := by
  refine Metrics.toNat_cumulative r.seen ?_ hk
  calc ∑ i, (r.seen.latencyCount i).toNat
      ≤ ∑ i, inBucket r.last i := Finset.sum_le_sum fun i _ => (h.latencyCount i).2
    _ = r.last.length := sum_inBucket r.last
    _ ≤ s.observed.length := h.last.length_le
    _ < 2 ^ 64 := hsmall.observed

theorem Seen.below_bounds (h : Seen s r renderLoads) {k : ℕ} (hk : k ≤ bucketCount) :
    r.first.countP (Within k) ≤ r.below (k + 1) ∧ r.below (k + 1) ≤ r.last.countP (Within k) := by
  rw [← countBelow_inBucket r.first hk, ← countBelow_inBucket r.last hk]
  exact ⟨countBelow_mono (fun i => (h.latencyCount i).1) _,
    countBelow_mono (fun i => (h.latencyCount i).2) _⟩

theorem Seen.series_bucket (h : Seen s r renderLoads) (hcounted : Counted s) (hsmall : Small s)
    (i : Fin (bucketCount + 1)) :
    r.series (bucketName, some (bucketLabel i)) = some (r.below (i + 1)) := by
  rw [← h.toNat_cumulative hsmall i.isLt]
  exact series_eq (h.plain hcounted) (find_bucketSample r.seen i)

theorem Seen.series_count (h : Seen s r renderLoads) (hcounted : Counted s) (hsmall : Small s) :
    r.series (countName, none) = some (r.below (bucketCount + 1)) := by
  rw [← h.toNat_cumulative hsmall (le_refl _)]
  exact series_eq (h.plain hcounted) (find_count r.seen)

/-- The number of each of the series is a monotone function of the counters. -/
theorem Seen.exists_series_le (h : Seen s r renderLoads) {r' : Render}
    (h' : Seen s r' renderLoads) (hcounted : Counted s) (hsmall : Small s)
    (hle : ∀ l : Load, l.read r.seen ≤ l.read r'.seen)
    {key : List UInt8 × Option (List UInt8)} (hkey : key ∈ monotoneKeys) :
    ∃ n n', r.series key = some n ∧ r'.series key = some n' ∧ n ≤ n' := by
  have hbelow : ∀ k, r.below k ≤ r'.below k :=
    countBelow_mono fun i => hle (.latencyCount i)
  simp only [monotoneKeys, List.mem_append, List.mem_cons, List.not_mem_nil, or_false,
    List.mem_map] at hkey
  rcases hkey with (rfl | rfl | rfl) | ⟨i, _, rfl⟩
  · exact ⟨_, _, series_eq (h.plain hcounted) (find_accepted r.seen),
      series_eq (h'.plain hcounted) (find_accepted r'.seen), hle .accepted⟩
  · exact ⟨_, _, series_eq (h.plain hcounted) (find_refused r.seen),
      series_eq (h'.plain hcounted) (find_refused r'.seen), hle .refused⟩
  · exact ⟨_, _, h.series_count hcounted hsmall, h'.series_count hcounted hsmall, hbelow _⟩
  · exact ⟨_, _, h.series_bucket hcounted hsmall i, h'.series_bucket hcounted hsmall i, hbelow _⟩

end Finished

/-! ## Renders that are not disturbed -/

section Undisturbed

variable {s : State} {r : Render} {n : ℕ}

/-- What loads in a row do. -/
def Render.loads (r : Render) (s : State) (ls : List Load) : Render :=
  ls.foldl (fun r l => r.load l s.g s.observed) r

theorem seen_loads (r : Render) (s : State) (ls : List Load) :
    (r.loads s ls).seen = ls.foldl (fun seen l => l.copy s.g seen) r.seen := by
  induction ls generalizing r with
  | nil => rfl
  | cons l ls ih => exact ih (r.load l s.g s.observed)

theorem first_loads (r : Render) (s : State) (ls : List Load) :
    (r.loads s ls).first = if ls.any Load.opens then s.observed else r.first := by
  induction ls generalizing r with
  | nil => rfl
  | cons l ls ih =>
      refine (ih (r.load l s.g s.observed)).trans ?_
      cases hl : l.opens <;> simp [Render.load, hl]

theorem last_loads (r : Render) (s : State) (ls : List Load) :
    (r.loads s ls).last = if ls.any Load.closes then s.observed else r.last := by
  induction ls generalizing r with
  | nil => rfl
  | cons l ls ih =>
      refine (ih (r.load l s.g s.observed)).trans ?_
      cases hl : l.closes <;> simp [Render.load, hl]

/-- Loads that do not finish the render. -/
theorem run_loads {k : ℕ} (hk : n + k < renderLoads.length) (hscrape : s.scrape = some (r, n)) :
    registry.run s (List.replicate k .load) =
      some { s with scrape := some (r.loads s ((renderLoads.drop n).take k), n + k) } := by
  induction k generalizing s r n with
  | zero =>
      rw [Nat.add_zero, List.take_zero]
      exact congrArg some (by rw [Render.loads, List.foldl_nil, ← hscrape])
  | succ k ih =>
      have hn : n < renderLoads.length := by omega
      have hstep : registry.step s .load =
          some { s with scrape := some (r.load renderLoads[n] s.g s.observed, n + 1) } := by
        have hnext : n + 1 < renderLoads.length := by omega
        simp only [registry, State.step, hscrape, List.getElem?_eq_getElem hn, if_pos hnext]
      have hrest : n + 1 + k < renderLoads.length := by omega
      rw [List.replicate_succ, Machine.run, hstep, Option.bind_some, ih hrest rfl,
        List.drop_eq_getElem_cons hn, List.take_succ_cons]
      simp only [Render.loads, List.foldl_cons, Nat.add_right_comm n 1 k, Nat.add_assoc]

theorem run_finish {k : ℕ} (hk : n + k + 1 = renderLoads.length)
    (hscrape : s.scrape = some (r, n)) :
    registry.run s (List.replicate (k + 1) .load) = some { s with
      scrape := none, renders := s.renders ++ [r.loads s (renderLoads.drop n)] } := by
  have hlt : n + k < renderLoads.length := by omega
  have hlast : ¬n + k + 1 < renderLoads.length := by omega
  have hlen : k < (renderLoads.drop n).length := by
    rw [List.length_drop]
    omega
  have hall : renderLoads.drop n = (renderLoads.drop n).take k ++ [renderLoads[n + k]] := by
    have htake := List.take_succ_eq_append_getElem hlen
    rwa [List.take_of_length_le (by rw [List.length_drop]; omega), List.getElem_drop] at htake
  have hloads : r.loads s (renderLoads.drop n) =
      (r.loads s ((renderLoads.drop n).take k)).load renderLoads[n + k] s.g s.observed := by
    nth_rewrite 1 [hall]
    rw [Render.loads, List.foldl_append]
    rfl
  rw [List.replicate_succ', hloads]
  refine Machine.run_append (run_loads hlt hscrape) ?_
  simp only [Machine.run, registry, State.step, List.getElem?_eq_getElem hlt, if_neg hlast,
    Option.bind_some]

end Undisturbed

/-- If nothing changes meanwhile, the text is the one of the registry. -/
theorem exists_run_render {s : State} (hscrape : s.scrape = none) :
    ∃ r, r.seen = s.g ∧ registry.run s (.render :: List.replicate 17 .load) =
      some { s with scrape := none, renders := s.renders ++ [r] } := by
  have hstep : registry.step s .render =
      some { s with scrape := some (⟨s.g.unseen, s.observed, s.observed⟩, 0) } := by
    simp only [registry, State.step, hscrape]
  refine ⟨_, ?_, by rw [Machine.run, hstep, Option.bind_some, run_finish (n := 0) rfl rfl]⟩
  exact (seen_loads _ _ _).trans (foldl_copy _ _ rfl)

theorem run_acceptedAdd (n : ℕ) (s : State) :
    registry.run s (List.replicate n .acceptedAdd) = some { s with
      g := { s.g with accepted := s.g.accepted + UInt64.ofNat n }
      acceptedTotal := s.acceptedTotal + n } := by
  induction n generalizing s with
  | zero => simp [Machine.run]
  | succ n ih =>
      have hstep : registry.step s .acceptedAdd =
        some { s with g := s.g.acceptedAdd, acceptedTotal := s.acceptedTotal + 1 } := rfl
      rw [List.replicate_succ, Machine.run, hstep, Option.bind_some, ih]
      simp only [Registry.acceptedAdd, UInt64.ofNat_add, Nat.add_comm n 1, UInt64.add_assoc,
        Nat.add_assoc]
      rfl

/-- A duration is counted in the first bucket when that bucket has been loaded. -/
theorem exists_run_late {s : State} (hscrape : s.scrape = none) (d : UInt64) :
    ∃ r, r.first = s.observed ∧ r.last = s.observed ++ [d] ∧
      registry.run s (.render :: (List.replicate 6 .load ++
        .bucketAdd d :: List.replicate 11 .load)) = some { s with
          g := s.g.bucketAdd (bucketIndex d)
          inFlight := d ::ₘ s.inFlight
          observed := s.observed ++ [d]
          scrape := none
          renders := s.renders ++ [r] } := by
  have hstep : registry.step s .render =
      some { s with scrape := some (⟨s.g.unseen, s.observed, s.observed⟩, 0) } := by
    simp only [registry, State.step, hscrape]
  obtain ⟨r, hfirst, hsix⟩ : ∃ r : Render, r.first = s.observed ∧
      registry.run { s with scrape := some (⟨s.g.unseen, s.observed, s.observed⟩, 0) }
        (List.replicate 6 .load) = some { s with scrape := some (r, 6) } :=
    ⟨_, first_loads _ _ _, run_loads (n := 0) (by decide) rfl⟩
  have hrest := run_finish (s := { s with
    g := s.g.bucketAdd (bucketIndex d)
    inFlight := d ::ₘ s.inFlight
    observed := s.observed ++ [d]
    scrape := some (r, 6) }) (r := r) (n := 6) (k := 10) rfl rfl
  refine ⟨r.loads { s with
    g := s.g.bucketAdd (bucketIndex d)
    inFlight := d ::ₘ s.inFlight
    observed := s.observed ++ [d]
    scrape := some (r, 6) } (renderLoads.drop 6), (first_loads _ _ _).trans hfirst,
    last_loads _ _ _, ?_⟩
  rw [Machine.run, hstep, Option.bind_some]
  exact Machine.run_append hsix hrest

/-- What the texts of all renders say, if no counter has wrapped. -/
theorem renders_consistent {s : State} (h : registry.Reachable s)
    (hobserved : s.observed.length < 2 ^ 64) (haccepted : s.acceptedTotal < 2 ^ 64)
    (hrefused : s.refusedTotal < 2 ^ 64) :
    (∀ r ∈ s.renders, ∃ b : Fin (bucketCount + 1) → ℕ,
      (∀ i, r.series (bucketName, some (bucketLabel i)) = some (b i)) ∧ Monotone b ∧
      r.series (bucketName, some (ascii "+Inf")) = r.series (countName, none) ∧
      ∀ i : Fin (bucketCount + 1),
        r.first.countP (Within i) ≤ b i ∧ b i ≤ r.last.countP (Within i)) ∧
    s.renders.Pairwise fun r r' => ∀ key ∈ monotoneKeys,
      ∃ n n', r.series key = some n ∧ r'.series key = some n' ∧ n ≤ n' := by
  have hcounted := reachable_counted h
  have hsmall : Small s := ⟨hobserved, haccepted, hrefused⟩
  have hconsistent := reachable_consistent h hsmall
  constructor
  · intro r hr
    have hseen := hconsistent.finished r hr
    refine ⟨fun i => r.below (i + 1), hseen.series_bucket hcounted hsmall, ?_, ?_, ?_⟩
    · intro i j hij
      exact countBelow_le_of_le _ (Nat.succ_le_succ hij)
    · rw [hseen.series_count hcounted hsmall]
      exact hseen.series_bucket hcounted hsmall (Fin.last bucketCount)
    · exact fun i => hseen.below_bounds (Nat.le_of_lt_succ i.isLt)
  · refine hconsistent.ordered.imp_of_mem ?_
    intro r r' hr hr' hle key hkey
    exact (hconsistent.finished r hr).exists_series_le (hconsistent.finished r' hr') hcounted
      hsmall hle hkey

/-- The second render finds what the first has missed. -/
theorem renders_consistent_late :
    ∃ s r r', registry.Reachable s ∧ s.renders = [r, r'] ∧ r.first = [] ∧ r.last = [20] ∧
      (∃ b : Fin (bucketCount + 1) → ℕ, r.series (countName, none) = some (b (Fin.last _)) ∧
        b 0 ≤ 1) ∧
      ∃ n n', r.series (countName, none) = some n ∧ r'.series (countName, none) = some n' ∧
        n ≤ n' := by
  obtain ⟨r, hfirst, hlast, hrun⟩ := exists_run_late (s := .start zeroRegistry none) rfl 20
  obtain ⟨r', _, hrun'⟩ := exists_run_render (s := { State.start zeroRegistry none with
    g := (State.start zeroRegistry none).g.bucketAdd (bucketIndex 20)
    inFlight := 20 ::ₘ 0
    observed := [20]
    renders := [r] }) rfl
  have hreach := Machine.reachable_of_run (M := registry) _ ⟨zeroRegistry, none, rfl⟩
    (Machine.run_append hrun hrun')
  obtain ⟨hrenders, hpairwise⟩ := renders_consistent hreach
    (show 1 < 2 ^ 64 by decide) (show 0 < 2 ^ 64 by decide) (show 0 < 2 ^ 64 by decide)
  obtain ⟨b, hb, _, hinf, hbounds⟩ := hrenders r List.mem_cons_self
  refine ⟨_, r, r', hreach, rfl, hfirst, hlast, ⟨b, hinf.symm.trans (hb (Fin.last _)), ?_⟩, ?_⟩
  · have hle := (hbounds 0).2
    rw [hlast] at hle
    exact hle
  · exact List.rel_of_pairwise_cons hpairwise List.mem_cons_self (countName, none) (by decide)

/-- One connection before the first render, `n` before the second. -/
theorem exists_run_accepted (n : ℕ) :
    ∃ s r r', registry.Reachable s ∧ s.observed = [] ∧ s.renders = [r, r'] ∧
      r.series (acceptedName, none) = some 1 ∧
      r'.series (acceptedName, none) = some (1 + UInt64.ofNat n).toNat := by
  have hplain : Plain (metricsInit zeroRegistry none).modelLabel :=
    (counted_start zeroRegistry none).model
  have hone := run_acceptedAdd 1 (.start zeroRegistry none)
  obtain ⟨r, hseen, hrender⟩ := exists_run_render (s := { State.start zeroRegistry none with
    g := { metricsInit zeroRegistry none with accepted := 0 + UInt64.ofNat 1 }
    acceptedTotal := 0 + 1 }) rfl
  have hmore := run_acceptedAdd n { State.start zeroRegistry none with
    g := { metricsInit zeroRegistry none with accepted := 0 + UInt64.ofNat 1 }
    acceptedTotal := 0 + 1
    renders := [] ++ [r] }
  obtain ⟨r', hseen', hrender'⟩ := exists_run_render (s := { State.start zeroRegistry none with
    g := { metricsInit zeroRegistry none with accepted := 0 + UInt64.ofNat 1 + UInt64.ofNat n }
    acceptedTotal := 0 + 1 + n
    renders := [] ++ [r] }) rfl
  have hrun := Machine.run_append (Machine.run_append (Machine.run_append hone hrender) hmore)
    hrender'
  refine ⟨_, r, r', Machine.reachable_of_run (M := registry) _ ⟨zeroRegistry, none, rfl⟩ hrun, rfl,
    rfl, ?_, ?_⟩
  · refine series_eq (by rw [hseen]; exact hplain) ?_
    rw [find_accepted, hseen]
    rfl
  · refine series_eq (by rw [hseen']; exact hplain) ?_
    rw [find_accepted, hseen']
    rfl

/-- Nothing bounds the number of connections. After `2 ^ 64` of them the later
render shows less. -/
theorem accepted_falls :
    ∃ s r r', registry.Reachable s ∧ s.observed.length < 2 ^ 64 ∧ s.renders = [r, r'] ∧
      r.series (acceptedName, none) = some 1 ∧ r'.series (acceptedName, none) = some 0 := by
  obtain ⟨s, r, r', hreach, hobserved, hrenders, hfirst, hsecond⟩ :=
    exists_run_accepted (2 ^ 64 - 1)
  refine ⟨s, r, r', hreach, ?_, hrenders, hfirst, hsecond⟩
  rw [hobserved]
  decide

end ConcurrentServers.Metrics

import ConcurrentServers.Metrics.Exposition
import ConcurrentServers.Library.Machine
import Mathlib.Data.Multiset.AddSub
import Mathlib.Algebra.BigOperators.Group.Multiset.Basic
import Mathlib.Algebra.Order.Group.Multiset

/-!
# Threads that update the registry, and one that renders it

Every atomic operation is a step, in one total order. Any number of threads
observe durations, so between the two updates of `metrics_request_observed`
there can be any number of others. A render loads the counters one after the
other, and its text is the one of a registry that holds what it has loaded.
-/

namespace ConcurrentServers.Metrics

open Systems

/-! ## The loads of a render -/

inductive Load where
  | accepted
  | refused
  | active
  | queueDepth
  | workersBusy
  | latencyCount (i : Fin (bucketCount + 1))
  | latencySumNs
  deriving DecidableEq, Repr

/-- In the order in which `metrics_render` makes them. -/
def renderLoads : List Load :=
  [.accepted, .refused, .active, .queueDepth, .workersBusy] ++
    (List.finRange (bucketCount + 1)).map .latencyCount ++ [.latencySumNs]

/-- Copy one value from the registry to what a render has seen. -/
def Load.copy (l : Load) (g seen : Registry) : Registry :=
  match l with
  | .accepted => { seen with accepted := g.accepted }
  | .refused => { seen with refused := g.refused }
  | .active => { seen with active := g.active }
  | .queueDepth => { seen with queueDepth := g.queueDepth }
  | .workersBusy => { seen with workersBusy := g.workersBusy }
  | .latencyCount i =>
      { seen with latencyCount := Function.update seen.latencyCount i (g.latencyCount i) }
  | .latencySumNs => { seen with latencySumNs := g.latencySumNs }

theorem foldl_copy_latencyCount (g : Registry) (is : List (Fin (bucketCount + 1)))
    (seen : Registry) :
    (is.map Load.latencyCount).foldl (fun seen l => l.copy g seen) seen = { seen with
      latencyCount := fun j => if j ∈ is then g.latencyCount j else seen.latencyCount j } := by
  induction is generalizing seen with
  | nil => simp
  | cons i is ih =>
      rw [List.map_cons, List.foldl_cons, ih]
      simp only [Load.copy]
      congr 1
      funext j
      by_cases hj : j ∈ is
      · simp [hj]
      · by_cases hji : j = i
        · simp [hji]
        · simp [hj, hji]

/-- If nothing changes, a render sees the registry as it is. -/
theorem foldl_copy (g seen : Registry) (hmodel : seen.model = g.model) :
    renderLoads.foldl (fun seen l => l.copy g seen) seen = g := by
  rw [renderLoads, List.foldl_append, List.foldl_append, foldl_copy_latencyCount]
  simp [Load.copy, hmodel]

/-- The load is not behind the first load of a bucket. -/
def Load.opens : Load → Bool
  | .latencyCount i => i.val = 0
  | .latencySumNs => false
  | _ => true

/-- The load is not behind the last load of a bucket. -/
def Load.closes : Load → Bool
  | .latencySumNs => false
  | _ => true

/-- What a render has seen. The last two fields are not in the source. They record
the durations that were counted before the first and before the last load of a
bucket. -/
structure Render where
  seen : Registry
  first : List UInt64
  last : List UInt64

def Render.load (r : Render) (l : Load) (g : Registry) (observed : List UInt64) : Render where
  seen := l.copy g r.seen
  first := if l.opens then observed else r.first
  last := if l.closes then observed else r.last

/-! ## The threads -/

/-- `inFlight` are the durations that are between the two updates of
`metrics_request_observed`. A render under way is with the number of its loads.
The fields from `observed` on are not in the source. They record the durations
that were counted in a bucket, the updates of two counters, and the renders that
are finished. -/
structure State where
  g : Registry
  inFlight : Multiset UInt64
  scrape : Option (Render × ℕ)
  observed : List UInt64
  acceptedTotal : ℕ
  refusedTotal : ℕ
  renders : List Render

inductive Label where
  | acceptedAdd
  | refusedAdd
  | activeAdd (delta : Int64)
  | queueDepthSet (depth : UInt64)
  | workersBusyAdd (delta : Int64)
  | bucketAdd (durationNs : UInt64)
  | sumAdd (durationNs : UInt64)
  | render
  | load

/-- The registry as a render finds it before its first load. -/
def Registry.unseen (g : Registry) : Registry := ⟨g.model, 0, 0, 0, 0, 0, fun _ => 0, 0⟩

def State.step (s : State) : Label → Option State
  | .acceptedAdd =>
      some { s with g := s.g.acceptedAdd, acceptedTotal := s.acceptedTotal + 1 }
  | .refusedAdd => some { s with g := s.g.refusedAdd, refusedTotal := s.refusedTotal + 1 }
  | .activeAdd delta => some { s with g := s.g.activeAdd delta }
  | .queueDepthSet depth => some { s with g := metricsQueueDepthSet s.g depth }
  | .workersBusyAdd delta => some { s with g := metricsWorkersBusyAdd s.g delta }
  | .bucketAdd d =>
      some { s with
        g := s.g.bucketAdd (bucketIndex d)
        inFlight := d ::ₘ s.inFlight
        observed := s.observed ++ [d] }
  | .sumAdd d =>
      if d ∈ s.inFlight then some { s with g := s.g.sumAdd d, inFlight := s.inFlight.erase d }
      else none
  | .render =>
      match s.scrape with
      | none => some { s with scrape := some (⟨s.g.unseen, s.observed, s.observed⟩, 0) }
      | some _ => none
  | .load =>
      match s.scrape with
      | none => none
      | some (r, n) =>
          match renderLoads[n]? with
          | none => none
          | some l =>
              let r := r.load l s.g s.observed
              if n + 1 < renderLoads.length then some { s with scrape := some (r, n + 1) }
              else some { s with scrape := none, renders := s.renders ++ [r] }

/-- Before anything else happens after `metrics_init`. -/
def State.start (g : Registry) (model : Option (List UInt8)) : State where
  g := metricsInit g model
  inFlight := 0
  scrape := none
  observed := []
  acceptedTotal := 0
  refusedTotal := 0
  renders := []

def registry : Machine State Label where
  init s := ∃ g model, s = State.start g model
  step := State.step

/-- The functions of `metrics.c`, when nothing comes between their updates. -/
theorem run_updates (s : State) :
    registry.run s [.acceptedAdd, .activeAdd 1] = some { s with
      g := metricsConnectionAccepted s.g, acceptedTotal := s.acceptedTotal + 1 } ∧
    registry.run s [.refusedAdd] = some { s with
      g := metricsConnectionRefused s.g, refusedTotal := s.refusedTotal + 1 } ∧
    registry.run s [.activeAdd (-1)] = some { s with g := metricsConnectionClosed s.g } ∧
    ∀ d, registry.run s [.bucketAdd d, .sumAdd d] = some { s with
      g := metricsRequestObserved s.g d, observed := s.observed ++ [d] } := by
  refine ⟨rfl, rfl, rfl, fun d => ?_⟩
  simp [Machine.run, registry, State.step, metricsRequestObserved]

/-! ## What the counters are -/

/-- How many durations fall into a bucket. -/
def inBucket (ds : List UInt64) (i : Fin (bucketCount + 1)) : ℕ :=
  ds.countP fun d => bucketIndex d = i

def nanoseconds (ds : Multiset UInt64) : ℕ := (ds.map UInt64.toNat).sum

/-- The counters hold what has happened, up to a wrap. -/
structure Counted (s : State) : Prop where
  model : Plain s.g.modelLabel
  accepted : s.g.accepted = UInt64.ofNat s.acceptedTotal
  refused : s.g.refused = UInt64.ofNat s.refusedTotal
  latencyCount : ∀ i, s.g.latencyCount i = UInt64.ofNat (inBucket s.observed i)
  latencySumNs : (s.g.latencySumNs.toNat + nanoseconds s.inFlight) % 2 ^ 64 =
    nanoseconds s.observed % 2 ^ 64

theorem counted_start (g : Registry) (model : Option (List UInt8)) :
    Counted (State.start g model) where
  model := by
    change Plain (metricsInit g model).modelLabel
    rw [modelLabel_metricsInit]
    exact (validLabel_label model).plain
  accepted := rfl
  refused := rfl
  latencyCount _ := rfl
  latencySumNs := rfl

theorem inBucket_append (ds : List UInt64) (d : UInt64) (i : Fin (bucketCount + 1)) :
    inBucket (ds ++ [d]) i = inBucket ds i + if bucketIndex d = i then 1 else 0 := by
  simp [inBucket, List.countP_append, List.countP_singleton]

theorem Counted.bucketAdd {s : State} (h : Counted s) (d : UInt64) :
    Counted { s with
      g := s.g.bucketAdd (bucketIndex d)
      inFlight := d ::ₘ s.inFlight
      observed := s.observed ++ [d] } where
  model := h.model
  accepted := h.accepted
  refused := h.refused
  latencyCount i := by
    rw [inBucket_append]
    by_cases hi : bucketIndex d = i
    · subst hi
      simp [Registry.bucketAdd, h.latencyCount, UInt64.ofNat_add]
    · simp [Registry.bucketAdd, Function.update_of_ne (Ne.symm hi), h.latencyCount, hi]
  latencySumNs := by
    have hold := h.latencySumNs
    have hflight : nanoseconds (d ::ₘ s.inFlight) = d.toNat + nanoseconds s.inFlight := by
      simp [nanoseconds]
    have hobserved : nanoseconds (s.observed ++ [d] : List UInt64) =
        nanoseconds s.observed + d.toNat := by
      simp [nanoseconds]
    rw [hflight, hobserved]
    change (s.g.latencySumNs.toNat + _) % _ = _
    omega

theorem Counted.sumAdd {s : State} (h : Counted s) {d : UInt64} (hd : d ∈ s.inFlight) :
    Counted { s with g := s.g.sumAdd d, inFlight := s.inFlight.erase d } where
  model := h.model
  accepted := h.accepted
  refused := h.refused
  latencyCount := h.latencyCount
  latencySumNs := by
    have hold := h.latencySumNs
    have hflight : nanoseconds s.inFlight = d.toNat + nanoseconds (s.inFlight.erase d) := by
      nth_rewrite 1 [← Multiset.cons_erase hd]
      simp [nanoseconds]
    change ((s.g.latencySumNs + d).toNat + nanoseconds (s.inFlight.erase d)) % _ =
      nanoseconds s.observed % _
    rw [UInt64.toNat_add]
    omega

theorem Counted.step {s s' : State} {l : Label} (h : Counted s) (hs : s.step l = some s') :
    Counted s' := by
  cases l with
  | acceptedAdd =>
      cases hs
      refine ⟨h.model, ?_, h.refused, h.latencyCount, h.latencySumNs⟩
      simp [Registry.acceptedAdd, h.accepted, UInt64.ofNat_add]
  | refusedAdd =>
      cases hs
      refine ⟨h.model, h.accepted, ?_, h.latencyCount, h.latencySumNs⟩
      simp [Registry.refusedAdd, h.refused, UInt64.ofNat_add]
  | activeAdd delta | queueDepthSet depth | workersBusyAdd delta =>
      cases hs
      exact ⟨h.model, h.accepted, h.refused, h.latencyCount, h.latencySumNs⟩
  | bucketAdd d =>
      cases hs
      exact h.bucketAdd d
  | sumAdd d =>
      simp only [State.step, Option.ite_none_right_eq_some, Option.some.injEq] at hs
      obtain ⟨hd, rfl⟩ := hs
      exact h.sumAdd hd
  | render =>
      simp only [State.step] at hs
      split at hs
      · cases hs
        exact ⟨h.model, h.accepted, h.refused, h.latencyCount, h.latencySumNs⟩
      · cases hs
  | load =>
      simp only [State.step] at hs
      split at hs
      · cases hs
      · split at hs
        · cases hs
        · split at hs
          · cases hs
            exact ⟨h.model, h.accepted, h.refused, h.latencyCount, h.latencySumNs⟩
          · cases hs
            exact ⟨h.model, h.accepted, h.refused, h.latencyCount, h.latencySumNs⟩

theorem reachable_counted {s : State} (h : registry.Reachable s) : Counted s := by
  refine Machine.Reachable.invariant ?_ ?_ h
  · rintro _ ⟨g, model, rfl⟩
    exact counted_start g model
  · intro s l s' _ hs hstep
    exact hs.step hstep

end ConcurrentServers.Metrics

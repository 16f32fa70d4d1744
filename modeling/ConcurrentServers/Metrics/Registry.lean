import ConcurrentServers.Library.Buffer
import ConcurrentServers.Library.Text

/-!
# The registry of `metrics.c`

The counters and gauges have the width that they have in the source, so they
wrap where the source's do. Each atomic update is a definition of its own, from
which the functions that the servers call are put together.
-/

namespace ConcurrentServers.Metrics

open Systems

def bucketCount : ℕ := 10

def modelMax : ℕ := 32

def kBucketUpperNs : List UInt64 :=
  [20000, 50000, 100000, 250000, 500000, 1000000, 2500000, 5000000, 10000000, 50000000]

def kBucketLe : List (List UInt8) :=
  ["0.00002", "0.00005", "0.0001", "0.00025", "0.0005", "0.001", "0.0025", "0.005", "0.01",
    "0.05"].map Text.ascii

structure Registry where
  model : List.Vector UInt8 modelMax
  accepted : UInt64
  refused : UInt64
  active : Int64
  workersBusy : Int64
  queueDepth : UInt64
  latencyCount : Fin (bucketCount + 1) → UInt64
  latencySumNs : UInt64

/-! ## The label -/

def unknown : List UInt8 := Text.ascii "unknown"

/-- The array as a string. -/
def cString {n : ℕ} (b : List.Vector UInt8 n) : List UInt8 := b.1.takeWhile (· ≠ 0)

def Registry.modelLabel (g : Registry) : List UInt8 :=
  if g.model.1.getD 0 0 ≠ 0 then cString g.model else unknown

def isLabelChar (c : UInt8) : Bool :=
  'a'.toUInt8 ≤ c && c ≤ 'z'.toUInt8 || 'A'.toUInt8 ≤ c && c ≤ 'Z'.toUInt8 ||
    '0'.toUInt8 ≤ c && c ≤ '9'.toUInt8 || c == '_'.toUInt8 || c == '-'.toUInt8

/-- The loop of `set_model` from `n` on, when `k` more characters fit. The bytes
of the argument are followed by a NUL. -/
def scanModel (model : List UInt8) : ℕ → ℕ → ℕ
  | 0, n => n
  | k + 1, n =>
      if model.getD n 0 = 0 then n
      else if isLabelChar (model.getD n 0) then scanModel model k (n + 1)
      else 0

/-- `none` is a null pointer. -/
def setModel (buf : List.Vector UInt8 modelMax) (model : Option (List UInt8)) :
    List.Vector UInt8 modelMax :=
  match model with
  | none => Buffer.overwrite buf (unknown ++ [0])
  | some model =>
      let n := scanModel model (modelMax - 1) 0
      if n = 0 then Buffer.overwrite buf (unknown ++ [0])
      else Buffer.store (Buffer.overwrite buf (model.take n)) n 0

def metricsInit (g : Registry) (model : Option (List UInt8)) : Registry where
  model := setModel g.model model
  accepted := 0
  refused := 0
  active := 0
  workersBusy := 0
  queueDepth := 0
  latencyCount _ := 0
  latencySumNs := 0

/-! ## The atomic updates -/

def Registry.acceptedAdd (g : Registry) : Registry := { g with accepted := g.accepted + 1 }

def Registry.refusedAdd (g : Registry) : Registry := { g with refused := g.refused + 1 }

def Registry.activeAdd (g : Registry) (delta : Int64) : Registry :=
  { g with active := g.active + delta }

def metricsWorkersBusyAdd (g : Registry) (delta : Int64) : Registry :=
  { g with workersBusy := g.workersBusy + delta }

def metricsQueueDepthSet (g : Registry) (depth : UInt64) : Registry :=
  { g with queueDepth := depth }

/-- The loop returns the first bound that is not exceeded. -/
def bucketIndex (durationNs : UInt64) : Fin (bucketCount + 1) :=
  ⟨kBucketUpperNs.findIdx (durationNs ≤ ·), Nat.lt_succ_of_le List.findIdx_le_length⟩

def Registry.bucketAdd (g : Registry) (i : Fin (bucketCount + 1)) : Registry :=
  { g with latencyCount := Function.update g.latencyCount i (g.latencyCount i + 1) }

def Registry.sumAdd (g : Registry) (durationNs : UInt64) : Registry :=
  { g with latencySumNs := g.latencySumNs + durationNs }

def metricsConnectionAccepted (g : Registry) : Registry := g.acceptedAdd.activeAdd 1

def metricsConnectionRefused (g : Registry) : Registry := g.refusedAdd

def metricsConnectionClosed (g : Registry) : Registry := g.activeAdd (-1)

def metricsRequestObserved (g : Registry) (durationNs : UInt64) : Registry :=
  (g.bucketAdd (bucketIndex durationNs)).sumAdd durationNs

/-! ## What the label is -/

/-- The characters that `set_model` looks at: at most 31, up to the NUL. -/
def labelPart (model : List UInt8) : List UInt8 := (model.takeWhile (· ≠ 0)).take (modelMax - 1)

/-- The label that a model string stands for. -/
def label : Option (List UInt8) → List UInt8
  | none => unknown
  | some model =>
      if labelPart model ≠ [] ∧ (labelPart model).all isLabelChar then labelPart model
      else unknown

/-- A well-formed label. -/
structure ValidLabel (bs : List UInt8) : Prop where
  ne_nil : bs ≠ []
  length_le : bs.length ≤ modelMax - 1
  chars : ∀ c ∈ bs, isLabelChar c = true

theorem validLabel_unknown : ValidLabel unknown where
  ne_nil := by decide
  length_le := by decide
  chars := List.all_eq_true.mp (by decide)

theorem validLabel_label (model : Option (List UInt8)) : ValidLabel (label model) := by
  cases model with
  | none => exact validLabel_unknown
  | some model =>
      by_cases h : labelPart model ≠ [] ∧ (labelPart model).all isLabelChar = true
      · rw [label, if_pos h]
        exact ⟨h.1, List.length_take_le _ _, List.all_eq_true.mp h.2⟩
      · rw [label, if_neg h]
        exact validLabel_unknown

/-- A terminated string in front of whatever else is in the array. -/
theorem cString_eq {n : ℕ} {b : List.Vector UInt8 n} {xs ys : List UInt8} (hxs : 0 ∉ xs)
    (hb : b.1 = xs ++ 0 :: ys) : cString b = xs := by
  have hall : ∀ x ∈ xs, decide (x ≠ 0) = true := by
    intro x hx
    simp only [decide_eq_true_eq]
    rintro rfl
    exact hxs hx
  rw [cString, hb, List.takeWhile_append_of_pos hall, List.takeWhile_cons_of_neg (by simp),
    List.append_nil]

theorem modelLabel_of_cString {g : Registry} {xs ys : List UInt8} (hne : xs ≠ []) (hxs : 0 ∉ xs)
    (hb : g.model.1 = xs ++ 0 :: ys) : g.modelLabel = xs := by
  obtain ⟨x, xs', rfl⟩ := List.exists_cons_of_ne_nil hne
  have hx : g.model.1.getD 0 0 ≠ 0 := by
    rw [hb]
    rintro rfl
    exact hxs List.mem_cons_self
  rw [Registry.modelLabel, if_pos hx, cString_eq hxs hb]

theorem scanModel_eq (model : List UInt8) (k n : ℕ) :
    scanModel model k n =
      if (((model.drop n).takeWhile (· ≠ 0)).take k).all isLabelChar then
        n + (((model.drop n).takeWhile (· ≠ 0)).take k).length
      else 0 := by
  -- The loop reads one character of the part for each cell of the room.
  induction k generalizing n with
  | zero => simp [scanModel]
  | succ k ih =>
      rw [scanModel, ih]
      cases hd : model.drop n with
      | nil =>
          have hget : model.getD n 0 = 0 := by
            rw [List.getD_eq_getElem?_getD, ← List.head?_drop, hd]
            rfl
          rw [hget]
          simp
      | cons c rest =>
          have hget : model.getD n 0 = c := by
            rw [List.getD_eq_getElem?_getD, ← List.head?_drop, hd]
            rfl
          have hrest : model.drop (n + 1) = rest := by
            rw [← List.tail_drop, hd]
            rfl
          rw [hget, hrest]
          by_cases hzero : c = 0
          · simp [hzero]
          · by_cases hc : isLabelChar c = true
            · simp [hzero, hc, Nat.add_assoc, Nat.add_comm 1]
            · simp [hzero, hc]

theorem zero_notMem_of_isLabelChar {bs : List UInt8} (h : ∀ c ∈ bs, isLabelChar c = true) :
    0 ∉ bs :=
  fun hmem => absurd (h 0 hmem) (by decide)

theorem labelPart_isPrefix (model : List UInt8) : labelPart model <+: model :=
  (List.take_prefix _ _).trans (List.takeWhile_prefix _)

theorem overwrite_unknown (buf : List.Vector UInt8 modelMax) :
    (Buffer.overwrite buf (unknown ++ [0])).1 = unknown ++ 0 :: buf.1.drop 8 := by
  rw [Buffer.overwrite_val buf (by decide), List.append_assoc]
  rfl

theorem setModel_eq (buf : List.Vector UInt8 modelMax) (model : Option (List UInt8)) :
    ∃ ys, (setModel buf model).1 = label model ++ 0 :: ys := by
  cases model with
  | none => exact ⟨_, overwrite_unknown buf⟩
  | some model =>
      have hscan : scanModel model (modelMax - 1) 0 =
          if (labelPart model).all isLabelChar then (labelPart model).length else 0 := by
        rw [scanModel_eq, List.drop_zero, Nat.zero_add]
        rfl
      by_cases h : labelPart model ≠ [] ∧ (labelPart model).all isLabelChar = true
      · have hne : (labelPart model).length ≠ 0 :=
          fun hzero => h.1 (List.length_eq_zero_iff.mp hzero)
        have htake : model.take (labelPart model).length = labelPart model :=
          (List.prefix_iff_eq_take.mp (labelPart_isPrefix model)).symm
        rw [if_pos h.2] at hscan
        simp only [setModel, hscan, if_neg hne, htake, label, if_pos h]
        refine ⟨_, Buffer.store_overwrite_val buf ?_ 0⟩
        exact Nat.lt_of_le_of_lt (List.length_take_le _ _) (by decide)
      · have hzero : scanModel model (modelMax - 1) 0 = 0 := by
          rw [hscan, ite_eq_right_iff]
          intro hchars
          rw [List.length_eq_zero_iff]
          by_contra hne
          exact h ⟨hne, hchars⟩
        simp only [setModel, hzero, label, if_neg h, if_true]
        exact ⟨_, overwrite_unknown buf⟩

/-- `metrics_init` stores the label, whatever it is given. -/
theorem modelLabel_metricsInit (g : Registry) (model : Option (List UInt8)) :
    (metricsInit g model).modelLabel = label model := by
  obtain ⟨ys, hys⟩ := setModel_eq g.model model
  have hvalid := validLabel_label model
  exact modelLabel_of_cString hvalid.ne_nil (zero_notMem_of_isLabelChar hvalid.chars) hys

end ConcurrentServers.Metrics

import ConcurrentServers.Metrics.Registry
import Mathlib.Algebra.BigOperators.Fin
import Mathlib.Algebra.Order.BigOperators.Group.Finset

/-!
# The text that `metrics_render` writes

Every `appendf` formats one line. The lines are defined first, then the calls in
the order in which the source makes them, and then it is proved that the calls
write the lines one after the other, cut off where the buffer ends.
-/

namespace ConcurrentServers.Metrics

open Systems
open Systems.Text (ascii decimal signed padded)

/-! ## The output buffer -/

/-- The buffer, and the length that the text would have. -/
structure Sink (cap : ℕ) where
  out : List.Vector UInt8 cap
  len : ℕ

variable {cap : ℕ}

/-- `vsnprintf` writes what fits before a NUL, and returns the whole length. -/
def Sink.appendf (s : Sink cap) (text : List UInt8) : Sink cap where
  out :=
    if s.len < cap then Buffer.write s.out s.len (text.take (cap - s.len - 1) ++ [0]) else s.out
  len := s.len + text.length

/-! ## Lines -/

def helpLine (name help : List UInt8) : List UInt8 :=
  ascii "# HELP " ++ name ++ ascii " " ++ help ++ ascii "\n"

def typeLine (name kind : List UInt8) : List UInt8 :=
  ascii "# TYPE " ++ name ++ ascii " " ++ kind ++ ascii "\n"

def sampleLine (name model value : List UInt8) : List UInt8 :=
  name ++ ascii "\x7bmodel=\"" ++ model ++ ascii "\"\x7d " ++ value ++ ascii "\n"

def bucketLine (name model le value : List UInt8) : List UInt8 :=
  name ++ ascii "_bucket\x7bmodel=\"" ++ model ++ ascii "\",le=\"" ++ le ++ ascii "\"\x7d " ++
    value ++ ascii "\n"

/-! ## The calls -/

def renderCounter (s : Sink cap) (name help model : List UInt8) (value : UInt64) : Sink cap :=
  ((s.appendf (helpLine name help)).appendf (typeLine name (ascii "counter"))).appendf
    (sampleLine name model (decimal value.toNat))

def renderGauge (s : Sink cap) (name help model : List UInt8) (value : Int64) : Sink cap :=
  ((s.appendf (helpLine name help)).appendf (typeLine name (ascii "gauge"))).appendf
    (sampleLine name model (signed value.toInt))

def latencyName : List UInt8 := ascii "server_request_duration_seconds"

def latencyHelp : List UInt8 := ascii "Request service time in seconds."

/-- The body of the loop, with `cumulative` as the second component. -/
def renderBucket (g : Registry) (acc : Sink cap × UInt64) (i : Fin bucketCount) :
    Sink cap × UInt64 :=
  let cumulative := acc.2 + g.latencyCount i.castSucc
  (acc.1.appendf (bucketLine latencyName g.modelLabel (kBucketLe.getD i [])
    (decimal cumulative.toNat)), cumulative)

/-- Seconds with nine decimals. -/
def seconds (ns : UInt64) : List UInt8 :=
  decimal (ns.toNat / 1000000000) ++ '.'.toUInt8 :: padded 9 (ns.toNat % 1000000000)

def renderLatency (g : Registry) (s : Sink cap) : Sink cap :=
  let s := s.appendf (helpLine latencyName latencyHelp)
  let s := s.appendf (typeLine latencyName (ascii "histogram"))
  let (s, cumulative) := (List.finRange bucketCount).foldl (renderBucket g) (s, 0)
  let cumulative := cumulative + g.latencyCount (Fin.last bucketCount)
  let s := s.appendf
    (bucketLine latencyName g.modelLabel (ascii "+Inf") (decimal cumulative.toNat))
  let s := s.appendf
    (sampleLine (latencyName ++ ascii "_sum") g.modelLabel (seconds g.latencySumNs))
  s.appendf (sampleLine (latencyName ++ ascii "_count") g.modelLabel (decimal cumulative.toNat))

def acceptedName : List UInt8 := ascii "server_connections_accepted_total"

def refusedName : List UInt8 := ascii "server_connections_refused_total"

def activeName : List UInt8 := ascii "server_connections_active"

def queueDepthName : List UInt8 := ascii "server_pool_queue_depth"

def workersBusyName : List UInt8 := ascii "server_pool_workers_busy"

def acceptedHelp : List UInt8 := ascii "Connections accepted since process start."

def refusedHelp : List UInt8 := ascii "Connections refused because the server had no capacity."

def activeHelp : List UInt8 := ascii "Connections currently open."

def queueDepthHelp : List UInt8 := ascii "Work items waiting in the thread pool queue."

def workersBusyHelp : List UInt8 := ascii "Worker threads serving a request."

/-- The render calls of `metrics_render`. The depth of the queue is cast to a
signed integer. -/
def renderAll (g : Registry) (s : Sink cap) : Sink cap :=
  let s := renderCounter s acceptedName acceptedHelp g.modelLabel g.accepted
  let s := renderCounter s refusedName refusedHelp g.modelLabel g.refused
  let s := renderGauge s activeName activeHelp g.modelLabel g.active
  let s := renderGauge s queueDepthName queueDepthHelp g.modelLabel g.queueDepth.toInt64
  let s := renderGauge s workersBusyName workersBusyHelp g.modelLabel g.workersBusy
  renderLatency g s

/-- A null pointer counts as a buffer without room. -/
def metricsRender (g : Registry) (out : Option (List.Vector UInt8 cap)) :
    Option (List.Vector UInt8 cap) × ℕ :=
  match out with
  | none => (none, (renderAll g (⟨.nil, 0⟩ : Sink 0)).len)
  | some out =>
      let s := renderAll g ⟨out, 0⟩
      (some (if cap > 0 ∧ s.len ≥ cap then Buffer.store s.out (cap - 1) 0 else s.out), s.len)

/-! ## The text -/

def counterLines (name help model : List UInt8) (value : UInt64) : List (List UInt8) :=
  [helpLine name help, typeLine name (ascii "counter"),
    sampleLine name model (decimal value.toNat)]

def gaugeLines (name help model : List UInt8) (value : Int64) : List (List UInt8) :=
  [helpLine name help, typeLine name (ascii "gauge"), sampleLine name model (signed value.toInt)]

/-- The value of `cumulative` behind the buckets before `i`. -/
def cumulative (g : Registry) (i : ℕ) : UInt64 :=
  ((List.finRange (bucketCount + 1)).take i).foldl (fun n j => n + g.latencyCount j) 0

def finiteLine (g : Registry) (i : Fin bucketCount) : List UInt8 :=
  bucketLine latencyName g.modelLabel (kBucketLe.getD i []) (decimal (cumulative g (i + 1)).toNat)

def latencyLines (g : Registry) : List (List UInt8) :=
  [helpLine latencyName latencyHelp, typeLine latencyName (ascii "histogram")] ++
    (List.finRange bucketCount).map (finiteLine g) ++
    [bucketLine latencyName g.modelLabel (ascii "+Inf")
        (decimal (cumulative g (bucketCount + 1)).toNat),
      sampleLine (latencyName ++ ascii "_sum") g.modelLabel (seconds g.latencySumNs),
      sampleLine (latencyName ++ ascii "_count") g.modelLabel
        (decimal (cumulative g (bucketCount + 1)).toNat)]

def expositionLines (g : Registry) : List (List UInt8) :=
  counterLines acceptedName acceptedHelp g.modelLabel g.accepted ++
    counterLines refusedName refusedHelp g.modelLabel g.refused ++
    gaugeLines activeName activeHelp g.modelLabel g.active ++
    gaugeLines queueDepthName queueDepthHelp g.modelLabel g.queueDepth.toInt64 ++
    gaugeLines workersBusyName workersBusyHelp g.modelLabel g.workersBusy ++ latencyLines g

/-- The whole text. -/
def exposition (g : Registry) : List UInt8 := (expositionLines g).flatten

@[simp] theorem cumulative_zero (g : Registry) : cumulative g 0 = 0 := rfl

theorem cumulative_succ (g : Registry) {k : ℕ} (hk : k < bucketCount + 1) :
    cumulative g (k + 1) = cumulative g k + g.latencyCount ⟨k, hk⟩ := by
  have hlen : k < (List.finRange (bucketCount + 1)).length := by simpa using hk
  rw [cumulative, List.take_succ_eq_append_getElem hlen, List.foldl_append, List.getElem_finRange]
  rfl

/-- What the buckets before the `k`-th hold together. -/
def countBelow (c : Fin (bucketCount + 1) → ℕ) (k : ℕ) : ℕ :=
  ∑ i ∈ Finset.univ.filter (fun i => i.val < k), c i

theorem countBelow_succ (c : Fin (bucketCount + 1) → ℕ) {k : ℕ} (hk : k < bucketCount + 1) :
    countBelow c (k + 1) = countBelow c k + c ⟨k, hk⟩ := by
  have hfilter : Finset.univ.filter (fun i : Fin (bucketCount + 1) => i.val < k + 1) =
      insert ⟨k, hk⟩ (Finset.univ.filter fun i => i.val < k) := by
    ext i
    simp only [Finset.mem_filter, Finset.mem_univ, true_and, Finset.mem_insert, Fin.ext_iff]
    omega
  rw [countBelow, hfilter, Finset.sum_insert (by simp), Nat.add_comm]
  rfl

theorem countBelow_le (c : Fin (bucketCount + 1) → ℕ) (k : ℕ) : countBelow c k ≤ ∑ i, c i :=
  Finset.sum_le_sum_of_subset (Finset.filter_subset _ _)

/-- Without a wrap, `cumulative` is the sum that it stands for. -/
theorem toNat_cumulative (g : Registry) (htotal : ∑ i, (g.latencyCount i).toNat < 2 ^ 64) {k : ℕ}
    (hk : k ≤ bucketCount + 1) :
    (cumulative g k).toNat = countBelow (fun i => (g.latencyCount i).toNat) k := by
  induction k with
  | zero => rfl
  | succ k ih =>
      have hle := countBelow_le (fun i => (g.latencyCount i).toNat) (k + 1)
      rw [countBelow_succ _ hk] at hle ⊢
      rw [cumulative_succ g hk, UInt64.toNat_add, ih (Nat.le_of_succ_le hk)]
      exact Nat.mod_eq_of_lt (hle.trans_lt htotal)

/-- The loop over the finite buckets. -/
theorem foldl_renderBucket (g : Registry) (s : Sink cap) {k : ℕ} (hk : k ≤ bucketCount) :
    ((List.finRange bucketCount).take k).foldl (renderBucket g) (s, 0) =
      ((((List.finRange bucketCount).take k).map (finiteLine g)).foldl Sink.appendf s,
        cumulative g k) := by
  induction k with
  | zero => rfl
  | succ k ih =>
      have hlen : k < (List.finRange bucketCount).length := by simpa using hk
      have hget : (List.finRange bucketCount)[k] = ⟨k, hk⟩ := by simp
      have hsucc := cumulative_succ g (Nat.lt_succ_of_lt hk)
      rw [List.take_succ_eq_append_getElem hlen, List.foldl_append, ih (Nat.le_of_succ_le hk),
        List.map_append, List.foldl_append, hget, hsucc]
      simp only [List.foldl_cons, List.foldl_nil, List.map_cons, List.map_nil, renderBucket,
        finiteLine, hsucc]
      rfl

theorem renderLatency_eq (g : Registry) (s : Sink cap) :
    renderLatency g s = (latencyLines g).foldl Sink.appendf s := by
  have hloop := foldl_renderBucket g
    ((s.appendf (helpLine latencyName latencyHelp)).appendf
      (typeLine latencyName (ascii "histogram"))) (le_refl bucketCount)
  rw [List.take_of_length_le (by simp)] at hloop
  simp only [renderLatency, hloop, latencyLines, List.foldl_append, List.foldl_cons,
    List.foldl_nil, cumulative_succ g (Nat.lt_succ_self bucketCount)]
  rfl

theorem renderAll_eq (g : Registry) (s : Sink cap) :
    renderAll g s = (expositionLines g).foldl Sink.appendf s := by
  simp only [expositionLines, List.foldl_append, ← renderLatency_eq]
  rfl

/-! ## What arrives in the buffer -/

/-- The buffer starts with as much of the text as fits before a NUL. -/
structure Sink.Holds (s : Sink cap) (text : List UInt8) : Prop where
  len : s.len = text.length
  out : text.take (cap - 1) <+: s.out.1

theorem Sink.Holds.appendf {s : Sink cap} {text : List UInt8} (h : s.Holds text)
    (more : List UInt8) : (s.appendf more).Holds (text ++ more) where
  len := by rw [Sink.appendf, h.len, List.length_append]
  out := by
    by_cases hroom : s.len < cap
    · have hfits : s.len + (more.take (cap - s.len - 1) ++ [0]).length ≤ cap := by
        simp
        omega
      have htext : text.take (cap - 1) = text :=
        List.take_of_length_le (by have := h.len; omega)
      have hprefix : s.out.1.take s.len = text := by
        rw [h.len]
        exact (List.prefix_iff_eq_take.mp (htext ▸ h.out)).symm
      have hroom' : cap - 1 - text.length = cap - s.len - 1 := by
        rw [h.len]
        omega
      simp only [Sink.appendf, if_pos hroom]
      rw [Buffer.write_val _ hfits, hprefix, List.take_append, htext, hroom', List.append_assoc,
        List.append_assoc]
      exact List.prefix_append_right_inj text |>.mpr (List.prefix_append _ _)
    · have htake : (text ++ more).take (cap - 1) = text.take (cap - 1) := by
        rw [List.take_append_of_le_length]
        have := h.len
        omega
      simp only [Sink.appendf, if_neg hroom, htake]
      exact h.out

theorem Sink.Holds.foldl {s : Sink cap} {text : List UInt8} (h : s.Holds text)
    (ls : List (List UInt8)) : (ls.foldl Sink.appendf s).Holds (text ++ ls.flatten) := by
  induction ls generalizing s text with
  | nil => simpa using h
  | cons l ls ih =>
      have hrest := ih (h.appendf l)
      rwa [List.append_assoc] at hrest

theorem holds_renderAll (g : Registry) (out : List.Vector UInt8 cap) :
    (renderAll g ⟨out, 0⟩).Holds (exposition g) := by
  have hempty : (⟨out, 0⟩ : Sink cap).Holds [] := ⟨rfl, by simp⟩
  have hall := hempty.foldl (expositionLines g)
  rwa [List.nil_append, ← renderAll_eq] at hall

theorem metricsRender_len (g : Registry) (out : List.Vector UInt8 cap) :
    (metricsRender g (some out)).2 = (exposition g).length :=
  (holds_renderAll g out).len

/-- A buffer that is large enough ends up with the whole text. -/
theorem metricsRender_full (g : Registry) (out : List.Vector UInt8 cap)
    (hcap : (exposition g).length < cap) :
    ∃ buf, metricsRender g (some out) = (some buf, (exposition g).length) ∧
      Buffer.slice buf 0 (exposition g).length = exposition g := by
  have hholds := holds_renderAll g out
  have hlen := hholds.len
  refine ⟨(renderAll g ⟨out, 0⟩).out, ?_, ?_⟩
  · have hroom : ¬(cap > 0 ∧ (renderAll g ⟨out, 0⟩).len ≥ cap) := by omega
    show (some (if _ then _ else _), _) = _
    rw [if_neg hroom, hlen]
  · have hprefix := hholds.out
    rw [List.take_of_length_le (by omega)] at hprefix
    rw [Buffer.slice, List.drop_zero]
    exact (List.prefix_iff_eq_take.mp hprefix).symm

end ConcurrentServers.Metrics

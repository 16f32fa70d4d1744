import ConcurrentServers.Metrics.Render

/-!
# How long the text can be

The text has a fixed number of lines. Every line is short, since the numbers have
at most twenty digits and the label at most as many characters as its array, so
there is a bound that holds for every registry.
-/

namespace ConcurrentServers.Metrics

open Systems
open Systems.Text (ascii decimal signed padded)

/-! ## The parts of a line -/

theorem length_modelLabel_le (g : Registry) : g.modelLabel.length ≤ modelMax := by
  unfold Registry.modelLabel
  split
  · exact (List.takeWhile_prefix _).length_le.trans g.model.2.le
  · decide

theorem length_decimal_uint64_le (n : UInt64) : (decimal n.toNat).length ≤ 20 :=
  Text.length_decimal_le (by decide) (n.toNat_lt.trans (by decide))

theorem length_signed_int64_le (z : Int64) : (signed z.toInt).length ≤ 20 := by
  have hlow := z.le_toInt
  have hhigh := z.toInt_lt
  have habs : z.toInt.natAbs < 10 ^ 19 := by omega
  have hdecimal := Text.length_decimal_le (by decide) habs
  unfold signed
  split
  · rw [List.length_cons]
    omega
  · omega

theorem length_seconds_le (ns : UInt64) : (seconds ns).length ≤ 21 := by
  have hlt := ns.toNat_lt
  have hwhole : (decimal (ns.toNat / 1000000000)).length ≤ 11 :=
    Text.length_decimal_le (by decide) (by omega)
  have hfraction : (padded 9 (ns.toNat % 1000000000)).length = 9 :=
    Text.length_padded (by decide) (Nat.mod_lt _ (by decide))
  rw [seconds, List.length_append, List.length_cons, hfraction]
  omega

/-! ## Lines -/

theorem length_helpLine (name help : List UInt8) :
    (helpLine name help).length = 7 + name.length + 1 + help.length + 1 := by
  simp only [helpLine, List.length_append]
  rfl

theorem length_typeLine (name kind : List UInt8) :
    (typeLine name kind).length = 7 + name.length + 1 + kind.length + 1 := by
  simp only [typeLine, List.length_append]
  rfl

theorem length_sampleLine (name model value : List UInt8) :
    (sampleLine name model value).length =
      name.length + 8 + model.length + 3 + value.length + 1 := by
  simp only [sampleLine, List.length_append]
  rfl

theorem length_bucketLine (name model le value : List UInt8) :
    (bucketLine name model le value).length =
      name.length + 15 + model.length + 6 + le.length + 3 + value.length + 1 := by
  simp only [bucketLine, List.length_append]
  rfl

/-- No line of a block is longer than this. -/
def lineMax : ℕ := 200

def Short (lines : List (List UInt8)) : Prop := ∀ line ∈ lines, line.length ≤ lineMax

theorem Short.append {ls ms : List (List UInt8)} (hl : Short ls) (hm : Short ms) :
    Short (ls ++ ms) :=
  List.forall_mem_append.mpr ⟨hl, hm⟩

theorem Short.length_flatten_le {ls : List (List UInt8)} (h : Short ls) :
    ls.flatten.length ≤ ls.length * lineMax := by
  have hsum := List.sum_le_card_nsmul (ls.map List.length) lineMax (List.forall_mem_map.mpr h)
  rwa [List.length_map, smul_eq_mul, ← List.length_flatten] at hsum

/-! ## Blocks -/

section Blocks

variable {name help model : List UInt8}

/-- A block of three lines. -/
theorem short_block {kind value : List UInt8} (hname : name.length ≤ 40) (hhelp : help.length ≤ 60)
    (hmodel : model.length ≤ modelMax) (hkind : kind.length ≤ 20) (hvalue : value.length ≤ 20) :
    Short [helpLine name help, typeLine name kind, sampleLine name model value] := by
  have hmodelMax : modelMax = 32 := rfl
  simp only [Short, List.forall_mem_cons, length_helpLine, length_typeLine, length_sampleLine,
    lineMax]
  exact ⟨by omega, by omega, by omega, by simp⟩

theorem short_counterLines (hname : name.length ≤ 40) (hhelp : help.length ≤ 60)
    (hmodel : model.length ≤ modelMax) (value : UInt64) :
    Short (counterLines name help model value) :=
  short_block hname hhelp hmodel (by decide) (length_decimal_uint64_le value)

theorem short_gaugeLines (hname : name.length ≤ 40) (hhelp : help.length ≤ 60)
    (hmodel : model.length ≤ modelMax) (value : Int64) :
    Short (gaugeLines name help model value) :=
  short_block hname hhelp hmodel (by decide) (length_signed_int64_le value)

end Blocks

theorem length_kBucketLe_le (i : ℕ) : (kBucketLe.getD i []).length ≤ 7 := by
  have hall : ∀ le ∈ kBucketLe, le.length ≤ 7 := by decide
  rw [List.getD_eq_getElem?_getD]
  cases hle : kBucketLe[i]? with
  | none => exact Nat.zero_le 7
  | some le => exact hall le (List.mem_of_getElem? hle)

theorem length_latencyBucket_le (g : Registry) {le : List UInt8} (hle : le.length ≤ 7)
    (n : UInt64) : (bucketLine latencyName g.modelLabel le (decimal n.toNat)).length ≤ lineMax := by
  have hname : latencyName.length = 31 := rfl
  have hmodel : g.modelLabel.length ≤ 32 := length_modelLabel_le g
  have hvalue := length_decimal_uint64_le n
  rw [length_bucketLine, lineMax]
  omega

theorem short_latencyLines (g : Registry) : Short (latencyLines g) := by
  have hmodel : g.modelLabel.length ≤ 32 := length_modelLabel_le g
  have hsum := length_seconds_le g.latencySumNs
  have hcount := length_decimal_uint64_le (cumulative g (bucketCount + 1))
  refine Short.append (Short.append ?_ ?_) ?_
  · simp only [Short, List.forall_mem_cons]
    exact ⟨by decide +kernel, by decide +kernel, by simp⟩
  · refine List.forall_mem_map.mpr fun i _ => ?_
    exact length_latencyBucket_le g (length_kBucketLe_le i) _
  · have hsumName : (latencyName ++ ascii "_sum").length = 35 := rfl
    have hcountName : (latencyName ++ ascii "_count").length = 37 := rfl
    simp only [Short, List.forall_mem_cons, length_sampleLine, hsumName, hcountName]
    refine ⟨length_latencyBucket_le g (by decide) _, ?_, ?_, by simp⟩
    · rw [lineMax]
      omega
    · rw [lineMax]
      omega

theorem short_expositionLines (g : Registry) : Short (expositionLines g) := by
  have hmodel := length_modelLabel_le g
  refine Short.append (Short.append (Short.append (Short.append (Short.append ?_ ?_) ?_) ?_) ?_) ?_
  · exact short_counterLines (by decide +kernel) (by decide +kernel) hmodel _
  · exact short_counterLines (by decide +kernel) (by decide +kernel) hmodel _
  · exact short_gaugeLines (by decide +kernel) (by decide +kernel) hmodel _
  · exact short_gaugeLines (by decide +kernel) (by decide +kernel) hmodel _
  · exact short_gaugeLines (by decide +kernel) (by decide +kernel) hmodel _
  · exact short_latencyLines g

theorem length_expositionLines (g : Registry) : (expositionLines g).length = 30 := by
  simp only [expositionLines, counterLines, gaugeLines, latencyLines, List.length_append,
    List.length_map, List.length_finRange, List.length_cons, List.length_nil]
  rfl

theorem length_exposition_le (g : Registry) : (exposition g).length ≤ 6000 := by
  have hle := (short_expositionLines g).length_flatten_le
  rwa [length_expositionLines] at hle

end ConcurrentServers.Metrics

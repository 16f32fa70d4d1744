import ConcurrentServers.Metrics.Render

/-!
# Rendering into a buffer that is too small

`len` runs on behind the end of the buffer, while every `appendf` cuts what it
writes. Put together the calls cut the text once, and a NUL ends what is left of
it. The indices that the calls write are recorded, since the model of a buffer
has no cells behind its end that a write could hit.
-/

namespace ConcurrentServers.Metrics

open Systems

variable {cap : ℕ}

/-! ## Where the calls write -/

/-- The indices that `vsnprintf` writes in one call of `appendf`. -/
def Sink.appendfWrites (s : Sink cap) (text : List UInt8) : List ℕ :=
  if s.len < cap then List.range' s.len (text.take (cap - s.len - 1) ++ [0]).length else []

def Sink.writes (s : Sink cap) : List (List UInt8) → List ℕ
  | [] => []
  | text :: texts => s.appendfWrites text ++ (s.appendf text).writes texts

/-- The indices that `metrics_render` writes. Its calls are those of `renderAll_eq`. -/
def renderWrites (g : Registry) (out : List.Vector UInt8 cap) : List ℕ :=
  (⟨out, 0⟩ : Sink cap).writes (expositionLines g) ++
    if cap > 0 ∧ (renderAll g ⟨out, 0⟩).len ≥ cap then [cap - 1] else []

theorem Sink.length_block_le {s : Sink cap} (hroom : s.len < cap) (text : List UInt8) :
    s.len + (text.take (cap - s.len - 1) ++ [0]).length ≤ cap := by
  rw [List.length_append, List.length_take, List.length_singleton]
  omega

theorem Sink.appendfWrites_lt (s : Sink cap) (text : List UInt8) :
    ∀ i ∈ s.appendfWrites text, i < cap := by
  intro i hi
  unfold Sink.appendfWrites at hi
  split at hi
  · next hroom =>
      have hle := Sink.length_block_le hroom text
      have hlast := (List.mem_range'_1.mp hi).2
      omega
  · cases hi

theorem Sink.writes_lt (s : Sink cap) (texts : List (List UInt8)) :
    ∀ i ∈ s.writes texts, i < cap := by
  induction texts generalizing s with
  | nil => nofun
  | cons text texts ih =>
      intro i hi
      rcases List.mem_append.mp hi with hi | hi
      · exact s.appendfWrites_lt text i hi
      · exact ih _ i hi

theorem renderWrites_lt (g : Registry) (out : List.Vector UInt8 cap) :
    ∀ i ∈ renderWrites g out, i < cap := by
  intro i hi
  rcases List.mem_append.mp hi with hi | hi
  · exact Sink.writes_lt _ _ i hi
  · split at hi
    · next hlen =>
        rw [List.mem_singleton.mp hi]
        omega
    · cases hi

/-! ## Everything else is unchanged -/

theorem Sink.getElem?_appendf (s : Sink cap) (text : List UInt8) {i : ℕ}
    (hi : i ∉ s.appendfWrites text) : (s.appendf text).out.1[i]? = s.out.1[i]? := by
  unfold Sink.appendfWrites at hi
  unfold Sink.appendf
  split at hi
  · next hroom =>
      rw [List.mem_range'_1] at hi
      rw [if_pos hroom]
      exact Buffer.getElem?_write_of_ne s.out (Sink.length_block_le hroom text) (by omega)
  · next hroom => rw [if_neg hroom]

theorem Sink.getElem?_foldl_appendf (s : Sink cap) (texts : List (List UInt8)) {i : ℕ}
    (hi : i ∉ s.writes texts) : (texts.foldl Sink.appendf s).out.1[i]? = s.out.1[i]? := by
  induction texts generalizing s with
  | nil => rfl
  | cons text texts ih =>
      obtain ⟨hhead, htail⟩ := not_or.mp (mt List.mem_append.mpr hi)
      rw [List.foldl_cons, ih _ htail, s.getElem?_appendf text hhead]

/-! ## The terminator -/

/-- What is there of the text ends with a NUL. -/
def Sink.Terminated (s : Sink cap) : Prop :=
  s.out.1[min s.len (cap - 1)]? = some 0

theorem Sink.terminated_appendf_of_lt {s : Sink cap} (hroom : s.len < cap) (text : List UInt8) :
    (s.appendf text).Terminated := by
  have hlast := Buffer.getElem?_write_last s.out (Sink.length_block_le hroom text)
  have hend : min (s.len + text.length) (cap - 1) =
      s.len + (text.take (cap - s.len - 1)).length := by
    rw [List.length_take]
    omega
  unfold Sink.Terminated Sink.appendf
  rw [if_pos hroom, hend]
  exact hlast

theorem Sink.Terminated.appendf {s : Sink cap} (h : s.Terminated) (text : List UInt8) :
    (s.appendf text).Terminated := by
  by_cases hroom : s.len < cap
  · exact Sink.terminated_appendf_of_lt hroom text
  · -- The end of the buffer has been reached before.
    have hend : min (s.len + text.length) (cap - 1) = min s.len (cap - 1) := by omega
    unfold Sink.Terminated Sink.appendf
    rw [if_neg hroom, hend]
    exact h

theorem Sink.Terminated.foldl {s : Sink cap} (h : s.Terminated) (texts : List (List UInt8)) :
    (texts.foldl Sink.appendf s).Terminated := by
  induction texts generalizing s with
  | nil => exact h
  | cons text texts ih => exact ih (h.appendf text)

theorem terminated_renderAll (g : Registry) (out : List.Vector UInt8 cap) (hcap : 0 < cap) :
    (renderAll g ⟨out, 0⟩).Terminated := by
  have hne : expositionLines g ≠ [] := by simp [expositionLines, counterLines]
  obtain ⟨line, lines, hlines⟩ := List.exists_cons_of_ne_nil hne
  rw [renderAll_eq, hlines, List.foldl_cons]
  exact (Sink.terminated_appendf_of_lt hcap line).foldl lines

/-! ## The result -/

/-- The cells up to the NUL. -/
theorem Sink.Holds.slice {s : Sink cap} {text : List UInt8} (h : s.Holds text)
    (hnul : s.Terminated) (hcap : 0 < cap) :
    Buffer.slice s.out 0 (min text.length (cap - 1) + 1) = text.take (cap - 1) ++ [0] := by
  have hlt : min text.length (cap - 1) < s.out.1.length := by
    rw [s.out.2]
    omega
  have hlength : (text.take (cap - 1)).length = min text.length (cap - 1) := by
    rw [List.length_take, min_comm]
  have htake : s.out.1.take (min text.length (cap - 1)) = text.take (cap - 1) := by
    rw [← hlength]
    exact (List.prefix_iff_eq_take.mp h.out).symm
  have hcell : s.out.1[min text.length (cap - 1)] = 0 := by
    unfold Sink.Terminated at hnul
    rw [h.len, List.getElem?_eq_getElem hlt] at hnul
    exact Option.some.inj hnul
  rw [Buffer.slice, List.drop_zero, List.take_succ_eq_append_getElem hlt, htake, hcell]

/-- What a call leaves in the buffer. The last store of a NUL finds one there. -/
theorem metricsRender_eq (g : Registry) (out : List.Vector UInt8 cap) :
    metricsRender g (some out) = (some (renderAll g ⟨out, 0⟩).out, (exposition g).length) := by
  have hlen := (holds_renderAll g out).len
  unfold metricsRender
  dsimp only
  rw [hlen]
  split
  · next hfull =>
      have hnul := terminated_renderAll g out hfull.1
      unfold Sink.Terminated at hnul
      rw [hlen, min_eq_right (by omega)] at hnul
      obtain ⟨hlt, hcell⟩ := List.getElem?_eq_some_iff.mp hnul
      congr 2
      apply Subtype.ext
      change (renderAll g ⟨out, 0⟩).out.1.set (cap - 1) 0 = _
      rw [← hcell, List.set_getElem_self]
  · rfl

theorem metricsRender_none (g : Registry) :
    metricsRender g (none : Option (List.Vector UInt8 cap)) = (none, (exposition g).length) := by
  rw [metricsRender, (holds_renderAll g List.Vector.nil).len]

theorem getElem?_renderAll (g : Registry) (out : List.Vector UInt8 cap) {i : ℕ}
    (hi : i ∉ renderWrites g out) : (renderAll g ⟨out, 0⟩).out.1[i]? = out.1[i]? := by
  obtain ⟨hcalls, -⟩ := not_or.mp (mt List.mem_append.mpr hi)
  rw [renderAll_eq, Sink.getElem?_foldl_appendf _ _ hcalls]

/-- The calls cut the text once, whatever the capacity is, and the length that they
return tells whether it was cut. -/
theorem render_truncates_once (g : Registry) (out : List.Vector UInt8 cap) :
    ∃ L buf, metricsRender g (none : Option (List.Vector UInt8 0)) = (none, L) ∧
      metricsRender g (some out) = (some buf, L) ∧
      (0 < cap → Buffer.slice buf 0 (min L (cap - 1) + 1) =
        (exposition g).take (min L (cap - 1)) ++ [0]) ∧
      (∀ i ∈ renderWrites g out, i < cap) ∧
      (∀ i, i ∉ renderWrites g out → buf.1[i]? = out.1[i]?) ∧
      (L < cap ↔ exposition g ++ [0] <+: buf.1) := by
  have hholds := holds_renderAll g out
  have hslice : 0 < cap → Buffer.slice (renderAll g ⟨out, 0⟩).out 0
      (min (exposition g).length (cap - 1) + 1) =
        (exposition g).take (min (exposition g).length (cap - 1)) ++ [0] := by
    intro hcap
    rw [hholds.slice (terminated_renderAll g out hcap) hcap, min_comm, ← List.take_take,
      List.take_length]
  refine ⟨(exposition g).length, (renderAll g ⟨out, 0⟩).out, metricsRender_none g,
    metricsRender_eq g out, hslice, renderWrites_lt g out,
    fun i => getElem?_renderAll g out, ?_, ?_⟩
  · intro hlt
    have hall := hslice (by omega)
    rw [min_eq_left (by omega), List.take_length] at hall
    rw [← hall, Buffer.slice, List.drop_zero]
    exact List.take_prefix _ _
  · intro hprefix
    have hle := hprefix.length_le
    rw [List.length_append, List.length_singleton, (renderAll g ⟨out, 0⟩).out.2] at hle
    exact hle

end ConcurrentServers.Metrics

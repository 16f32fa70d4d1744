import ConcurrentServers.Library.Transducer

/-!
# The framing protocol as a function on byte streams

The reply to a stream is given by positions: byte `i` is answered exactly when
it is not a `$` and some earlier `^` has no `$` between itself and `i`. The
servers compute the same reply with a two-state machine that reads every byte
once. This module proves that the two descriptions agree, so that every server
only has to be compared with the machine.
-/

namespace ConcurrentServers.Frame

open Systems

def opener : UInt8 := '^'.toUInt8

def closer : UInt8 := '$'.toUInt8

def ack : UInt8 := '*'.toUInt8

/-! ## The reply by positions -/

/-- Some `^` before position `i` has no `$` strictly between itself and `i`. -/
def OpenBefore (s : List UInt8) (i : ℕ) : Prop :=
  ∃ j < i, s[j]? = some opener ∧ ∀ k < i, j < k → s[k]? ≠ some closer

instance (s : List UInt8) (i : ℕ) : Decidable (OpenBefore s i) :=
  inferInstanceAs (Decidable (∃ j < i, _ ∧ ∀ k < i, _ → _))

def Echoed (s : List UInt8) (i : ℕ) : Prop :=
  s[i]? ≠ some closer ∧ OpenBefore s i

instance (s : List UInt8) (i : ℕ) : Decidable (Echoed s i) :=
  inferInstanceAs (Decidable (_ ∧ _))

/-- The reply to a byte stream, in the order of the echoed positions. The
addition is the one of an unsigned byte and wraps at 256. -/
def transform (s : List UInt8) : List UInt8 :=
  ((List.range s.length).filter fun i => Echoed s i).map fun i => s.getD i 0 + 1

def reply (s : List UInt8) : List UInt8 := ack :: transform s

example : transform [0x61, 0x5E, 0x61, 0x5E, 0xFF, 0x24, 0x62] = [0x62, 0x5F, 0x00] := by decide

/-! ## The reply by a machine -/

inductive Mode where
  | outside
  | inside
  deriving DecidableEq

def machine : Transducer Mode UInt8 UInt8 where
  next m c :=
    match m with
    | .outside => if c = opener then .inside else .outside
    | .inside => if c = closer then .outside else .inside
  emit m c :=
    match m with
    | .outside => []
    | .inside => if c = closer then [] else [c + 1]

theorem length_emit_le (m : Mode) (c : UInt8) : (machine.emit m c).length ≤ 1 := by
  cases m with
  | outside => simp [machine]
  | inside => by_cases hc : c = closer <;> simp [machine, hc]

/-! ## The two agree -/

theorem openBefore_append {s t : List UInt8} {i : ℕ} (hi : i ≤ s.length) :
    OpenBefore (s ++ t) i ↔ OpenBefore s i := by
  have hget : ∀ k < i, (s ++ t)[k]? = s[k]? := fun k hk =>
    List.getElem?_append_left (hk.trans_le hi)
  constructor
  · rintro ⟨j, hj, hopen, hclose⟩
    refine ⟨j, hj, by rwa [← hget j hj], fun k hk hjk => ?_⟩
    rw [← hget k hk]
    exact hclose k hk hjk
  · rintro ⟨j, hj, hopen, hclose⟩
    refine ⟨j, hj, by rwa [hget j hj], fun k hk hjk => ?_⟩
    rw [hget k hk]
    exact hclose k hk hjk

theorem openBefore_concat (s : List UInt8) (c : UInt8) :
    OpenBefore (s ++ [c]) (s.length + 1) ↔
      c = opener ∨ c ≠ closer ∧ OpenBefore s s.length := by
  have hlast : (s ++ [c])[s.length]? = some c := by simp
  have hget : ∀ k < s.length, (s ++ [c])[k]? = s[k]? := fun k hk =>
    List.getElem?_append_left hk
  constructor
  · rintro ⟨j, hj, hopen, hclose⟩
    rcases Nat.lt_succ_iff_lt_or_eq.mp hj with hj | rfl
    · right
      refine ⟨?_, j, hj, by rwa [← hget j hj], fun k hk hjk => ?_⟩
      · rintro rfl
        exact hclose s.length (Nat.lt_succ_self _) hj hlast
      · rw [← hget k hk]
        exact hclose k (Nat.lt_succ_of_lt hk) hjk
    · left
      simpa using hlast.symm.trans hopen
  · rintro (rfl | ⟨hc, j, hj, hopen, hclose⟩)
    · exact ⟨s.length, Nat.lt_succ_self _, hlast, fun k hk hjk => by omega⟩
    · refine ⟨j, Nat.lt_succ_of_lt hj, by rwa [hget j hj], fun k hk hjk => ?_⟩
      rcases Nat.lt_succ_iff_lt_or_eq.mp hk with hk | rfl
      · rw [hget k hk]
        exact hclose k hk hjk
      · rw [hlast]
        simpa using hc

theorem transform_concat (s : List UInt8) (c : UInt8) :
    transform (s ++ [c]) = transform s ++
      if c ≠ closer ∧ OpenBefore s s.length then [c + 1] else [] := by
  have hlast : Echoed (s ++ [c]) s.length ↔ c ≠ closer ∧ OpenBefore s s.length := by
    simp [Echoed, openBefore_append]
  have hold : ∀ i ∈ List.range s.length, Echoed (s ++ [c]) i ↔ Echoed s i := by
    intro i hi
    have hi' : i < s.length := List.mem_range.mp hi
    simp [Echoed, openBefore_append hi'.le, List.getElem?_append_left hi']
  have hval : ∀ i ∈ (List.range s.length).filter (fun i => Echoed s i),
      (s ++ [c]).getD i 0 + 1 = s.getD i 0 + 1 := by
    intro i hi
    have hi' : i < s.length := List.mem_range.mp (List.mem_of_mem_filter hi)
    simp [List.getD_eq_getElem?_getD, List.getElem?_append_left hi']
  unfold transform
  rw [List.length_append, List.length_singleton, List.range_succ, List.filter_append,
    List.map_append, List.filter_congr fun i hi => decide_eq_decide.mpr (hold i hi),
    List.map_congr_left hval]
  congr 1
  by_cases h : c ≠ closer ∧ OpenBefore s s.length
  · simp [hlast.mpr h, h]
  · simp [mt hlast.mp h, h]

theorem state_eq_inside_iff (s : List UInt8) :
    machine.state .outside s = .inside ↔ OpenBefore s s.length := by
  induction s using List.reverseRecOn with
  | nil => simp [OpenBefore]
  | append_singleton s c ih =>
      rw [Transducer.state_append, List.length_append, List.length_singleton,
        openBefore_concat, ← ih]
      have hne : opener ≠ closer := by decide
      cases machine.state .outside s with
      | outside => by_cases hc : c = opener <;> simp [machine, hc]
      | inside =>
          by_cases hc : c = closer
          · simp [machine, hc, hne.symm]
          · simp [machine, hc]

/-- The machine computes the reply that the positions describe. -/
theorem output_eq_transform (s : List UInt8) : machine.output .outside s = transform s := by
  induction s using List.reverseRecOn with
  | nil => rfl
  | append_singleton s c ih =>
      have hs := state_eq_inside_iff s
      rw [Transducer.output_append, ih, transform_concat]
      congr 1
      cases hm : machine.state .outside s with
      | outside =>
          have hopen : ¬OpenBefore s s.length := by simpa [hm] using hs
          simp [machine, hopen]
      | inside =>
          have hopen : OpenBefore s s.length := hs.mp hm
          by_cases hc : c = closer <;> simp [machine, hc, hopen]

/-- Inside a frame every byte up to the next `$` is echoed. -/
theorem output_inside {data : List UInt8} (h : closer ∉ data) :
    machine.output .inside data = data.map (· + 1) ∧ machine.state .inside data = .inside := by
  induction data with
  | nil => exact ⟨rfl, rfl⟩
  | cons c data ih =>
      obtain ⟨hc, hdata⟩ := not_or.mp (mt List.mem_cons.mpr h)
      obtain ⟨houtput, hstate⟩ := ih hdata
      have hnext : machine.next .inside c = .inside := if_neg (Ne.symm hc)
      have hemit : machine.emit .inside c = [c + 1] := if_neg (Ne.symm hc)
      rw [Transducer.output_cons, Transducer.state_cons, hnext, hemit, houtput, hstate]
      exact ⟨rfl, rfl⟩

theorem reply_append (s t : List UInt8) :
    reply (s ++ t) = reply s ++ machine.output (machine.state .outside s) t := by
  simp only [reply, ← output_eq_transform, Transducer.output_append, List.cons_append]

theorem reply_prefix {s t : List UInt8} (h : s <+: t) : reply s <+: reply t := by
  obtain ⟨u, rfl⟩ := h
  rw [reply_append]
  exact List.prefix_append _ _

end ConcurrentServers.Frame

import Mathlib.Data.Nat.Digits.Defs
import Mathlib.Data.List.Basic
import Mathlib.Data.Rat.Defs
import Mathlib.Tactic

/-!
# Text made of bytes

What `printf` writes for numbers, and a reader that finds the numbers again. A
reader of a line cuts it at the first occurrence of a delimiter, which gives
back the parts if no part contains the delimiter that ends it.
-/

namespace Systems.Text

def ascii (s : String) : List UInt8 := s.toList.map Char.toUInt8

/-! ## Cutting -/

/-- What stands before the first `c`, and what stands behind it. -/
def cut {α : Type*} [DecidableEq α] (c : α) : List α → Option (List α × List α)
  | [] => none
  | b :: bs => if b = c then some ([], bs) else (cut c bs).map fun r => (b :: r.1, r.2)

theorem cut_append {α : Type*} [DecidableEq α] {c : α} {xs : List α} (h : c ∉ xs) (ys : List α) :
    cut c (xs ++ c :: ys) = some (xs, ys) := by
  induction xs with
  | nil => simp [cut]
  | cons x xs ih =>
      obtain ⟨hx, hxs⟩ := not_or.mp (mt List.mem_cons.mpr h)
      rw [List.cons_append, cut, if_neg (Ne.symm hx), ih hxs]
      rfl

/-! ## Natural numbers -/

def IsDigit (b : UInt8) : Prop := '0'.toUInt8 ≤ b ∧ b ≤ '9'.toUInt8

instance : DecidablePred IsDigit := fun _ => inferInstanceAs (Decidable (_ ∧ _))

/-- The conversion `%u`. -/
def decimal (n : ℕ) : List UInt8 := (Nat.toDigits 10 n).map Char.toUInt8

/-- The conversion `%0wu`. -/
def padded (w n : ℕ) : List UInt8 :=
  (List.replicate (w - (Nat.toDigits 10 n).length) '0' ++ Nat.toDigits 10 n).map Char.toUInt8

def parseNat (bs : List UInt8) : Option ℕ :=
  if bs ≠ [] ∧ bs.all (IsDigit ·) then
    some (bs.foldl (fun n b => 10 * n + (b.toNat - '0'.toNat)) 0)
  else none

theorem toNat_toUInt8 {c : Char} (h : c.isDigit = true) : c.toUInt8.toNat = c.toNat := by
  have hle : c.toNat ≤ 57 := by
    simp only [Char.isDigit, Bool.and_eq_true, decide_eq_true_eq] at h
    exact h.2
  simp only [Char.toUInt8, UInt32.toNat_toUInt8]
  exact Nat.mod_eq_of_lt (by change c.toNat < 256; omega)

theorem isDigit_toUInt8 {c : Char} (h : c.isDigit = true) : IsDigit c.toUInt8 := by
  have hnat := toNat_toUInt8 h
  simp only [Char.isDigit, Bool.and_eq_true, decide_eq_true_eq] at h
  refine ⟨UInt8.le_iff_toNat_le.mpr ?_, UInt8.le_iff_toNat_le.mpr ?_⟩
  · rw [hnat]
    exact h.1
  · rw [hnat]
    exact h.2

theorem parseNat_map {cs : List Char} (hne : cs ≠ []) (hdigit : ∀ c ∈ cs, c.isDigit = true) :
    parseNat (cs.map Char.toUInt8) = some (Nat.ofDigitChars 10 cs 0) := by
  have hall : (cs.map Char.toUInt8).all (IsDigit ·) = true :=
    List.all_eq_true.mpr (List.forall_mem_map.mpr fun c hc =>
      decide_eq_true (isDigit_toUInt8 (hdigit c hc)))
  rw [parseNat, if_pos ⟨by simpa using hne, hall⟩, List.foldl_map, Nat.ofDigitChars_eq_foldl]
  congr 1
  apply List.foldl_ext
  intro n c hc
  rw [toNat_toUInt8 (hdigit c hc)]

theorem isDigit_of_mem_toDigits {n : ℕ} {c : Char} (h : c ∈ Nat.toDigits 10 n) :
    c.isDigit = true :=
  Nat.isDigit_of_mem_toDigits (by decide) (le_refl _) h

theorem parseNat_decimal (n : ℕ) : parseNat (decimal n) = some n := by
  rw [decimal, parseNat_map Nat.toDigits_ne_nil fun _ => isDigit_of_mem_toDigits,
    Nat.ofDigitChars_ten_toDigits]

theorem isDigit_of_mem_zeros {w n : ℕ} {c : Char}
    (h : c ∈ List.replicate (w - (Nat.toDigits 10 n).length) '0' ++ Nat.toDigits 10 n) :
    c.isDigit = true := by
  rcases List.mem_append.mp h with hzero | hdigit
  · rw [List.eq_of_mem_replicate hzero]
    rfl
  · exact isDigit_of_mem_toDigits hdigit

theorem parseNat_padded (w n : ℕ) : parseNat (padded w n) = some n := by
  rw [padded, parseNat_map (by simp) fun _ => isDigit_of_mem_zeros, Nat.ofDigitChars_append,
    Nat.ofDigitChars_replicate_zero, Nat.mul_zero, Nat.ofDigitChars_ten_toDigits]

theorem length_padded {w n : ℕ} (hw : 0 < w) (h : n < 10 ^ w) : (padded w n).length = w := by
  have hle := (Nat.length_toDigits_le_iff (by decide) hw).mpr h
  simp only [padded, List.length_map, List.length_append, List.length_replicate]
  omega

theorem length_decimal_le {n w : ℕ} (hw : 0 < w) (h : n < 10 ^ w) : (decimal n).length ≤ w := by
  rw [decimal, List.length_map]
  exact (Nat.length_toDigits_le_iff (by decide) hw).mpr h

theorem isDigit_of_mem_decimal {n : ℕ} {b : UInt8} (h : b ∈ decimal n) : IsDigit b := by
  obtain ⟨c, hc, rfl⟩ := List.mem_map.mp h
  exact isDigit_toUInt8 (isDigit_of_mem_toDigits hc)

theorem isDigit_of_mem_padded {w n : ℕ} {b : UInt8} (h : b ∈ padded w n) : IsDigit b := by
  obtain ⟨c, hc, rfl⟩ := List.mem_map.mp h
  exact isDigit_toUInt8 (isDigit_of_mem_zeros hc)

/-! ## Integers -/

/-- The conversion `%d`. -/
def signed (z : ℤ) : List UInt8 :=
  if z < 0 then '-'.toUInt8 :: decimal z.natAbs else decimal z.natAbs

def parseInt (bs : List UInt8) : Option ℤ :=
  match bs with
  | [] => none
  | b :: ds =>
      if b = '-'.toUInt8 then (parseNat ds).map fun (n : ℕ) => -(n : ℤ)
      else (parseNat (b :: ds)).map fun (n : ℕ) => (n : ℤ)

theorem parseInt_signed (z : ℤ) : parseInt (signed z) = some z := by
  by_cases hz : z < 0
  · simp only [signed, if_pos hz, parseInt, if_true, parseNat_decimal, Option.map_some]
    congr 1
    omega
  · have hparse := parseNat_decimal z.natAbs
    rw [signed, if_neg hz]
    cases hd : decimal z.natAbs with
    | nil =>
        rw [hd] at hparse
        cases hparse
    | cons b ds =>
        have hdigit : IsDigit b := isDigit_of_mem_decimal (hd ▸ List.mem_cons_self)
        have hne : b ≠ '-'.toUInt8 := by
          rintro rfl
          exact absurd hdigit (by decide)
        rw [hd] at hparse
        simp only [parseInt, if_neg hne, hparse, Option.map_some]
        congr 1
        omega

/-! ## Decimal fractions -/

def parseFixed (bs : List UInt8) : Option ℚ :=
  (cut '.'.toUInt8 bs).bind fun r =>
    (parseNat r.1).bind fun whole =>
      (parseNat r.2).map fun (fraction : ℕ) => (whole : ℚ) + fraction / 10 ^ r.2.length

theorem parseFixed_padded {w : ℕ} (whole : ℕ) {fraction : ℕ} (hw : 0 < w)
    (h : fraction < 10 ^ w) :
    parseFixed (decimal whole ++ '.'.toUInt8 :: padded w fraction) =
      some ((whole : ℚ) + fraction / 10 ^ w) := by
  have hpoint : '.'.toUInt8 ∉ decimal whole := fun hmem =>
    absurd (isDigit_of_mem_decimal hmem) (by decide)
  rw [parseFixed, cut_append hpoint, Option.bind_some, parseNat_decimal, Option.bind_some,
    parseNat_padded, length_padded hw h, Option.map_some]

example : parseFixed (ascii "0.00025") = some (1 / 4000) := by decide +kernel

end Systems.Text

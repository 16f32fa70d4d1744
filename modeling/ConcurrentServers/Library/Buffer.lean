import Mathlib.Tactic
import Mathlib.Data.Vector.Basic

/-!
# Buffers of a fixed size

A buffer is a vector that programs write at computed positions. A write
outside the bounds is not given a meaning here: `store` leaves the buffer as
it is, so a program that relies on its bounds has to prove them. The content
that matters is always a slice between two cursors.
-/

namespace Systems.Buffer

variable {α : Type*} {n : ℕ}

def store (b : List.Vector α n) (i : ℕ) (x : α) : List.Vector α n :=
  ⟨b.1.set i x, by simp⟩

/-- Copy a block to the start of the buffer, as `memcpy` does. -/
def overwrite (b : List.Vector α n) (xs : List α) : List.Vector α n :=
  ⟨(xs ++ b.1.drop xs.length).take n, by simp; omega⟩

/-- Copy a block to a position in the buffer. -/
def write (b : List.Vector α n) (i : ℕ) (xs : List α) : List.Vector α n :=
  ⟨(b.1.take i ++ xs ++ b.1.drop (i + xs.length)).take n, by simp; omega⟩

def slice (b : List.Vector α n) (i j : ℕ) : List α := (b.1.take j).drop i

@[simp] theorem slice_self (b : List.Vector α n) (i : ℕ) : slice b i i = [] := by
  simp [slice]

theorem slice_of_le (b : List.Vector α n) {i j : ℕ} (h : j ≤ i) : slice b i j = [] := by
  simp [slice]
  omega

theorem length_slice (b : List.Vector α n) {i j : ℕ} (hj : j ≤ n) :
    (slice b i j).length = j - i := by
  simp [slice, hj]

theorem slice_append_slice (b : List.Vector α n) {i j k : ℕ} (hij : i ≤ j) (hjk : j ≤ k) :
    slice b i j ++ slice b j k = slice b i k := by
  simp only [slice, List.drop_take]
  have hk : k - i = (j - i) + (k - j) := by omega
  have hj : j = i + (j - i) := by omega
  rw [hk, List.take_add, List.drop_drop, ← hj]

theorem take_slice (b : List.Vector α n) {i j k : ℕ} (h : i + k ≤ j) :
    (slice b i j).take k = slice b i (i + k) := by
  simp only [slice, List.drop_take, List.take_take]
  congr 1
  omega

theorem slice_store_of_le (b : List.Vector α n) {i j k : ℕ} (x : α) (h : j ≤ k) :
    slice (store b k x) i j = slice b i j := by
  simp only [slice, store]
  rw [List.take_set_of_le h]

theorem slice_store_of_lt (b : List.Vector α n) {i j k : ℕ} (x : α) (h : k < i) :
    slice (store b k x) i j = slice b i j := by
  simp only [slice, store, List.take_set]
  rw [List.drop_set_of_lt h]

/-- A write at the end cursor followed by its advance appends to the slice. -/
theorem slice_store_succ (b : List.Vector α n) {i j : ℕ} (x : α) (hij : i ≤ j) (hj : j < n) :
    slice (store b j x) i (j + 1) = slice b i j ++ [x] := by
  have hb : j < (b.1.set j x).length := by simpa using hj
  have hlast : slice (store b j x) j (j + 1) = [x] := by
    simp only [slice, store, List.take_succ_eq_append_getElem hb]
    simp [hj.le]
  rw [← slice_append_slice (store b j x) hij (Nat.le_succ j), hlast,
    slice_store_of_le b x (le_refl j)]

/-- A write at the end cursor followed by its advance, in bounds or not. -/
theorem slice_store_congr {b b' : List.Vector α n} {j : ℕ}
    (h : slice b 0 j = slice b' 0 j) (x : α) :
    slice (store b j x) 0 (j + 1) = slice (store b' j x) 0 (j + 1) := by
  rcases Nat.lt_or_ge j n with hlt | hge
  · rw [slice_store_succ b x (Nat.zero_le j) hlt,
      slice_store_succ b' x (Nat.zero_le j) hlt, h]
  · simp only [slice, store, List.drop_zero] at h ⊢
    rw [List.take_of_length_le (by simp; omega), List.take_of_length_le (by simp; omega)] at h
    rw [h]

theorem slice_cons (b : List.Vector α n) {i j : ℕ} (hij : i < j) (hj : j ≤ n) :
    ∃ x, b.1[i]? = some x ∧ slice b i j = x :: slice b (i + 1) j := by
  have hi : i < b.1.length := by simpa using hij.trans_le hj
  refine ⟨b.1[i], List.getElem?_eq_getElem hi, ?_⟩
  have hi' : i < (b.1.take j).length := by simpa using ⟨hij, hij.trans_le hj⟩
  simp only [slice]
  rw [List.drop_eq_getElem_cons hi', List.getElem_take]

theorem slice_overwrite (b : List.Vector α n) {xs : List α} (h : xs.length ≤ n) :
    slice (overwrite b xs) 0 xs.length = xs := by
  simp [slice, overwrite, List.take_take, h]

theorem overwrite_val (b : List.Vector α n) {xs : List α} (h : xs.length ≤ n) :
    (overwrite b xs).1 = xs ++ b.1.drop xs.length := by
  apply List.take_of_length_le
  simp
  omega

theorem write_val (b : List.Vector α n) {i : ℕ} {xs : List α} (h : i + xs.length ≤ n) :
    (write b i xs).1 = b.1.take i ++ xs ++ b.1.drop (i + xs.length) := by
  apply List.take_of_length_le
  simp
  omega

/-- A block at the end cursor is appended to the slice. -/
theorem slice_write (b : List.Vector α n) {i : ℕ} {xs : List α} (h : i + xs.length ≤ n) :
    slice (write b i xs) 0 (i + xs.length) = slice b 0 i ++ xs := by
  have hlength : (b.1.take i ++ xs).length = i + xs.length := by
    rw [List.length_append, List.length_take, b.2]
    omega
  rw [slice, slice, write_val b h, ← hlength, List.take_left]
  simp

/-- The cells around a store. -/
theorem store_val (b : List.Vector α n) {i : ℕ} (h : i < n) (x : α) :
    (store b i x).1 = slice b 0 i ++ x :: b.1.drop (i + 1) := by
  have hlt : i < b.1.length := by simpa using h
  change b.1.set i x = _
  rw [List.set_eq_take_append_cons_drop, if_pos hlt, slice, List.drop_zero]

/-- A write leaves alone what is not under the block. -/
theorem getElem?_write_of_ne (b : List.Vector α n) {i j : ℕ} {xs : List α}
    (hfits : j + xs.length ≤ n) (h : i < j ∨ j + xs.length ≤ i) :
    (write b j xs).1[i]? = b.1[i]? := by
  have htake : (b.1.take j).length = j := by
    rw [List.length_take, b.2]
    omega
  rw [write_val b hfits]
  rcases h with hlt | hle
  · rw [List.append_assoc, List.getElem?_append_left (by omega), List.getElem?_take_of_lt hlt]
  · rw [List.getElem?_append_right (by rw [List.length_append, htake]; exact hle),
      List.getElem?_drop, List.length_append, htake]
    congr 1
    omega

/-- The last element of the block is where the block ends. -/
theorem getElem?_write_last (b : List.Vector α n) {j : ℕ} {xs : List α} {x : α}
    (hfits : j + (xs ++ [x]).length ≤ n) : (write b j (xs ++ [x])).1[j + xs.length]? = some x := by
  have hlength : (b.1.take j ++ xs).length = j + xs.length := by
    rw [List.length_append, List.length_take, b.2]
    simp at hfits
    omega
  rw [write_val b hfits, ← List.append_assoc, List.append_assoc, ← hlength,
    List.getElem?_append_right le_rfl, Nat.sub_self]
  rfl

/-- A block and a terminator behind it. -/
theorem store_overwrite_val (b : List.Vector α n) {xs : List α} (h : xs.length < n) (x : α) :
    (store (overwrite b xs) xs.length x).1 = xs ++ x :: b.1.drop (xs.length + 1) := by
  have hlt : xs.length < b.1.length := by simpa using h
  simp only [store]
  rw [overwrite_val b h.le, List.drop_eq_getElem_cons hlt, List.set_append_right _ _ (le_refl _),
    Nat.sub_self, List.set_cons_zero]

end Systems.Buffer

import Mathlib.Tactic
import Mathlib.Data.List.Basic

/-!
# Circular buffers

A circular buffer is an array of `capacity` slots with the index of the first
entry and the number of entries. `contents` is the queue that it stands for.
Writing one slot behind the last entry appends, and moving the head drops the
first entry, also where the indices wrap around.
-/

namespace Systems.Ring

variable {α : Type*}

/-- The entries in `count` slots from `head` onward. -/
def contents (slots : ℕ → α) (capacity : ℕ) : ℕ → ℕ → List α
  | _, 0 => []
  | head, count + 1 => slots head :: contents slots capacity ((head + 1) % capacity) count

theorem length_contents (slots : ℕ → α) (capacity head count : ℕ) :
    (contents slots capacity head count).length = count := by
  induction count generalizing head with
  | zero => rfl
  | succ count ih => rw [contents, List.length_cons, ih]

theorem ne_add_mod {capacity head d : ℕ} (hhead : head < capacity) (hpos : 0 < d)
    (hd : d < capacity) : head ≠ (head + d) % capacity := by
  by_cases hwrap : head + d < capacity
  · rw [Nat.mod_eq_of_lt hwrap]
    omega
  · rw [Nat.mod_eq_sub_mod (by omega), Nat.mod_eq_of_lt (by omega)]
    omega

theorem contents_eq_map (slots : ℕ → α) {capacity head : ℕ} (hhead : head < capacity)
    (count : ℕ) : contents slots capacity head count =
      (List.range count).map fun k => slots ((head + k) % capacity) := by
  induction count generalizing head with
  | zero => rfl
  | succ count ih =>
      have hnext : (head + 1) % capacity < capacity := Nat.mod_lt _ (by omega)
      have hfirst : (head + 0) % capacity = head := Nat.mod_eq_of_lt hhead
      rw [contents, ih hnext, List.range_succ_eq_map, List.map_cons, List.map_map, hfirst]
      congr 1
      apply List.map_congr_left
      intro k _
      rw [Function.comp_apply, Nat.mod_add_mod, Nat.add_assoc, Nat.add_comm 1 k]

theorem contents_push (slots : ℕ → α) {capacity head count : ℕ} (x : α)
    (hhead : head < capacity) (hcount : count < capacity) :
    contents (Function.update slots ((head + count) % capacity) x) capacity head (count + 1) =
      contents slots capacity head count ++ [x] := by
  -- The written slot is reached last because it is not one of the earlier ones.
  induction count generalizing head with
  | zero => simp [contents, Nat.mod_eq_of_lt hhead]
  | succ count ih =>
      have hne := ne_add_mod hhead (Nat.succ_pos count) hcount
      have hnext : (head + 1) % capacity < capacity := Nat.mod_lt _ (by omega)
      have hslot : (head + (count + 1)) % capacity =
          ((head + 1) % capacity + count) % capacity := by
        rw [Nat.mod_add_mod]
        congr 1
        omega
      have htail := ih hnext (by omega)
      rw [← hslot] at htail
      rw [contents, htail, Function.update_of_ne hne, contents]
      rfl

theorem contents_pop (slots : ℕ → α) {capacity head count : ℕ} (hcount : 0 < count) :
    contents slots capacity head count =
      slots head :: contents slots capacity ((head + 1) % capacity) (count - 1) := by
  cases count with
  | zero => omega
  | succ count => rfl

theorem tail_push {capacity head count tail : ℕ} (h : tail = (head + count) % capacity) :
    (tail + 1) % capacity = (head + (count + 1)) % capacity := by
  rw [h, Nat.mod_add_mod, Nat.add_assoc]

theorem tail_pop {capacity head count tail : ℕ} (h : tail = (head + count) % capacity)
    (hcount : 0 < count) : tail = ((head + 1) % capacity + (count - 1)) % capacity := by
  rw [h, Nat.mod_add_mod]
  congr 1
  omega

end Systems.Ring

import ConcurrentServers.Library.Buffer

/-!
# Queued writes out of a buffer

An asynchronous write names the start of a buffer and a length, and the bytes
are read from the buffer when they are transmitted, which may be later and in
pieces. Writes are transmitted in the order in which they were queued. A write
leaves the queue when its completion is reported, so the transmitted ones may
still be in it, at its head.
-/

namespace Systems

/-- A write of the first `len` bytes, of which `off` have been transmitted. -/
structure Write (κ : Type*) where
  kind : κ
  len : ℕ
  off : ℕ

namespace Write

variable {κ α : Type*} {n : ℕ}

def Transmitted (w : Write κ) : Prop := w.off = w.len

instance (w : Write κ) : Decidable w.Transmitted := inferInstanceAs (Decidable (_ = _))

/-- Transmit the next `k` bytes of the first write that has any left. -/
def transmit (b : List.Vector α n) (k : ℕ) : List (Write κ) → Option (List (Write κ) × List α)
  | [] => none
  | w :: ws =>
      if w.off < w.len then
        if k ≤ w.len - w.off then
          some ({ w with off := w.off + k } :: ws, Buffer.slice b w.off (w.off + k))
        else none
      else (transmit b k ws).map fun r => (w :: r.1, r.2)

theorem transmit_singleton {b : List.Vector α n} {k : ℕ} {w : Write κ}
    {r : List (Write κ) × List α} (h : transmit b k [w] = some r) :
    w.off + k ≤ w.len ∧ r = ([{ w with off := w.off + k }], Buffer.slice b w.off (w.off + k)) := by
  unfold transmit at h
  split at h
  · simp only [Option.ite_none_right_eq_some, Option.some.injEq] at h
    exact ⟨by omega, h.2.symm⟩
  · cases h

theorem transmit_map_kind {b : List.Vector α n} {k : ℕ} {ws : List (Write κ)}
    {r : List (Write κ) × List α} (h : transmit b k ws = some r) :
    r.1.map kind = ws.map kind := by
  induction ws generalizing r with
  | nil => cases h
  | cons w ws ih =>
      unfold transmit at h
      split at h
      · simp only [Option.ite_none_right_eq_some, Option.some.injEq] at h
        rw [← h.2]
        rfl
      · obtain ⟨q, hq, rfl⟩ := Option.map_eq_some_iff.mp h
        simp [ih hq]

/-- The bytes that are still to be transmitted, as the buffer is now. -/
def pending (b : List.Vector α n) (ws : List (Write κ)) : List α :=
  ws.flatMap fun w => Buffer.slice b w.off w.len

/-- How many bytes are still to be transmitted. -/
def left (ws : List (Write κ)) : ℕ := (ws.map fun w => w.len - w.off).sum

@[simp] theorem left_cons (w : Write κ) (ws : List (Write κ)) :
    left (w :: ws) = w.len - w.off + left ws := by
  simp [left]

@[simp] theorem pending_append (b : List.Vector α n) (ws vs : List (Write κ)) :
    pending b (ws ++ vs) = pending b ws ++ pending b vs := by
  simp [pending]

@[simp] theorem pending_cons (b : List.Vector α n) (w : Write κ) (ws : List (Write κ)) :
    pending b (w :: ws) = Buffer.slice b w.off w.len ++ pending b ws := by
  simp [pending]

@[simp] theorem pending_nil (b : List.Vector α n) : pending b ([] : List (Write κ)) = [] := rfl

/-- What has been transmitted does not depend on the buffer any more. -/
theorem pending_of_left {ws : List (Write κ)} (h : left ws = 0) (b : List.Vector α n) :
    pending b ws = [] := by
  induction ws with
  | nil => rfl
  | cons w ws ih =>
      rw [left_cons, Nat.add_eq_zero_iff] at h
      rw [pending_cons, ih h.2, Buffer.slice_of_le b (by omega), List.append_nil]

/-- A transmission takes the first bytes that are pending. -/
theorem transmit_pending {b : List.Vector α n} {k : ℕ} {ws : List (Write κ)}
    {r : List (Write κ) × List α} (h : transmit b k ws = some r) :
    pending b ws = r.2 ++ pending b r.1 ∧ left ws = k + left r.1 := by
  induction ws generalizing r with
  | nil => cases h
  | cons w ws ih =>
      unfold transmit at h
      split at h
      · simp only [Option.ite_none_right_eq_some, Option.some.injEq] at h
        obtain ⟨hk, rfl⟩ := h
        have hle : w.off + k ≤ w.len := by omega
        constructor
        · rw [pending_cons, pending_cons, ← List.append_assoc,
            Buffer.slice_append_slice b (Nat.le_add_right _ _) hle]
        · simp only [left_cons]
          omega
      · obtain ⟨q, hq, rfl⟩ := Option.map_eq_some_iff.mp h
        obtain ⟨hpending, hleft⟩ := ih hq
        constructor
        · rw [pending_cons, pending_cons, Buffer.slice_of_le b (by omega), hpending]
          rfl
        · simp only [left_cons]
          omega

theorem exists_transmit {ws : List (Write κ)} (h : left ws ≠ 0) (b : List.Vector α n) :
    ∃ r, transmit b 1 ws = some r := by
  induction ws with
  | nil => exact absurd rfl h
  | cons w ws ih =>
      unfold transmit
      by_cases hw : w.off < w.len
      · rw [if_pos hw, if_pos (by omega)]
        exact ⟨_, rfl⟩
      · rw [left_cons] at h
        obtain ⟨r, hr⟩ := ih (by omega)
        rw [if_neg hw, hr]
        exact ⟨_, rfl⟩

end Write

end Systems

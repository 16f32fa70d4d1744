import Mathlib.Tactic
import Mathlib.Data.List.Basic

/-!
# Descriptor numbers and the connections behind them

The kernel hands out the number of a closed descriptor again, so a number does
not identify a connection. Here every accepted connection gets an identity that
is never used again, and the table says which connection is behind a number.
The fields of the structure make a connection sit behind one number at most and
make it impossible to bring a closed connection back.
-/

namespace Systems

structure Descriptors where
  owner : ℕ → Option ℕ
  fresh : ℕ
  closed : List ℕ
  owner_lt : ∀ {fd c}, owner fd = some c → c < fresh
  owner_inj : ∀ {fd fd' c}, owner fd = some c → owner fd' = some c → fd = fd'
  owner_notMem_closed : ∀ {fd c}, owner fd = some c → c ∉ closed
  closed_lt : ∀ {c}, c ∈ closed → c < fresh
  closed_nodup : closed.Nodup

namespace Descriptors

def empty : Descriptors where
  owner _ := none
  fresh := 0
  closed := []
  owner_lt := nofun
  owner_inj := nofun
  owner_notMem_closed := nofun
  closed_lt := nofun
  closed_nodup := List.nodup_nil

/-- A new connection behind a number. -/
def accept (d : Descriptors) (fd : ℕ) : Descriptors where
  owner := Function.update d.owner fd (some d.fresh)
  fresh := d.fresh + 1
  closed := d.closed
  owner_lt := by
    intro fd' c h
    by_cases hfd : fd' = fd
    · have hc : d.fresh = c := by simpa [hfd] using h
      omega
    · have hc := d.owner_lt (by simpa [hfd] using h)
      omega
  owner_inj := by
    intro fd₁ fd₂ c h₁ h₂
    by_cases hfd₁ : fd₁ = fd
    · by_cases hfd₂ : fd₂ = fd
      · rw [hfd₁, hfd₂]
      · have hc : d.fresh = c := by simpa [hfd₁] using h₁
        have hlt := d.owner_lt (by simpa [hfd₂] using h₂)
        omega
    · by_cases hfd₂ : fd₂ = fd
      · have hc : d.fresh = c := by simpa [hfd₂] using h₂
        have hlt := d.owner_lt (by simpa [hfd₁] using h₁)
        omega
      · exact d.owner_inj (by simpa [hfd₁] using h₁) (by simpa [hfd₂] using h₂)
  owner_notMem_closed := by
    intro fd' c h hc
    by_cases hfd : fd' = fd
    · have heq : d.fresh = c := by simpa [hfd] using h
      have hlt := d.closed_lt hc
      omega
    · exact d.owner_notMem_closed (by simpa [hfd] using h) hc
  closed_lt := fun hc => (d.closed_lt hc).trans (Nat.lt_succ_self _)
  closed_nodup := d.closed_nodup

/-- Release a number. A number that is not in use stays as it is, as `close`
then fails with `EBADF`. -/
def close (d : Descriptors) (fd : ℕ) : Descriptors where
  owner := Function.update d.owner fd none
  fresh := d.fresh
  closed := d.closed ++ (d.owner fd).toList
  owner_lt := by
    intro fd' c h
    by_cases hfd : fd' = fd
    · simp [hfd] at h
    · exact d.owner_lt (by simpa [hfd] using h)
  owner_inj := by
    intro fd₁ fd₂ c h₁ h₂
    by_cases hfd₁ : fd₁ = fd
    · simp [hfd₁] at h₁
    · by_cases hfd₂ : fd₂ = fd
      · simp [hfd₂] at h₂
      · exact d.owner_inj (by simpa [hfd₁] using h₁) (by simpa [hfd₂] using h₂)
  owner_notMem_closed := by
    intro fd' c h hc
    by_cases hfd : fd' = fd
    · simp [hfd] at h
    · have h' : d.owner fd' = some c := by simpa [hfd] using h
      rcases List.mem_append.mp hc with hc | hc
      · exact d.owner_notMem_closed h' hc
      · exact hfd (d.owner_inj h' (by simpa using hc))
  closed_lt := by
    intro c hc
    rcases List.mem_append.mp hc with hc | hc
    · exact d.closed_lt hc
    · exact d.owner_lt (by simpa using hc)
  closed_nodup := by
    cases h : d.owner fd with
    | none => simpa using d.closed_nodup
    | some c =>
        have hc := d.owner_notMem_closed h
        rw [Option.toList_some, List.nodup_append]
        refine ⟨d.closed_nodup, List.nodup_singleton c, ?_⟩
        intro a ha b hb hab
        rw [hab, List.mem_singleton.mp hb] at ha
        exact hc ha

@[simp] theorem owner_empty (fd : ℕ) : empty.owner fd = none := rfl

@[simp] theorem owner_accept_same (d : Descriptors) (fd : ℕ) :
    (d.accept fd).owner fd = some d.fresh := by
  simp [accept]

theorem owner_accept_ne (d : Descriptors) {fd fd' : ℕ} (hne : fd' ≠ fd) :
    (d.accept fd).owner fd' = d.owner fd' := by
  simp [accept, hne]

theorem owner_accept_cases {d : Descriptors} {fd fd' c : ℕ}
    (h : (d.accept fd).owner fd' = some c) : d.owner fd' = some c ∨ d.fresh ≤ c := by
  by_cases hfd : fd' = fd
  · right
    rw [hfd, owner_accept_same] at h
    exact (Option.some.inj h).le
  · left
    rwa [owner_accept_ne d hfd] at h

@[simp] theorem fresh_accept (d : Descriptors) (fd : ℕ) : (d.accept fd).fresh = d.fresh + 1 := rfl

@[simp] theorem owner_close_same (d : Descriptors) (fd : ℕ) : (d.close fd).owner fd = none := by
  simp [close]

theorem owner_close_ne (d : Descriptors) {fd fd' : ℕ} (hne : fd' ≠ fd) :
    (d.close fd).owner fd' = d.owner fd' := by
  simp [close, hne]

theorem close_of_none {d : Descriptors} {fd : ℕ} (h : d.owner fd = none) : d.close fd = d := by
  have howner : Function.update d.owner fd none = d.owner := Function.update_eq_self_iff.mpr h.symm
  have hclosed : d.closed ++ (d.owner fd).toList = d.closed := by
    rw [h]
    exact List.append_nil _
  obtain ⟨owner, fresh, closed⟩ := d
  simp only [close, mk.injEq]
  exact ⟨howner, trivial, hclosed⟩

theorem live_accept (d : Descriptors) {fd fd' : ℕ} :
    (d.accept fd).owner fd' ≠ none ↔ fd' = fd ∨ d.owner fd' ≠ none := by
  by_cases hfd : fd' = fd
  · simp [hfd]
  · rw [owner_accept_ne d hfd]
    exact ⟨Or.inr, fun h => h.resolve_left hfd⟩

theorem live_close (d : Descriptors) {fd fd' : ℕ} :
    (d.close fd).owner fd' ≠ none ↔ fd' ≠ fd ∧ d.owner fd' ≠ none := by
  by_cases hfd : fd' = fd
  · simp [hfd]
  · rw [owner_close_ne d hfd]
    exact ⟨fun h => ⟨hfd, h⟩, And.right⟩

theorem owner_of_owner_close {d : Descriptors} {fd fd' c : ℕ}
    (h : (d.close fd).owner fd' = some c) : d.owner fd' = some c := by
  by_cases hfd : fd' = fd
  · simp [hfd] at h
  · rwa [owner_close_ne d hfd] at h

/-- Every open connection but the one concerned is still open. -/
def Spares (d d' : Descriptors) (concerned : Option ℕ) : Prop :=
  ∀ fd c, d.owner fd = some c → concerned ≠ some fd → d'.owner fd = some c

/-- Every connection there has been is open or was closed. -/
def Accounted (d : Descriptors) : Prop :=
  ∀ c < d.fresh, (∃ fd, d.owner fd = some c) ∨ c ∈ d.closed

theorem accounted_empty : empty.Accounted := nofun

theorem Accounted.accept {d : Descriptors} {fd : ℕ} (h : d.Accounted) (hnone : d.owner fd = none) :
    (d.accept fd).Accounted := by
  intro c hc
  rcases Nat.lt_succ_iff_lt_or_eq.mp hc with hc | rfl
  · refine (h c hc).imp_left fun ⟨fd', howner⟩ => ⟨fd', ?_⟩
    have hne : fd' ≠ fd := by
      rintro rfl
      cases hnone.symm.trans howner
    rwa [owner_accept_ne d hne]
  · exact Or.inl ⟨fd, owner_accept_same d fd⟩

theorem Accounted.close {d : Descriptors} (h : d.Accounted) (fd : ℕ) : (d.close fd).Accounted := by
  intro c hc
  rcases h c hc with ⟨fd', howner⟩ | hclosed
  · by_cases hfd : fd' = fd
    · subst hfd
      right
      change c ∈ d.closed ++ (d.owner fd').toList
      simp [howner]
    · left
      exact ⟨fd', (owner_close_ne d hfd).trans howner⟩
  · exact Or.inr (List.mem_append_left _ hclosed)

/-- When no number is in use, every connection was closed, and each one once. -/
theorem Accounted.length_closed {d : Descriptors} (h : d.Accounted)
    (hnone : ∀ fd, d.owner fd = none) : d.closed.length = d.fresh := by
  have hmem : ∀ c, c ∈ d.closed ↔ c ∈ List.range d.fresh := by
    intro c
    rw [List.mem_range]
    refine ⟨d.closed_lt, fun hc => (h c hc).resolve_left ?_⟩
    rintro ⟨fd, howner⟩
    cases (hnone fd).symm.trans howner
  have hperm := (List.perm_ext_iff_of_nodup d.closed_nodup List.nodup_range).mpr hmem
  rw [hperm.length_eq, List.length_range]

end Descriptors

end Systems

import ConcurrentServers.Isprime.Model
import Mathlib.NumberTheory.LucasPrimality
import Mathlib.Tactic.NormNum.Prime
import Mathlib.Tactic.ReduceModChar

/-!
# What `isprime` computes

The loop tests odd `r` from `3` on and squares them modulo `2 ^ 64`. As long as
`r < 2 ^ 32` the square is exact, so the loop is trial division. For a prime
`n` above `(2 ^ 32 - 1) ^ 2` it runs on past the square root and is stopped by a
square that happens to wrap to more than `n`. It must be stopped before `r` is
`n`, which divides itself.
-/

namespace ConcurrentServers.Isprime

/-! ## Where the loop stops -/

/-- The values of `r` at which the loop evaluates `r * r <= n`, with at most `fuel`
iterations left. -/
def testedFrom (n : UInt64) : ℕ → UInt64 → List UInt64
  | 0, _ => []
  | fuel + 1, r =>
      r :: if r * r ≤ n then if n % r = 0 then [] else testedFrom n fuel (r + 2) else []

/-- All values of `r` that the loop of `isprime` evaluates. -/
def tested (n : UInt64) : List UInt64 :=
  if n % 2 = 0 then [] else testedFrom n (n.toNat + 1) 3

/-- The loop goes on to `r + 2` after it has tested `r`. -/
def GoesOn (n r : ℕ) : Prop :=
  r * r % 2 ^ 64 ≤ n ∧ ¬r ∣ n

/-- The loop started at `3` returns when it tests `k`. -/
structure StopsAt (n k : ℕ) : Prop where
  odd : k % 2 = 1
  three_le : 3 ≤ k
  lt : k < 2 ^ 64
  goesOn : ∀ r, r % 2 = 1 → 3 ≤ r → r < k → GoesOn n r
  stops : ¬GoesOn n k

theorem square_le_iff (n r : UInt64) : r * r ≤ n ↔ r.toNat * r.toNat % 2 ^ 64 ≤ n.toNat := by
  rw [UInt64.le_iff_toNat_le, UInt64.toNat_mul]

theorem mod_eq_zero_iff (n r : UInt64) : n % r = 0 ↔ r.toNat ∣ n.toNat := by
  rw [← UInt64.toNat_inj, UInt64.toNat_mod]
  exact Nat.dvd_iff_mod_eq_zero.symm

theorem toNat_add_two {r : UInt64} {k : ℕ} (hlt : r.toNat < k) (hk : k < 2 ^ 64)
    (hodd : r.toNat % 2 = 1) (hodd' : k % 2 = 1) : (r + 2).toNat = r.toNat + 2 := by
  rw [UInt64.toNat_add, Nat.mod_eq_of_lt]
  · rfl
  · change r.toNat + 2 < 2 ^ 64
    omega

variable {n : UInt64} {k : ℕ}

theorem isprimeLoop_of_stopsAt (h : StopsAt n.toNat k) {fuel : ℕ} {r : UInt64}
    (hodd : r.toNat % 2 = 1) (hthree : 3 ≤ r.toNat) (hle : r.toNat ≤ k)
    (hfuel : k < r.toNat + 2 * fuel) :
    isprimeLoop n fuel r = some (decide (n.toNat < k * k % 2 ^ 64)) := by
  induction fuel generalizing r with
  | zero => omega
  | succ fuel ih =>
      rw [isprimeLoop]
      simp only [square_le_iff, mod_eq_zero_iff]
      rcases hle.lt_or_eq with hlt | heq
      · obtain ⟨hsquare, hdvd⟩ := h.goesOn _ hodd hthree hlt
        have hodd' := h.odd
        have hnext := toNat_add_two hlt h.lt hodd hodd'
        rw [if_pos hsquare, if_neg hdvd]
        exact ih (by omega) (by omega) (by omega) (by omega)
      · have hstop := h.stops
        rw [heq]
        by_cases hsquare : k * k % 2 ^ 64 ≤ n.toNat
        · have hdvd : k ∣ n.toNat := by
            by_contra hdvd
            exact hstop ⟨hsquare, hdvd⟩
          rw [if_pos hsquare, if_pos hdvd, decide_eq_false (by omega)]
        · rw [if_neg hsquare, decide_eq_true (by omega)]

theorem mem_testedFrom_of_stopsAt (h : StopsAt n.toNat k) {fuel : ℕ} {r x : UInt64}
    (hodd : r.toNat % 2 = 1) (hthree : 3 ≤ r.toNat) (hle : r.toNat ≤ k)
    (hfuel : k < r.toNat + 2 * fuel) :
    x ∈ testedFrom n fuel r ↔ x.toNat % 2 = 1 ∧ r.toNat ≤ x.toNat ∧ x.toNat ≤ k := by
  induction fuel generalizing r with
  | zero => omega
  | succ fuel ih =>
      have hodd' := h.odd
      rw [testedFrom, List.mem_cons, ← UInt64.toNat_inj]
      simp only [square_le_iff, mod_eq_zero_iff]
      rcases hle.lt_or_eq with hlt | heq
      · obtain ⟨hsquare, hdvd⟩ := h.goesOn _ hodd hthree hlt
        have hnext := toNat_add_two hlt h.lt hodd hodd'
        rw [if_pos hsquare, if_neg hdvd, ih (by omega) (by omega) (by omega) (by omega)]
        omega
      · have hnil : (if r.toNat * r.toNat % 2 ^ 64 ≤ n.toNat then
            if r.toNat ∣ n.toNat then [] else testedFrom n fuel (r + 2) else []) = [] := by
          have hstop := h.stops
          rw [← heq] at hstop
          split
          · next hsquare =>
              split
              · rfl
              · next hdvd => exact absurd ⟨hsquare, hdvd⟩ hstop
          · rfl
        rw [hnil]
        simp only [List.not_mem_nil, or_false]
        omega

/-! ## The stopping point -/

theorem odd_toNat (hodd : ¬n % 2 = 0) : n.toNat % 2 = 1 := by
  have htwo : ¬2 ∣ n.toNat := fun hdvd => hodd ((mod_eq_zero_iff n 2).mpr hdvd)
  omega

theorem square_lt_of_lt {r : ℕ} (hr : r < 2 ^ 32) : r * r < 2 ^ 64 := by
  calc r * r ≤ (2 ^ 32 - 1) * (2 ^ 32 - 1) := Nat.mul_le_mul (by omega) (by omega)
    _ < 2 ^ 64 := by norm_num

theorem lt_of_square_lt {r : ℕ} (hr : r * r < 2 ^ 64) : r < 2 ^ 32 := by
  by_contra hle
  have hsquare : 2 ^ 32 * 2 ^ 32 ≤ r * r := Nat.mul_le_mul (by omega) (by omega)
  omega

/-- A composite number is found out by its least factor, whose square is exact. -/
theorem stopsAt_minFac {n : ℕ} (hodd : n % 2 = 1) (hone : n ≠ 1) (hlt : n < 2 ^ 64)
    (hprime : ¬n.Prime) : StopsAt n n.minFac ∧ n.minFac * n.minFac ≤ n := by
  have hle : n.minFac * n.minFac ≤ n := by
    rw [← sq]
    exact Nat.minFac_sq_le_self (by omega) hprime
  have hfactor : n.minFac.Prime := Nat.minFac_prime hone
  have hmod : n.minFac * n.minFac % 2 ^ 64 = n.minFac * n.minFac := Nat.mod_eq_of_lt (by omega)
  have hne : n.minFac ≠ 2 := by
    intro htwo
    have hdvd := n.minFac_dvd
    rw [htwo] at hdvd
    omega
  have hodd' := hfactor.eq_two_or_odd.resolve_left hne
  refine ⟨⟨hodd', ?_, ?_, ?_, ?_⟩, hle⟩
  · have htwo := hfactor.two_le
    omega
  · have hself := n.minFac_le (by omega)
    omega
  · intro r _ hthree hr
    have hsquare : r * r ≤ n.minFac * n.minFac := Nat.mul_le_mul hr.le hr.le
    refine ⟨?_, fun hdvd => ?_⟩
    · rw [Nat.mod_eq_of_lt (by omega)]
      omega
    · have hmin := Nat.minFac_le_of_dvd (by omega) hdvd
      omega
  · rintro ⟨-, hdvd⟩
    exact hdvd n.minFac_dvd

/-- The least number whose square is `2 ^ 64 - 7` modulo `2 ^ 64`. -/
def wrappingRoot : ℕ := 1852311383259529397

/-- For a prime `n` some odd `r` below `n`, or `n` itself, has a square that is more
than `n` modulo `2 ^ 64`. The odd numbers from `2 ^ 64 - 7` on are composite. -/
theorem exists_square_gt {n : ℕ} (hodd : n % 2 = 1) (hlt : n < 2 ^ 64) (hprime : n.Prime) :
    ∃ k, k % 2 = 1 ∧ 3 ≤ k ∧ k ≤ n ∧ n < k * k % 2 ^ 64 := by
  have htwo := hprime.two_le
  by_cases hsmall : n < 2 ^ 32
  · refine ⟨n, hodd, by omega, le_rfl, ?_⟩
    rw [Nat.mod_eq_of_lt (square_lt_of_lt hsmall)]
    nlinarith
  by_cases hmiddle : n < (2 ^ 32 - 1) * (2 ^ 32 - 1)
  · refine ⟨2 ^ 32 - 1, by norm_num, by norm_num, by omega, ?_⟩
    norm_num at hmiddle ⊢
    exact hmiddle
  have hroot : wrappingRoot * wrappingRoot % 2 ^ 64 = 2 ^ 64 - 7 := by norm_num [wrappingRoot]
  refine ⟨wrappingRoot, by norm_num [wrappingRoot], by norm_num [wrappingRoot], ?_, ?_⟩
  · norm_num [wrappingRoot] at hmiddle ⊢
    omega
  · rw [hroot]
    by_contra hge
    have hcases : n = 2 ^ 64 - 7 ∨ n = 2 ^ 64 - 5 ∨ n = 2 ^ 64 - 3 ∨ n = 2 ^ 64 - 1 := by omega
    rcases hcases with rfl | rfl | rfl | rfl <;> norm_num at hprime

/-- A prime number stops the loop by a square, and not by a division. -/
theorem stopsAt_of_prime {n : ℕ} (hodd : n % 2 = 1) (hlt : n < 2 ^ 64) (hprime : n.Prime) :
    ∃ k, StopsAt n k ∧ k ≤ n ∧ n < k * k % 2 ^ 64 := by
  classical
  have hexists := exists_square_gt hodd hlt hprime
  obtain ⟨hodd', hthree, hle, hsquare⟩ := Nat.find_spec hexists
  refine ⟨Nat.find hexists, ⟨hodd', hthree, by omega, ?_, ?_⟩, hle, hsquare⟩
  · intro r hrodd hrthree hr
    refine ⟨?_, fun hdvd => ?_⟩
    · by_contra hgt
      exact Nat.find_min hexists hr ⟨hrodd, hrthree, by omega, by omega⟩
    · rcases (Nat.dvd_prime hprime).mp hdvd with hone | hself <;> omega
  · rintro ⟨hle', -⟩
    omega

theorem stopsAt_one : StopsAt 1 3 where
  odd := rfl
  three_le := le_rfl
  lt := by norm_num
  goesOn := by omega
  stops := by norm_num [GoesOn]

/-- The loop always stops, and at a square above `n` only if `n` is a prime or `1`. -/
theorem exists_stopsAt {n : ℕ} (hodd : n % 2 = 1) (hlt : n < 2 ^ 64) :
    ∃ k, StopsAt n k ∧ k ≤ n + 2 ∧
      (n.Prime ∧ n < k * k % 2 ^ 64 ∨ ¬n.Prime ∧ (n = 1 ∨ k * k ≤ n)) := by
  by_cases hprime : n.Prime
  · obtain ⟨k, hstop, hle, hsquare⟩ := stopsAt_of_prime hodd hlt hprime
    exact ⟨k, hstop, by omega, Or.inl ⟨hprime, hsquare⟩⟩
  by_cases hone : n = 1
  · subst hone
    exact ⟨3, stopsAt_one, le_rfl, Or.inr ⟨hprime, Or.inl rfl⟩⟩
  · obtain ⟨hstop, hsquare⟩ := stopsAt_minFac hodd hone hlt hprime
    have hle := n.minFac_le (by omega)
    exact ⟨n.minFac, hstop, by omega, Or.inr ⟨hprime, Or.inr hsquare⟩⟩

/-- Below `(2 ^ 32 - 1) ^ 2` the loop for a prime number stops while squares are exact. -/
theorem StopsAt.lt_of_lt {n k : ℕ} (h : StopsAt n k) (hlt : n < (2 ^ 32 - 1) * (2 ^ 32 - 1)) :
    k < 2 ^ 32 := by
  by_contra hle
  obtain ⟨hsquare, -⟩ := h.goesOn (2 ^ 32 - 1) (by norm_num) (by norm_num) (by omega)
  norm_num at hsquare hlt
  omega

/-- From there on it goes past all of them. -/
theorem StopsAt.le_of_le {n k : ℕ} (h : StopsAt n k) (hprime : n.Prime)
    (hle : (2 ^ 32 - 1) * (2 ^ 32 - 1) ≤ n) : 2 ^ 32 < k := by
  by_contra hk
  have hodd := h.odd
  have hthree := h.three_le
  have hsquare : k * k ≤ (2 ^ 32 - 1) * (2 ^ 32 - 1) := Nat.mul_le_mul (by omega) (by omega)
  refine h.stops ⟨?_, fun hdvd => ?_⟩
  · rw [Nat.mod_eq_of_lt (square_lt_of_lt (by omega))]
    omega
  · rcases (Nat.dvd_prime hprime).mp hdvd with hone | hself
    · omega
    · norm_num at hle
      omega

/-! ## The result -/

theorem isprime_eq_of_stopsAt (hodd : ¬n % 2 = 0) (h : StopsAt n.toNat k)
    (hle : k ≤ n.toNat + 2) : isprime n = decide (n.toNat < k * k % 2 ^ 64) := by
  have hloop : isprimeLoop n (n.toNat + 1) 3 = some (decide (n.toNat < k * k % 2 ^ 64)) :=
    isprimeLoop_of_stopsAt h (r := 3) rfl le_rfl h.three_le (by change k < 3 + _; omega)
  rw [isprime, dif_neg hodd]
  exact Option.get_of_eq_some _ hloop

theorem isprime_of_even (heven : n % 2 = 0) : isprime n = true ↔ n.toNat.Prime := by
  have hdvd : 2 ∣ n.toNat := (mod_eq_zero_iff n 2).mp heven
  rw [isprime, dif_pos heven, beq_iff_eq, ← UInt64.toNat_inj]
  change n.toNat = 2 ↔ _
  constructor
  · intro htwo
    rw [htwo]
    exact Nat.prime_two
  · intro hprime
    exact ((Nat.prime_dvd_prime_iff_eq Nat.prime_two hprime).mp hdvd).symm

/-- `isprime` is right about every number but `1`. -/
theorem isprime_iff (hone : n ≠ 1) : isprime n = true ↔ n.toNat.Prime := by
  by_cases heven : n % 2 = 0
  · exact isprime_of_even heven
  have hlt := n.toNat_lt
  have hne : n.toNat ≠ 1 := fun h => hone (UInt64.toNat_inj.mp h)
  obtain ⟨k, hstop, hle, hcases⟩ := exists_stopsAt (odd_toNat heven) hlt
  rw [isprime_eq_of_stopsAt heven hstop hle, decide_eq_true_iff]
  rcases hcases with ⟨hprime, hsquare⟩ | ⟨hprime, hsquare⟩
  · exact iff_of_true hsquare hprime
  · have hsquare := hsquare.resolve_left hne
    rw [Nat.mod_eq_of_lt (by omega)]
    exact iff_of_false (by omega) hprime

theorem isprime_one : isprime 1 = true := by decide

theorem isprime_correct (hn : 2 ≤ n) :
    (n % 2 ≠ 0 → ∃ fuel, (isprimeLoop n fuel 3).isSome = true) ∧
      (isprime n = true ↔ n.toNat.Prime) := by
  refine ⟨fun hodd => ⟨_, isSome_isprimeLoop_three hodd⟩, isprime_iff ?_⟩
  rintro rfl
  exact absurd hn (by decide)

theorem isprime_correct_large : (2 : UInt64) ≤ 18446744069414584321 ∧
    (isprime 18446744069414584321 = true ↔ Nat.Prime 18446744069414584321) :=
  ⟨by decide, (isprime_correct (n := 18446744069414584321) (by decide)).2⟩

/-! ## Products that wrap -/

/-- The product is exact at every `r` that the loop evaluates, so the test compares
the square of `r`, and no earlier odd number has a square above `n`. -/
def ProductsExact (n : UInt64) : Prop :=
  ∀ r ∈ tested n, r.toNat * r.toNat < 2 ^ 64 ∧
    (r * r ≤ n ↔ r.toNat * r.toNat ≤ n.toNat) ∧
    ∀ q, q % 2 = 1 → 3 ≤ q → q < r.toNat → q * q ≤ n.toNat

theorem mem_tested_of_stopsAt (hodd : ¬n % 2 = 0) (h : StopsAt n.toNat k)
    (hle : k ≤ n.toNat + 2) {r : UInt64} :
    r ∈ tested n ↔ r.toNat % 2 = 1 ∧ 3 ≤ r.toNat ∧ r.toNat ≤ k := by
  rw [tested, if_neg hodd]
  exact mem_testedFrom_of_stopsAt h rfl le_rfl h.three_le (by change k < 3 + _; omega)

/-- As long as the loop stops below `2 ^ 32` it is exact. -/
theorem productsExact_of_lt (hodd : ¬n % 2 = 0) (h : StopsAt n.toNat k)
    (hle : k ≤ n.toNat + 2) (hlt : k < 2 ^ 32) : ProductsExact n := by
  intro r hr
  obtain ⟨-, -, hrk⟩ := (mem_tested_of_stopsAt hodd h hle).mp hr
  have hsquare : r.toNat * r.toNat < 2 ^ 64 := square_lt_of_lt (by omega)
  refine ⟨hsquare, ?_, ?_⟩
  · rw [square_le_iff, Nat.mod_eq_of_lt hsquare]
  · intro q hqodd hqthree hq
    obtain ⟨hqsquare, -⟩ := h.goesOn q hqodd hqthree (by omega)
    rwa [Nat.mod_eq_of_lt (square_lt_of_lt (by omega))] at hqsquare

theorem not_productsExact (hprime : n.toNat.Prime)
    (hle : (2 ^ 32 - 1) * (2 ^ 32 - 1) ≤ n.toNat) : ¬ProductsExact n := by
  have hne : n.toNat ≠ 2 := by
    norm_num at hle
    omega
  have hodd := hprime.eq_two_or_odd.resolve_left hne
  have hodd' : ¬n % 2 = 0 := fun heven => by
    have hdvd : 2 ∣ n.toNat := (mod_eq_zero_iff n 2).mp heven
    omega
  obtain ⟨k, hstop, hkn, -⟩ := stopsAt_of_prime hodd n.toNat_lt hprime
  have hk := hstop.le_of_le hprime hle
  intro h
  have hmem : (4294967297 : UInt64) ∈ tested n :=
    (mem_tested_of_stopsAt hodd' hstop (by omega)).mpr ⟨rfl, by decide, hk⟩
  exact absurd (h _ hmem).1 (by decide)

/-- The products are exact but for the primes from `(2 ^ 32 - 1) ^ 2` on. -/
theorem products_exact_iff (n : UInt64) :
    ProductsExact n ↔ ¬(n.toNat.Prime ∧ (2 ^ 32 - 1) * (2 ^ 32 - 1) ≤ n.toNat) := by
  refine ⟨fun h hlarge => not_productsExact hlarge.1 hlarge.2 h, fun hsmall => ?_⟩
  by_cases heven : n % 2 = 0
  · intro r hr
    rw [tested, if_pos heven] at hr
    cases hr
  have hlt := n.toNat_lt
  obtain ⟨k, hstop, hle, hcases⟩ := exists_stopsAt (odd_toNat heven) hlt
  refine productsExact_of_lt heven hstop hle ?_
  rcases hcases with ⟨hprime, -⟩ | ⟨-, hone | hsquare⟩
  · exact hstop.lt_of_lt (not_le.mp fun hlarge => hsmall ⟨hprime, hlarge⟩)
  · omega
  · exact lt_of_square_lt (by omega)

/-- The prime `2 ^ 64 - 2 ^ 32 + 1`, by the test of Lucas for the root `7`. -/
theorem prime_large : Nat.Prime 18446744069414584321 := by
  refine lucas_primality _ (7 : ZMod 18446744069414584321) ?_ ?_
  · norm_num
    reduce_mod_char
  · intro q hq hdvd
    have hfactors : 18446744069414584321 - 1 = 2 ^ 32 * (3 * (5 * (17 * (257 * 65537)))) := by
      norm_num
    have hmem : q = 2 ∨ q = 3 ∨ q = 5 ∨ q = 17 ∨ q = 257 ∨ q = 65537 := by
      rw [hfactors] at hdvd
      simp only [hq.dvd_mul] at hdvd
      rcases hdvd with h | h | h | h | h | h
      · exact .inl ((Nat.prime_dvd_prime_iff_eq hq Nat.prime_two).mp (hq.dvd_of_dvd_pow h))
      all_goals simp [(Nat.prime_dvd_prime_iff_eq hq (by norm_num)).mp h]
    rcases hmem with rfl | rfl | rfl | rfl | rfl | rfl <;> norm_num <;> reduce_mod_char <;> decide

theorem products_wrap : ¬ProductsExact 18446744069414584321 :=
  not_productsExact prime_large (by decide)

end ConcurrentServers.Isprime

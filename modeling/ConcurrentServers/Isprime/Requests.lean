import ConcurrentServers.Isprime.Primality
import ConcurrentServers.Isprime.Replies

/-!
# Numbers in requests

The digits of a request are summed up modulo `2 ^ 64`, and the reply is what
`isprime` says about the sum.
-/

namespace ConcurrentServers.Isprime

open Systems
open Systems.Text (ascii IsDigit parseNat)

variable {mode : Mode} {s : Server} {client : Client} {c : ℕ}

/-! ## Parsing -/

theorem toNat_digit {b : UInt8} (hb : IsDigit b) :
    (b - '0'.toUInt8).toUInt64.toNat = b.toNat - '0'.toNat := by
  rw [UInt8.toNat_toUInt64, UInt8.toNat_sub_of_le _ _ hb.1]
  rfl

/-- One round of the loop, on a sum that stands for `m`. -/
theorem toNat_accumulate {number : UInt64} {m : ℕ} {b : UInt8}
    (hnumber : number.toNat = m % 2 ^ 64) (hb : IsDigit b) :
    (number * 10 + (b - '0'.toUInt8).toUInt64).toNat =
      (10 * m + (b.toNat - '0'.toNat)) % 2 ^ 64 := by
  rw [UInt64.toNat_add, UInt64.toNat_mul, toNat_digit hb, hnumber]
  change (m % 2 ^ 64 * 10 % 2 ^ 64 + _) % 2 ^ 64 = _
  omega

theorem toNat_parseNumber {number : UInt64} {m : ℕ} {digits rest : List UInt8}
    (hnumber : number.toNat = m % 2 ^ 64) (hdigits : ∀ b ∈ digits, IsDigit b)
    (hrest : ∀ b bs, rest = b :: bs → ¬IsDigit b) :
    (parseNumber number (digits ++ rest)).toNat =
      digits.foldl (fun n b => 10 * n + (b.toNat - '0'.toNat)) m % 2 ^ 64 := by
  induction digits generalizing number m with
  | nil =>
      cases rest with
      | nil => exact hnumber
      | cons b bs =>
          rw [List.nil_append, parseNumber, if_neg (hrest b bs rfl)]
          exact hnumber
  | cons b digits ih =>
      have hb := hdigits b List.mem_cons_self
      rw [List.cons_append, parseNumber, if_pos hb, List.foldl_cons]
      exact ih (toNat_accumulate hnumber hb) fun b' hb' => hdigits b' (List.mem_cons_of_mem b hb')

theorem toNat_parseNumber_of_parseNat {digits rest : List UInt8} {v : ℕ}
    (hv : parseNat digits = some v) (hrest : ∀ b bs, rest = b :: bs → ¬IsDigit b) :
    (parseNumber 0 (digits ++ rest)).toNat = v % 2 ^ 64 := by
  unfold parseNat at hv
  split at hv
  · next hdigits =>
      cases hv
      refine toNat_parseNumber rfl (fun b hb => ?_) hrest
      exact of_decide_eq_true (List.all_eq_true.mp hdigits.2 b hb)
  · cases hv

/-! ## Replies -/

theorem isprime_iff_toNat (n : UInt64) :
    isprime n = true ↔ n.toNat = 1 ∨ n.toNat.Prime := by
  by_cases hone : n = 1
  · rw [hone]
    exact iff_of_true isprime_one (Or.inl rfl)
  · have hne : n.toNat ≠ 1 := fun h => hone (UInt64.toNat_inj.mp h)
    rw [isprime_iff hone, or_iff_right hne]

/-- The reply that a number deserves. -/
def verdict (v : ℕ) : List UInt8 := if v.Prime then ascii "prime" else ascii "composite"

/-- What is left of a number in 64 bits is taken for a prime when it is one. -/
theorem word_eq_verdict_iff {n : UInt64} {v : ℕ} (hn : n.toNat = v % 2 ^ 64) :
    word n = verdict v ↔ (v.Prime ↔ v % 2 ^ 64 = 1 ∨ (v % 2 ^ 64).Prime) := by
  have hne : ascii "prime" ≠ ascii "composite" := by decide
  rw [← hn, ← isprime_iff_toNat, word, verdict]
  by_cases hv : v.Prime <;> by_cases hw : isprime n = true <;> simp [hv, hw, hne, hne.symm]

/-- A number below `2 ^ 64` is answered rightly unless it is `1`, and a larger one
if it is a prime exactly when its remainder modulo `2 ^ 64` is `1` or a prime. -/
def Answerable (v : ℕ) : Prop :=
  v < 2 ^ 64 ∧ v ≠ 1 ∨ 2 ^ 64 ≤ v ∧ (v.Prime ↔ v % 2 ^ 64 = 1 ∨ (v % 2 ^ 64).Prime)

theorem answerable_iff (v : ℕ) :
    Answerable v ↔ (v.Prime ↔ v % 2 ^ 64 = 1 ∨ (v % 2 ^ 64).Prime) := by
  unfold Answerable
  rcases lt_or_ge v (2 ^ 64) with hlt | hge
  · rw [or_iff_left (by omega), and_iff_right hlt, Nat.mod_eq_of_lt hlt]
    by_cases hone : v = 1
    · simp [hone, Nat.not_prime_one]
    · simp [hone]
  · rw [or_iff_right (by omega), and_iff_right hge]

/-- Every request that was read can be answered completely, and then its reply is
the one that its number deserves exactly if the number is answerable. -/
theorem reply_right_iff {digits rest : List UInt8} {v i : ℕ}
    (h : (server mode).ReachableBy (perClient (orderly mode)) (.running s))
    (hc : s.clients c = some client) (hi : client.requests[i]? = some (digits ++ rest))
    (hv : parseNat digits = some v) (hrest : ∀ b bs, rest = b :: bs → ¬IsDigit b) :
    (∃ as s' client', (server mode).run (.running s) as = some (.running s') ∧
      (∀ l ∈ as, l.Serves c) ∧ s'.clients c = some client' ∧ client'.Settled ∧
      ((replies client'.transmitted)[i]? = some (verdict v) ↔ Answerable v)) ∧
    (client.Settled →
      ((replies client.transmitted)[i]? = some (verdict v) ↔ Answerable v)) := by
  have hsettled : ∀ {s' : Server} {client' : Client},
      (server mode).ReachableBy (perClient (orderly mode)) (.running s') →
      s'.clients c = some client' → client'.requests = client.requests → client'.Settled →
      ((replies client'.transmitted)[i]? = some (verdict v) ↔ Answerable v) := by
    intro s' client' h' hc' hrequests hsettled'
    rw [transmitted_of_settled h' hc' hsettled', hrequests, replies_reply, List.getElem?_map, hi,
      Option.map_some, Option.some.injEq,
      word_eq_verdict_iff (toNat_parseNumber_of_parseNat hv hrest), answerable_iff]
  refine ⟨?_, hsettled h hc rfl⟩
  obtain ⟨as, s', client', hrun, hadmits, hserves, hc', hrequests, hsettled'⟩ :=
    exists_settled h hc
  exact ⟨as, s', client', hrun, hserves, hc', hsettled',
    hsettled (h.run as hadmits hrun) hc' hrequests hsettled'⟩

/-- The two requests of `overlapping`. -/
theorem reply_right_iff_overlapping :
    ∃ s, (server .workQueue).run (.running .start) overlapping = some (.running s) ∧
      ∃ as s' client', (server .workQueue).run (.running s) as = some (.running s') ∧
        s'.clients 0 = some client' ∧
        ((replies client'.transmitted)[1]? = some (verdict 7) ↔ Answerable 7) := by
  obtain ⟨s, client, hrun, hc, hrequests⟩ : ∃ s client,
      (server .workQueue).run (.running .start) overlapping = some (.running s) ∧
      s.clients 0 = some client ∧ client.requests[1]? = some (ascii "7" ++ ['\n'.toUInt8]) :=
    ⟨_, _, rfl, rfl, rfl⟩
  have hreach := Machine.ReachableBy.run (M := server .workQueue) (.init ⟨_, rfl, rfl⟩) overlapping
    admits_overlapping hrun
  have hrest : ∀ b bs, ['\n'.toUInt8] = b :: bs → ¬IsDigit b := by
    rintro b bs ⟨⟩
    decide
  obtain ⟨as, s', client', hrun', _, hc', _, hreply⟩ :=
    (reply_right_iff (v := 7) hreach hc hrequests (by decide) hrest).1
  exact ⟨s, hrun, as, s', client', hrun', hc', hreply⟩

/-- `isprime` takes `1` for a prime, and `2 ^ 64 + 2` for `2`. -/
theorem one_replied_prime :
    (∃ s client, (server .workQueue).run (.running .start)
        [arrive 0, request 0 "1\n", .work 0, report 0, .transmit 0 6] = some (.running s) ∧
      s.clients 0 = some client ∧ client.Settled ∧ client.requests = [ascii "1\n"] ∧
      replies client.transmitted = [ascii "prime"]) ∧
    verdict 1 = ascii "composite" ∧
    reply (ascii "18446744073709551618\n") = ascii "prime\n" ∧
    verdict 18446744073709551618 = ascii "composite" := by
  refine ⟨⟨_, _, rfl, rfl, ⟨rfl, rfl, rfl⟩, rfl, rfl⟩, ?_, by decide, ?_⟩
  · rw [verdict, if_neg Nat.not_prime_one]
  · rw [verdict, if_neg (by norm_num)]

end ConcurrentServers.Isprime

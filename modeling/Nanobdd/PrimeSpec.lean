import Mathlib.Tactic.NormNum.Prime
import Nanobdd.Lib.Ladder
import Nanobdd.Prime

/-!
# What the prime search finds

The loop of `isWitness` is the ladder of the library: with `i` bits left it holds
`Ladder.power witness (src - 1) src i`. While the squares of the residues are in the range of
`long long` every product has its value, so a prime is never rejected, whatever `rand()`
returns, and the search ends at the first prime at the latest.

## Main results

* `isWitness_of_prime` — a prime has no witness
* `prime_not_skipped` — **the search ends at or before the next prime**
-/

namespace Nanobdd

variable {rand : ℕ → ℕ} {fuel src t r w p d i b c : ℕ}

/-! ### The ladder -/

theorem u64MulMod_of_lt {a b c : ℕ} (h : a * b < 2 ^ 63) : u64MulMod a b c = some (a * b % c) :=
  if_pos h

theorem lt_pow_numberOfBitsFrom : ∀ {b : ℕ}, src < 2 ^ (b + 1) →
    src < 2 ^ numberOfBitsFrom src b := by
  intro b
  induction b with
  | zero => exact id
  | succ b ih =>
    intro h
    rw [numberOfBitsFrom]
    split
    · exact h
    · next hb =>
      refine ih ?_
      by_contra hle
      have hset : src.testBit (b + 1) = true := by
        refine Nat.testBit_of_two_pow_le_and_two_pow_add_one_gt (Nat.not_lt.mp hle) h
      exact hb hset

/-- All bits of an `unsigned int` are read. -/
theorem lt_pow_numberOfBits (h : src < 2 ^ 32) : src < 2 ^ numberOfBits src := by
  rw [numberOfBits]
  split
  · next h0 => rw [h0]; exact Nat.one_pos
  · exact lt_pow_numberOfBitsFrom h

/-- Where the ladder starts. -/
theorem isWitness_eq (hsrc : 1 < src) (h32 : src ≤ 2 ^ 32) : isWitness w src =
    isWitnessLoop w src (numberOfBits (src - 1))
      (Ladder.power w (src - 1) src (numberOfBits (src - 1))) := by
  rw [isWitness, Ladder.power_of_lt (lt_pow_numberOfBits (by omega)) hsrc]

/-- **One bit.** The square first, which may end the ladder, and then the factor. -/
theorem isWitnessLoop_succ (hsq : u64MulMod d d src = some (d * d % src)) :
    isWitnessLoop w src (i + 1) d =
      if d * d % src = 1 ∧ d ≠ 1 ∧ d ≠ src - 1 then some true
      else if (src - 1).testBit i then
        (u64MulMod (d * d % src) w src).bind (isWitnessLoop w src i)
      else isWitnessLoop w src i (d * d % src) := by
  rw [isWitnessLoop, hsq]
  simp only [Option.bind_eq_bind, Option.bind_some]

/-- Residues whose squares are in range. -/
theorem mul_lt_of_residues {a b : ℕ} (hn : (src - 1) * (src - 1) < 2 ^ 63) (ha : a < src)
    (hb : b < src) : a * b < 2 ^ 63 :=
  (Nat.mul_le_mul (Nat.le_sub_one_of_lt ha) (Nat.le_sub_one_of_lt hb)).trans_lt hn

/-- The ladder has a value when no product overflows. -/
theorem isWitnessLoop_isSome (hn : (src - 1) * (src - 1) < 2 ^ 63) (hw : w < src) :
    ∀ {i d : ℕ}, d < src → (isWitnessLoop w src i d).isSome = true := by
  intro i
  induction i with
  | zero => exact fun _ => rfl
  | succ i ih =>
    intro d hd
    have hsq : d * d % src < src := Nat.mod_lt _ (by omega)
    rw [isWitnessLoop_succ (u64MulMod_of_lt (mul_lt_of_residues hn hd hd))]
    split_ifs
    · rfl
    · rw [u64MulMod_of_lt (mul_lt_of_residues hn hsq hw), Option.bind_some]
      exact ih (Nat.mod_lt _ (by omega))
    · exact ih hsq

theorem isWitness_isSome (hn : (src - 1) * (src - 1) < 2 ^ 63) (hsrc : 1 < src) (hw : w < src) :
    (isWitness w src).isSome = true := isWitnessLoop_isSome hn hw hsrc

/-- **One bit of the ladder.** A product has no value, or the square is a root of one that a
prime would not have, or the ladder goes on. -/
theorem isWitnessLoop_power (w src i : ℕ) :
    isWitnessLoop w src (i + 1) (Ladder.power w (src - 1) src (i + 1)) = none ∨
      (isWitnessLoop w src (i + 1) (Ladder.power w (src - 1) src (i + 1)) = some true ∧
        ∃ d, d = Ladder.power w (src - 1) src (i + 1) ∧ d * d % src = 1 ∧ d ≠ 1 ∧ d ≠ src - 1) ∨
      isWitnessLoop w src (i + 1) (Ladder.power w (src - 1) src (i + 1)) =
        isWitnessLoop w src i (Ladder.power w (src - 1) src i) := by
  set d := Ladder.power w (src - 1) src (i + 1) with hd
  by_cases hmul : d * d < 2 ^ 63
  · rw [isWitnessLoop_succ (u64MulMod_of_lt hmul)]
    split_ifs with hroot hb
    · exact Or.inr (Or.inl ⟨rfl, d, rfl, hroot⟩)
    · rw [Ladder.power_of_set hb, ← hd]
      by_cases hmul' : d * d % src * w < 2 ^ 63
      · rw [u64MulMod_of_lt hmul', Option.bind_some]
        exact Or.inr (Or.inr rfl)
      · rw [u64MulMod, if_neg hmul']
        exact Or.inl rfl
    · rw [Ladder.power_of_clear (Bool.not_eq_true _ ▸ hb), ← hd]
      exact Or.inr (Or.inr rfl)
  · rw [isWitnessLoop, u64MulMod, if_neg hmul]
    exact Or.inl rfl

/-- **The ladder of a prime** never ends early, and ends at one. -/
theorem isWitnessLoop_of_prime (hp : p.Prime) (hw : 1 ≤ w) (hwp : w < p) :
    ∀ {i : ℕ}, isWitnessLoop w p i (Ladder.power w (p - 1) p i) ≠ some true := by
  intro i
  induction i with
  | zero =>
    rw [Ladder.power_pred hp hw hwp]
    nofun
  | succ i ih =>
    rcases isWitnessLoop_power w p i with hnone | ⟨-, d, hd, hroot, hne, hne'⟩ | hnext
    · rw [hnone]
      nofun
    · rcases Ladder.eq_of_square hp (hd ▸ Ladder.power_lt hp.pos) hroot with h | h
      · exact absurd h hne
      · exact absurd h hne'
    · rwa [hnext]

/-- **A prime has no witness.** -/
theorem isWitness_of_prime (hp : p.Prime) (hn : (p - 1) * (p - 1) < 2 ^ 63) (h32 : p ≤ 2 ^ 32)
    (hw : 1 ≤ w) (hwp : w < p) : isWitness w p = some false := by
  obtain ⟨found, hfound⟩ := Option.isSome_iff_exists.mp (isWitness_isSome hn hp.one_lt hwp)
  rw [isWitness_eq hp.one_lt h32] at hfound ⊢
  cases found with
  | true => exact absurd hfound (isWitnessLoop_of_prime hp hw hwp)
  | false => exact hfound

/-! ### One candidate -/

/-- The witnesses that are drawn are residues, and not zero. -/
theorem rand_lt (rand : ℕ → ℕ) (hsrc : 1 < src) (t : ℕ) : rand t % (src - 1) + 1 < src := by
  have := Nat.mod_lt (rand t) (show src - 1 > 0 by omega)
  omega

/-- A test that has a value for every witness has one for every stream. -/
theorem millerRabinRounds_isSome (hn : (src - 1) * (src - 1) < 2 ^ 63) (hsrc : 1 < src) :
    ∀ {n t : ℕ}, (millerRabinRounds rand src n t).isSome = true := by
  intro n
  induction n with
  | zero => exact rfl
  | succ n ih =>
    intro t
    obtain ⟨found, hfound⟩ :=
      Option.isSome_iff_exists.mp (isWitness_isSome hn hsrc (rand_lt rand hsrc t))
    rw [millerRabinRounds, if_neg (by omega), hfound]
    cases found with
    | true => rfl
    | false => exact ih

theorem isPrime_isSome (hn : (src - 1) * (src - 1) < 2 ^ 63) (hsrc : 1 < src) (rand : ℕ → ℕ)
    (t : ℕ) : (isPrime rand src t).isSome = true := by
  rw [isPrime]
  split
  · rfl
  · exact millerRabinRounds_isSome hn hsrc

/-- A number without witnesses is accepted. -/
theorem millerRabinRounds_of_none (hsrc : 1 < src)
    (h : ∀ w, 1 ≤ w → w < src → isWitness w src = some false) :
    ∀ {n t : ℕ}, millerRabinRounds rand src n t = some (true, t + n) := by
  intro n
  induction n with
  | zero => exact rfl
  | succ n ih =>
    intro t
    rw [millerRabinRounds, if_neg (by omega), h _ (Nat.succ_pos _) (rand_lt rand hsrc t)]
    simp only [Option.bind_eq_bind, Option.bind_some, Bool.false_eq_true, if_false]
    rw [ih, Nat.add_right_comm, Nat.add_assoc]

theorem hasFactor_of_prime (hp : p.Prime) {n : ℕ} (hn : n ≠ 1) : hasFactor p n = false := by
  rw [hasFactor]
  by_contra h
  simp only [Bool.not_eq_false, Bool.and_eq_true, bne_iff_ne, ne_eq, beq_iff_eq] at h
  rcases (Nat.dvd_prime hp).mp (Nat.dvd_of_mod_eq_zero h.2) with h1 | h1
  · exact hn h1
  · exact h.1 h1.symm

theorem hasEasyFactors_of_prime (hp : p.Prime) : hasEasyFactors p = false := by
  simp [hasEasyFactors, hasFactor_of_prime hp]

/-- **A prime is accepted.** -/
theorem isPrime_of_prime (hp : p.Prime) (hn : (p - 1) * (p - 1) < 2 ^ 63) (h32 : p ≤ 2 ^ 32) :
    isPrime rand p t = some (true, t + checkTimes) := by
  rw [isPrime, hasEasyFactors_of_prime hp]
  exact millerRabinRounds_of_none hp.one_lt fun w hw hwp => isWitness_of_prime hp hn h32 hw hwp

/-! ### The search -/

theorem primeSearch_mono (h : primeSearch rand fuel src t = some r) :
    ∀ {fuel' : ℕ}, fuel ≤ fuel' → primeSearch rand fuel' src t = some r := by
  induction fuel generalizing src t with
  | zero => simp [primeSearch] at h
  | succ fuel ih =>
    intro fuel' hle
    obtain ⟨k, rfl⟩ := Nat.exists_eq_add_of_le' (Nat.one_le_of_lt hle)
    rw [primeSearch] at h ⊢
    obtain ⟨⟨prime, t'⟩, hprime, h⟩ := Option.bind_eq_some_iff.mp h
    rw [hprime]
    cases prime with
    | true => exact h
    | false => exact ih h (Nat.le_of_succ_le_succ hle)

/-- From an odd candidate the search does not get past a prime. -/
theorem primeSearch_le (hp : p.Prime) (hn : (p - 1) * (p - 1) < 2 ^ 63) (h32 : p < 2 ^ 32)
    (rand : ℕ → ℕ) : ∀ {fuel src : ℕ} (t : ℕ), src % 2 = 1 → p % 2 = 1 → 1 < src → src ≤ p →
      p - src < fuel → ∃ r, primeSearch rand fuel src t = some r ∧ src ≤ r ∧ r ≤ p := by
  intro fuel
  induction fuel with
  | zero => intro src t _ _ _ _ hlt; exact absurd hlt (Nat.not_lt_zero _)
  | succ fuel ih =>
    intro src t hodd hpodd hsrc hle hlt
    have hsq : (src - 1) * (src - 1) < 2 ^ 63 :=
      (Nat.mul_le_mul (Nat.sub_le_sub_right hle 1) (Nat.sub_le_sub_right hle 1)).trans_lt hn
    obtain ⟨⟨prime, t'⟩, hprime⟩ :=
      Option.isSome_iff_exists.mp (isPrime_isSome hsq hsrc rand t)
    rw [primeSearch, hprime]
    cases prime with
    | true => exact ⟨src, rfl, le_rfl, hle⟩
    | false =>
      have hne : src ≠ p := by
        rintro rfl
        rw [isPrime_of_prime hp hn h32.le] at hprime
        simp at hprime
      have hnext : (src + 2) % 2 = 1 := by omega
      obtain ⟨r, hr, hler, hrp⟩ := ih t' hnext hpodd (by omega) (by omega) (by omega)
      refine ⟨r, ?_, by omega, hrp⟩
      rw [← Nat.mod_eq_of_lt (show src + 2 < 2 ^ 32 by omega)] at hr
      exact hr

/-- **No prime is skipped.** An odd prime with the square of `p - 1` in the range of `long long`
has no witness, so a search from below it ends, at an odd number that is no larger, whatever
`rand()` returns. -/
theorem prime_not_skipped (hp : p.Prime) (hodd : p ≠ 2) (hn : (p - 1) * (p - 1) < 2 ^ 63) :
    (∀ w, 1 ≤ w → w ≤ p - 1 → isWitness w p = some false) ∧
      ∀ src, 2 ≤ src → src ≤ p → ∀ rand : ℕ → ℕ, ∃ r,
        (∀ fuel > p - src, bddPrimeGte fuel rand src = some r) ∧ r % 2 = 1 ∧ src ≤ r ∧ r ≤ p := by
  have h32 : p < 2 ^ 32 := by
    by_contra hle
    have hge : 2 ^ 32 - 1 ≤ p - 1 := by omega
    have := Nat.mul_le_mul hge hge
    omega
  have hpodd : p % 2 = 1 := hp.eq_two_or_odd.resolve_left hodd
  have hpos := hp.one_lt
  refine ⟨fun w hw hwp => isWitness_of_prime hp hn h32.le hw (by omega), ?_⟩
  intro src hsrc hle rand
  have hstart : ∃ a, a % 2 = 1 ∧ src ≤ a ∧ a ≤ p ∧ ∀ fuel,
      bddPrimeGte fuel rand src = primeSearch rand fuel a 0 := by
    have hu : u32 src = src := Nat.mod_eq_of_lt (by omega)
    by_cases heven : src % 2 = 0
    · refine ⟨src + 1, by omega, by omega, by omega, fun fuel => ?_⟩
      rw [bddPrimeGte, hu, if_pos heven]
    · refine ⟨src, by omega, le_rfl, hle, fun fuel => ?_⟩
      rw [bddPrimeGte, hu, if_neg heven]
  obtain ⟨a, haodd, hsa, hap, heq⟩ := hstart
  obtain ⟨r, hr, har, hrp⟩ :=
    primeSearch_le hp hn h32 rand 0 haodd hpodd (by omega) hap (Nat.lt_succ_self (p - a))
  refine ⟨r, fun fuel hfuel => ?_, (primeSearch_odd haodd hr).1, hsa.trans har, hrp⟩
  rw [heq]
  exact primeSearch_mono hr (by omega)

/-- Searches up to `23`. -/
theorem prime_not_skipped_small : (∀ w, 1 ≤ w → w ≤ 23 - 1 → isWitness w 23 = some false) ∧
    ∀ src, 2 ≤ src → src ≤ 23 → ∀ rand : ℕ → ℕ, ∃ r,
      (∀ fuel > 23 - src, bddPrimeGte fuel rand src = some r) ∧ r % 2 = 1 ∧ src ≤ r ∧ r ≤ 23 :=
  prime_not_skipped (by norm_num) (by decide) (by decide)

end Nanobdd

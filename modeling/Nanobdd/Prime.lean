import Nanobdd.Memory

/-!
# The prime search

`Prime.h`, which turns the sizes asked for into the sizes of the table and of the cache. Every
`unsigned int` is a number below `2 ^ 32`. What `rand()` returns is a stream, and the position in
it is passed along. A `none` stands for an evaluation without a defined result (a remainder by
zero, a product out of the range of `long long`) or for a fuel that ran out.

## Main results

* `bddPrimeGte_ge` — a size that the search returns is at least `3`
-/

namespace Nanobdd

/-- `CHECKTIMES` -/
def checkTimes : ℕ := 20

/-- `u64_mulmod`, whose product is one of `long long`. -/
def u64MulMod (a b c : ℕ) : Option ℕ := if a * b < 2 ^ 63 then some (a * b % c) else none

/-- The loop of `numberOfBits` from bit `b` down. -/
def numberOfBitsFrom (src : ℕ) : ℕ → ℕ
  | 0 => 1
  | b + 1 => if src.testBit (b + 1) then b + 2 else numberOfBitsFrom src b

/-- `numberOfBits` -/
def numberOfBits (src : ℕ) : ℕ := if src = 0 then 0 else numberOfBitsFrom src 31

/-- The loop of `isWitness` with `i` bits left and the power `d` so far. -/
def isWitnessLoop (witness src : ℕ) : ℕ → ℕ → Option Bool
  | 0, d => some (d != 1)
  | i + 1, d => do
    let x := d
    let d ← u64MulMod d d src
    if d = 1 ∧ x ≠ 1 ∧ x ≠ src - 1 then some true
    else
      let d ← if (src - 1).testBit i then u64MulMod d witness src else some d
      isWitnessLoop witness src i d

/-- `isWitness` -/
def isWitness (witness src : ℕ) : Option Bool :=
  isWitnessLoop witness src (numberOfBits (src - 1)) 1

/-- The loop of `isMillerRabinPrime` with `n` rounds left; `Random(src - 1)` is a remainder. -/
def millerRabinRounds (rand : ℕ → ℕ) (src : ℕ) : ℕ → ℕ → Option (Bool × ℕ)
  | 0, t => some (true, t)
  | n + 1, t =>
    if src - 1 = 0 then none
    else do
      let found ← isWitness (rand t % (src - 1) + 1) src
      if found then some (false, t + 1) else millerRabinRounds rand src n (t + 1)

/-- `isMillerRabinPrime` -/
def isMillerRabinPrime (rand : ℕ → ℕ) (src t : ℕ) : Option (Bool × ℕ) :=
  millerRabinRounds rand src checkTimes t

/-- `hasFactor` -/
def hasFactor (src n : ℕ) : Bool := src != n && src % n == 0

/-- `hasEasyFactors` -/
def hasEasyFactors (src : ℕ) : Bool :=
  hasFactor src 3 || hasFactor src 5 || hasFactor src 7 || hasFactor src 11 || hasFactor src 13

/-- `isPrime` -/
def isPrime (rand : ℕ → ℕ) (src t : ℕ) : Option (Bool × ℕ) :=
  if hasEasyFactors src then some (false, t) else isMillerRabinPrime rand src t

/-- The loop of `bdd_prime_gte`. -/
def primeSearch (rand : ℕ → ℕ) : ℕ → ℕ → ℕ → Option ℕ
  | 0, _, _ => none
  | fuel + 1, src, t => do
    let (prime, t) ← isPrime rand src t
    if prime then some src else primeSearch rand fuel (u32 (src + 2)) t

/-- `bdd_prime_gte`, called with a `size_t` that becomes an `unsigned int`. -/
def bddPrimeGte (fuel : ℕ) (rand : ℕ → ℕ) (size : ℕ) : Option ℕ :=
  primeSearch rand fuel (if u32 size % 2 = 0 then u32 size + 1 else u32 size) 0

variable {rand : ℕ → ℕ} {fuel src t r : ℕ}

/-- The number one is never accepted: `Random(0)` has no value. -/
theorem isPrime_one (rand : ℕ → ℕ) (t : ℕ) : isPrime rand 1 t = none := rfl

theorem primeSearch_odd : ∀ {fuel src t : ℕ}, src % 2 = 1 →
    primeSearch rand fuel src t = some r → r % 2 = 1 ∧ r ≠ 1 := by
  intro fuel
  induction fuel with
  | zero => intro src t _ h; simp [primeSearch] at h
  | succ fuel ih =>
    intro src t hodd h
    rw [primeSearch] at h
    obtain ⟨⟨prime, t'⟩, hprime, h⟩ := Option.bind_eq_some_iff.mp h
    cases prime with
    | true =>
      cases h
      refine ⟨hodd, fun he => ?_⟩
      rw [he, isPrime_one] at hprime
      simp at hprime
    | false =>
      refine ih ?_ h
      rw [u32]
      omega

/-- **A size that the search returns is at least `3`.** -/
theorem bddPrimeGte_ge {size : ℕ} (h : bddPrimeGte fuel rand size = some r) : 3 ≤ r := by
  obtain ⟨hodd, hne⟩ := primeSearch_odd (by split <;> omega) h
  omega

end Nanobdd

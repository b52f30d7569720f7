import Nanobdd.PrimeSpec

/-!
# The prime search without 64-bit integers

Where the compiler has no 64-bit type, `Prime.h` brings its own: two words, a product by shifting
and adding, and a remainder by shifting and subtracting. The product is always exact. The
remainder is kept in one word and shifted once too often, so its top bit can get lost, and it is
right for all products exactly if the divisor is at most `2 ^ 31`.

## Main definitions

* `UINT64`, `u64Mul`, `u64Mod` — the arithmetic of two words
* `searchWith` — the prime search, whatever multiplies

## Main results

* `u64Mod_u64Mul_iff` — **the divisors for which the remainders are right**
* `portablePrimeGte_iff` — the searches of the two builds agree up to `2 ^ 31`
* `bddPrimeLte_largest` — **the search downwards** does not skip a prime either
-/

namespace Nanobdd

/-! ### Two words -/

/-- The `UINT64` of `Prime.h`, two `unsigned int`. -/
structure UINT64 where
  hi : ℕ
  lo : ℕ

variable {a b c d i j n m p r x y yh yl fuel src size t : ℕ} {u v : UINT64} {rand : ℕ → ℕ}

/-- `GETCARRY` -/
def getCarry (a b : ℕ) : ℕ := if u32 (a + b) < max a b then 1 else 0

/-- `(a << 1) | (b & 0x80000000 ? 1 : 0)` -/
def shlCarry (a b : ℕ) : ℕ := u32 (a <<< 1) ||| if b.testBit 31 then 1 else 0

/-- The loop of `u64_mul` with `i` rounds left. -/
def u64MulLoop : ℕ → ℕ → ℕ → ℕ → UINT64 → UINT64
  | 0, _, _, _, res => res
  | i + 1, x, yh, yl, res =>
    let res :=
      if x &&& 1 ≠ 0 then
        let carry := getCarry res.lo yl
        ⟨u32 (res.hi + u32 (yh + carry)), u32 (res.lo + yl)⟩
      else res
    u64MulLoop i (x >>> 1) (shlCarry yh yl) (u32 (yl <<< 1)) res

/-- `u64_mul` -/
def u64Mul (x y : ℕ) : UINT64 := u64MulLoop 32 x 0 y ⟨0, 0⟩

/-- `u64_shl`, with what it leaves in `a` and in `carryOut`. -/
def u64Shl (a : UINT64) (carryOut : ℕ) : UINT64 × ℕ :=
  (⟨shlCarry a.hi a.lo, u32 (a.lo <<< 1)⟩, shlCarry carryOut a.hi)

/-- The loop of `u64_mod` with `i` rounds left. -/
def u64ModLoop (divisor : ℕ) : ℕ → UINT64 → ℕ → ℕ
  | 0, _, remainder => remainder
  | i + 1, dividend, remainder =>
    let remainder := if divisor ≤ remainder then remainder - divisor else remainder
    let (dividend, remainder) := u64Shl dividend remainder
    u64ModLoop divisor i dividend remainder

/-- `u64_mod` -/
def u64Mod (dividend : UINT64) (divisor : ℕ) : ℕ :=
  let (dividend, remainder) := u64Shl dividend 0
  u64ModLoop divisor 64 dividend remainder >>> 1

namespace UINT64

/-- The number that the two words stand for. -/
def value (u : UINT64) : ℕ := u.hi * 2 ^ 32 + u.lo

/-- Both parts are words. -/
structure Fits (u : UINT64) : Prop where
  hi_lt : u.hi < 2 ^ 32
  lo_lt : u.lo < 2 ^ 32

end UINT64

open UINT64

/-! ### One shift -/

/-- The bit that is shifted in is the top bit of the other word. -/
theorem shlCarry_eq (hb : b < 2 ^ 32) : shlCarry a b = (2 * a + b / 2 ^ 31) % 2 ^ 32 := by
  have hbit : (if b.testBit 31 then 1 else 0) = b / 2 ^ 31 := by
    rw [Nat.testBit_eq_decide_div_mod_eq]
    simp only [decide_eq_true_eq]
    split <;> omega
  have hor : ∀ k e, e < 2 → 2 * k ||| e = 2 * k + e := fun k e he => by
    simpa using (Nat.two_pow_add_eq_or_of_lt (i := 1) (b := e) (by simpa using he) k).symm
  have heven : u32 (a <<< 1) = 2 * (a % 2 ^ 31) := by
    rw [u32, Nat.shiftLeft_eq]
    omega
  rw [shlCarry, hbit, heven, hor _ _ (by omega)]
  omega

theorem u64Shl_fits (a : UINT64) (carryOut : ℕ) (ha : a.Fits) : (u64Shl a carryOut).1.Fits := by
  have := ha.lo_lt
  refine ⟨?_, Nat.mod_lt _ (by decide)⟩
  show shlCarry a.hi a.lo < _
  rw [shlCarry_eq ha.lo_lt]
  exact Nat.mod_lt _ (by decide)

/-- Two words are shifted like one number. -/
theorem value_u64Shl (ha : u.Fits) (c : ℕ) : (u64Shl u c).1.value = 2 * u.value % 2 ^ 64 := by
  have hhi := ha.hi_lt
  have hlo := ha.lo_lt
  show shlCarry u.hi u.lo * 2 ^ 32 + u32 (u.lo <<< 1) = 2 * (u.hi * 2 ^ 32 + u.lo) % 2 ^ 64
  rw [shlCarry_eq hlo, u32, Nat.shiftLeft_eq]
  omega

/-- The bit that comes out is the top bit of the number. -/
theorem u64Shl_snd (ha : u.Fits) (c : ℕ) :
    (u64Shl u c).2 = (2 * c + u.value / 2 ^ 63) % 2 ^ 32 := by
  have hhi := ha.hi_lt
  have hlo := ha.lo_lt
  have htop : u.value / 2 ^ 63 = u.hi / 2 ^ 31 := by
    rw [value]
    omega
  show shlCarry c u.hi = _
  rw [shlCarry_eq hhi, htop]

/-! ### The product -/

/-- The carry is the one of the sum of two words. -/
theorem getCarry_eq (ha : a < 2 ^ 32) (hb : b < 2 ^ 32) : getCarry a b = (a + b) / 2 ^ 32 := by
  rw [getCarry, u32]
  split <;> omega

/-- One addition with carry. -/
theorem value_add (hu : u.Fits) (hyl : yl < 2 ^ 32) :
    value ⟨u32 (u.hi + u32 (yh + getCarry u.lo yl)), u32 (u.lo + yl)⟩ =
      (u.value + value ⟨yh, yl⟩) % 2 ^ 64 := by
  have hhi := hu.hi_lt
  have hlo := hu.lo_lt
  rw [getCarry_eq hlo hyl]
  simp only [value, u32]
  omega

/-- **The loop multiplies** modulo `2 ^ 64`, by as many bits of `x` as rounds are left. -/
theorem value_u64MulLoop : ∀ {i x : ℕ} {v u : UINT64}, x < 2 ^ i → v.Fits → u.Fits →
    (u64MulLoop i x v.hi v.lo u).Fits ∧
      (u64MulLoop i x v.hi v.lo u).value = (u.value + x * v.value) % 2 ^ 64 := by
  intro i
  induction i with
  | zero =>
    intro x v u hx _ hu
    have hx0 : x = 0 := by simpa using hx
    have hhi := hu.hi_lt
    have hlo := hu.lo_lt
    refine ⟨hu, ?_⟩
    show u.value = _
    rw [hx0, Nat.zero_mul, value]
    omega
  | succ i ih =>
    intro x v u hx hv hu
    have hshift : x >>> 1 = x / 2 := Nat.shiftRight_one x
    have hhalf : x / 2 < 2 ^ i := by
      rw [pow_succ] at hx
      omega
    have hbit : x &&& 1 = x % 2 := Nat.and_one_is_mod x
    -- one more partial product, if the bit is set
    obtain ⟨w, hw, hfits, hvalue⟩ : ∃ w : UINT64,
        u64MulLoop (i + 1) x v.hi v.lo u =
          u64MulLoop i (x / 2) (u64Shl v 0).1.hi (u64Shl v 0).1.lo w ∧ w.Fits ∧
          w.value = (u.value + x % 2 * v.value) % 2 ^ 64 := by
      refine ⟨_, by rw [u64MulLoop, hshift]; rfl, ?_, ?_⟩
      · split
        · exact ⟨Nat.mod_lt _ (by decide), Nat.mod_lt _ (by decide)⟩
        · exact hu
      · split
        · next h =>
          rw [show x % 2 = 1 by omega, Nat.one_mul]
          exact value_add hu hv.lo_lt
        · next h =>
          have hhi := hu.hi_lt
          have hlo := hu.lo_lt
          rw [show x % 2 = 0 by omega, Nat.zero_mul, Nat.add_zero, value]
          omega
    rw [hw]
    obtain ⟨hr, hrv⟩ := ih hhalf (u64Shl_fits v 0 hv) hfits
    refine ⟨hr, hrv.trans ?_⟩
    rw [hvalue, value_u64Shl hv]
    -- the bits above
    calc ((u.value + x % 2 * v.value) % 2 ^ 64 + x / 2 * (2 * v.value % 2 ^ 64)) % 2 ^ 64
        = (u.value + x % 2 * v.value + x / 2 * (2 * v.value)) % 2 ^ 64 := by
          rw [Nat.add_mod, Nat.mod_mod, Nat.mul_mod, Nat.mod_mod, ← Nat.mul_mod, ← Nat.add_mod]
      _ = (u.value + (x % 2 + 2 * (x / 2)) * v.value) % 2 ^ 64 := by ring_nf
      _ = (u.value + x * v.value) % 2 ^ 64 := by rw [Nat.mod_add_div]

/-- **The product is exact.** -/
theorem value_u64Mul (hx : x < 2 ^ 32) (hy : y < 2 ^ 32) :
    (u64Mul x y).Fits ∧ (u64Mul x y).value = x * y := by
  have hzero : (⟨0, 0⟩ : UINT64).Fits := ⟨by decide, by decide⟩
  obtain ⟨hfits, hvalue⟩ := value_u64MulLoop (v := ⟨0, y⟩) hx
    ⟨Nat.two_pow_pos 32, hy⟩ hzero
  have hlt : x * y < 2 ^ 64 := by
    calc x * y < 2 ^ 32 * 2 ^ 32 := Nat.mul_lt_mul'' hx hy
      _ = 2 ^ 64 := by norm_num
  refine ⟨hfits, hvalue.trans ?_⟩
  simpa [value] using hlt

/-! ### The remainder -/

theorem restore_eq (hr : r < 2 * d) : (if d ≤ r then r - d else r) = r % d := by
  split
  · next h => rw [Nat.mod_eq_sub_mod h, Nat.mod_eq_of_lt (by omega)]
  · next h => rw [Nat.mod_eq_of_lt (by omega)]

/-- A number and the next bit of the dividend, and then the bits below it. -/
theorem horner_mod (r m d j : ℕ) :
    ((2 * (r % d) + m / 2 ^ j) * 2 ^ j + m % 2 ^ j) % d = (r * 2 ^ (j + 1) + m) % d := by
  calc ((2 * (r % d) + m / 2 ^ j) * 2 ^ j + m % 2 ^ j) % d
      = (r % d * 2 ^ (j + 1) + (m / 2 ^ j * 2 ^ j + m % 2 ^ j)) % d := by ring_nf
    _ = (r % d * 2 ^ (j + 1) + m) % d := by rw [Nat.div_add_mod']
    _ = (r * 2 ^ (j + 1) + m) % d := by
      rw [Nat.add_mod, Nat.mul_mod, Nat.mod_mod, ← Nat.mul_mod, ← Nat.add_mod]

/-- No bit gets lost before the last shift: the divisor has 31 bits, or nothing is subtracted. -/
def Tame (d r j m : ℕ) : Prop := d ≤ 2 ^ 31 ∨ d ≤ 2 ^ 32 ∧ r * 2 ^ j + m < d

/-- The doubled remainder is a word, and the rest is as tame. -/
theorem Tame.next (ht : Tame d r (j + 1) m) (hd : 0 < d) (hm : m < 2 ^ (j + 1)) :
    2 * (r % d) + m / 2 ^ j < 2 ^ 32 ∧ Tame d (2 * (r % d) + m / 2 ^ j) j (m % 2 ^ j) := by
  have hmod := Nat.mod_lt r hd
  have hbit : m / 2 ^ j < 2 := by
    rw [Nat.div_lt_iff_lt_mul (by positivity), ← pow_succ']
    exact hm
  rcases ht with hle | ⟨hle, hlt⟩
  · exact ⟨by omega, .inl hle⟩
  · have hr : r % d = r := by
      refine Nat.mod_eq_of_lt (lt_of_le_of_lt ?_ hlt)
      exact (Nat.le_mul_of_pos_right r (by positivity)).trans (Nat.le_add_right _ _)
    have hsum : (2 * r + m / 2 ^ j) * 2 ^ j + m % 2 ^ j = r * 2 ^ (j + 1) + m := by
      calc (2 * r + m / 2 ^ j) * 2 ^ j + m % 2 ^ j
          = r * 2 ^ (j + 1) + (m / 2 ^ j * 2 ^ j + m % 2 ^ j) := by ring
        _ = r * 2 ^ (j + 1) + m := by rw [Nat.div_add_mod']
    rw [hr]
    refine ⟨?_, .inr ⟨hle, hsum ▸ hlt⟩⟩
    have hle' : 2 * r + m / 2 ^ j ≤ (2 * r + m / 2 ^ j) * 2 ^ j :=
      Nat.le_mul_of_pos_right _ (by positivity)
    omega

/-- **The loop reduces** the remainder and the `j` bits of the dividend that are left. -/
theorem u64ModLoop_eq (hd : 0 < d) : ∀ {j r m : ℕ} {u : UINT64}, j ≤ 63 → u.Fits →
    u.value = m * 2 ^ (64 - j) → m < 2 ^ j → r < 2 * d → Tame d r j m →
    u64ModLoop d (j + 1) u r = 2 * ((r * 2 ^ j + m) % d) % 2 ^ 32 := by
  intro j
  induction j with
  | zero =>
    intro r m u _ hu hval hm hr _
    have hm0 : m = 0 := by simpa using hm
    show (u64Shl u (if d ≤ r then r - d else r)).2 = _
    rw [restore_eq hr, u64Shl_snd hu, hval, hm0, pow_zero, Nat.mul_one, Nat.add_zero, Nat.zero_mul,
      Nat.zero_div, Nat.add_zero]
  | succ j ih =>
    intro r m u hj hu hval hm hr ht
    obtain ⟨hword, hrestTame⟩ := ht.next hd hm
    have hsplit : (2 : ℕ) ^ 63 = 2 ^ j * 2 ^ (63 - j) := by rw [← pow_add]; congr 1; omega
    have htop : u.value / 2 ^ 63 = m / 2 ^ j := by
      rw [hval, hsplit, show 64 - (j + 1) = 63 - j by omega]
      exact Nat.mul_div_mul_right _ _ (by positivity)
    have hbit : m / 2 ^ j < 2 := by
      rw [Nat.div_lt_iff_lt_mul (by positivity), ← pow_succ']
      exact hm
    have hnext : (u64Shl u (r % d)).2 = 2 * (r % d) + m / 2 ^ j := by
      rw [u64Shl_snd hu, htop]
      exact Nat.mod_eq_of_lt hword
    have hrest : (u64Shl u (r % d)).1.value = m % 2 ^ j * 2 ^ (64 - j) := by
      have hpow : (2 : ℕ) ^ 64 = 2 ^ j * 2 ^ (64 - j) := by rw [← pow_add]; congr 1; omega
      have hdouble : 2 * (m * 2 ^ (64 - (j + 1))) = m * 2 ^ (64 - j) := by
        rw [show 64 - j = 64 - (j + 1) + 1 by omega, Nat.pow_succ]
        ring
      rw [value_u64Shl hu, hval, hdouble, hpow]
      exact Nat.mul_mod_mul_right _ _ _
    have hlt : 2 * (r % d) + m / 2 ^ j < 2 * d := by
      have := Nat.mod_lt r hd
      omega
    calc u64ModLoop d (j + 1 + 1) u r
        = u64ModLoop d (j + 1) (u64Shl u (r % d)).1 (u64Shl u (r % d)).2 := by
          rw [u64ModLoop, restore_eq hr]
      _ = 2 * (((2 * (r % d) + m / 2 ^ j) * 2 ^ j + m % 2 ^ j) % d) % 2 ^ 32 := by
          rw [hnext]
          exact ih (by omega) (u64Shl_fits u _ hu) hrest (Nat.mod_lt _ (by positivity)) hlt
            hrestTame
      _ = 2 * ((r * 2 ^ (j + 1) + m) % d) % 2 ^ 32 := by rw [horner_mod]

/-- **What `u64_mod` returns**: the remainder without its top bit. -/
theorem u64Mod_eq (hu : u.Fits) (hd : 0 < d) (ht : d ≤ 2 ^ 31 ∨ d ≤ 2 ^ 32 ∧ u.value < d) :
    u64Mod u d = u.value % d % 2 ^ 31 := by
  have hhi := hu.hi_lt
  have hlo := hu.lo_lt
  have hlt : u.value < 2 ^ 64 := by
    rw [value]
    omega
  have hfirst : (u64Shl u 0).2 = u.value / 2 ^ 63 := by
    rw [u64Shl_snd hu]
    omega
  have hrest : (u64Shl u 0).1.value = u.value % 2 ^ 63 * 2 ^ (64 - 63) := by
    rw [value_u64Shl hu]
    omega
  have hsum : u.value / 2 ^ 63 * 2 ^ 63 + u.value % 2 ^ 63 = u.value := Nat.div_add_mod' _ _
  have hloop := u64ModLoop_eq hd (r := u.value / 2 ^ 63) le_rfl (u64Shl_fits u 0 hu) hrest
    (Nat.mod_lt _ (by decide)) (by omega) (by rw [Tame, hsum]; exact ht)
  show u64ModLoop d 64 (u64Shl u 0).1 (u64Shl u 0).2 >>> 1 = _
  rw [hfirst, hloop, hsum, Nat.shiftRight_one]
  omega

/-- The bit that gets lost. -/
theorem u64Mod_top (hlt : 2 ^ 31 < d) (hd : d ≤ 2 ^ 32) : u64Mod (u64Mul (2 ^ 31) 1) d = 0 := by
  obtain ⟨hfits, hvalue⟩ := value_u64Mul (x := 2 ^ 31) (y := 1) (by decide) (by decide)
  rw [u64Mod_eq hfits (by omega) (.inr ⟨hd, by omega⟩), hvalue, Nat.mul_one,
    Nat.mod_eq_of_lt hlt, Nat.mod_self]

/-- **When the remainders are right.** The product of two `unsigned int` is exact. With two words
the remainder of every such product is right, or the one of every product of two residues is the
one that the 64-bit type gives, exactly if the divisor is at most `2 ^ 31`. -/
theorem u64Mod_u64Mul_iff (hd : 0 < d) (hlt : d < 2 ^ 32) :
    (∀ x < 2 ^ 32, ∀ y < 2 ^ 32, (u64Mul x y).Fits ∧ (u64Mul x y).value = x * y) ∧
      ((∀ x < 2 ^ 32, ∀ y < 2 ^ 32, u64Mod (u64Mul x y) d = x * y % d) ↔ d ≤ 2 ^ 31) ∧
      ((∀ x < d, ∀ y < d, u64MulMod x y d = some (u64Mod (u64Mul x y) d)) ↔ d ≤ 2 ^ 31) := by
  have hright : d ≤ 2 ^ 31 → ∀ x < 2 ^ 32, ∀ y < 2 ^ 32, u64Mod (u64Mul x y) d = x * y % d := by
    intro hle x hx y hy
    obtain ⟨hfits, hvalue⟩ := value_u64Mul hx hy
    have hmod := Nat.mod_lt (x * y) hd
    rw [u64Mod_eq hfits hd (.inl hle), hvalue]
    exact Nat.mod_eq_of_lt (by omega)
  refine ⟨fun x hx y hy => value_u64Mul hx hy, ?_, ?_⟩
  · constructor
    · intro h
      by_contra hgt
      have htop := h (2 ^ 31) (by decide) 1 (by decide)
      rw [u64Mod_top (by omega) hlt.le, Nat.mul_one, Nat.mod_eq_of_lt (by omega)] at htop
      omega
    · exact hright
  · constructor
    · intro h
      by_contra hgt
      have htop := h (2 ^ 31) (by omega) 1 (by omega)
      rw [u64Mod_top (by omega) hlt.le, u64MulMod_of_lt (by decide), Nat.mul_one,
        Nat.mod_eq_of_lt (by omega)] at htop
      cases htop
    · intro hle x hx y hy
      have hprod : x * y < 2 ^ 63 := by
        calc x * y < 2 ^ 31 * 2 ^ 31 := Nat.mul_lt_mul'' (by omega) (by omega)
          _ < 2 ^ 63 := by norm_num
      rw [u64MulMod_of_lt hprod, hright hle x (by omega) y (by omega)]

/-- The divisor `7`. -/
theorem u64Mod_u64Mul_iff_seven :
    (∀ x < 2 ^ 32, ∀ y < 2 ^ 32, (u64Mul x y).Fits ∧ (u64Mul x y).value = x * y) ∧
      ((∀ x < 2 ^ 32, ∀ y < 2 ^ 32, u64Mod (u64Mul x y) 7 = x * y % 7) ↔ 7 ≤ 2 ^ 31) ∧
      ((∀ x < 7, ∀ y < 7, u64MulMod x y 7 = some (u64Mod (u64Mul x y) 7)) ↔ 7 ≤ 2 ^ 31) :=
  u64Mod_u64Mul_iff (by decide) (by decide)

/-! ### The searches of both builds -/

/-- The loop of `isWitness`, whatever multiplies. -/
def isWitnessLoopWith (mulMod : ℕ → ℕ → ℕ → Option ℕ) (witness src : ℕ) : ℕ → ℕ → Option Bool
  | 0, d => some (d != 1)
  | i + 1, d => do
    let x := d
    let d ← mulMod d d src
    if d = 1 ∧ x ≠ 1 ∧ x ≠ src - 1 then some true
    else
      let d ← if (src - 1).testBit i then mulMod d witness src else some d
      isWitnessLoopWith mulMod witness src i d

/-- The loop of `isMillerRabinPrime`, whatever multiplies. -/
def millerRabinRoundsWith (mulMod : ℕ → ℕ → ℕ → Option ℕ) (rand : ℕ → ℕ) (src : ℕ) :
    ℕ → ℕ → Option (Bool × ℕ)
  | 0, t => some (true, t)
  | n + 1, t =>
    if src - 1 = 0 then none
    else do
      let found ← isWitnessLoopWith mulMod (rand t % (src - 1) + 1) src (numberOfBits (src - 1)) 1
      if found then some (false, t + 1)
      else millerRabinRoundsWith mulMod rand src n (t + 1)

/-- `isPrime`, whatever multiplies. -/
def isPrimeWith (mulMod : ℕ → ℕ → ℕ → Option ℕ) (rand : ℕ → ℕ) (src t : ℕ) :
    Option (Bool × ℕ) :=
  if hasEasyFactors src then some (false, t) else millerRabinRoundsWith mulMod rand src checkTimes t

/-- The loop of a search, with the step from one candidate to the next. -/
def searchWith (mulMod : ℕ → ℕ → ℕ → Option ℕ) (rand next : ℕ → ℕ) : ℕ → ℕ → ℕ → Option ℕ
  | 0, _, _ => none
  | fuel + 1, src, t => do
    let (prime, t) ← isPrimeWith mulMod rand src t
    if prime then some src else searchWith mulMod rand next fuel (next src) t

/-- `src += 2` -/
def up (src : ℕ) : ℕ := u32 (src + 2)

/-- `src -= 2` -/
def down (src : ℕ) : ℕ := u32 (src + (2 ^ 32 - 2))

/-- `u64_mulmod` with two words, where no product is out of range. -/
def portableMulMod (a b c : ℕ) : Option ℕ := some (u64Mod (u64Mul a b) c)

/-- `bdd_prime_gte` with two words. -/
def portablePrimeGte (fuel : ℕ) (rand : ℕ → ℕ) (size : ℕ) : Option ℕ :=
  searchWith portableMulMod rand up fuel (if u32 size % 2 = 0 then u32 size + 1 else u32 size) 0

/-- Where `bdd_prime_lte` starts. -/
def lastCandidate (size : ℕ) : ℕ :=
  if u32 size % 2 = 0 then u32 (u32 size + (2 ^ 32 - 1)) else u32 size

/-- `bdd_prime_lte` -/
def bddPrimeLte (fuel : ℕ) (rand : ℕ → ℕ) (size : ℕ) : Option ℕ :=
  searchWith u64MulMod rand down fuel (lastCandidate size) 0

/-- `bdd_prime_lte` with two words. -/
def portablePrimeLte (fuel : ℕ) (rand : ℕ → ℕ) (size : ℕ) : Option ℕ :=
  searchWith portableMulMod rand down fuel (lastCandidate size) 0

variable {mulMod mulMod' : ℕ → ℕ → ℕ → Option ℕ} {next : ℕ → ℕ}

theorem isWitnessLoopWith_u64MulMod (witness src : ℕ) : ∀ i d,
    isWitnessLoopWith u64MulMod witness src i d = isWitnessLoop witness src i d := by
  intro i
  induction i with
  | zero => exact fun _ => rfl
  | succ i ih =>
    intro d
    simp only [isWitnessLoopWith, isWitnessLoop, ih]

theorem millerRabinRoundsWith_u64MulMod (rand : ℕ → ℕ) (src : ℕ) : ∀ n t,
    millerRabinRoundsWith u64MulMod rand src n t = millerRabinRounds rand src n t := by
  intro n
  induction n with
  | zero => exact fun _ => rfl
  | succ n ih =>
    intro t
    simp only [millerRabinRoundsWith, millerRabinRounds, isWitness, ih, isWitnessLoopWith_u64MulMod]

theorem isPrimeWith_u64MulMod (rand : ℕ → ℕ) (src t : ℕ) :
    isPrimeWith u64MulMod rand src t = isPrime rand src t := by
  rw [isPrimeWith, isPrime, millerRabinRoundsWith_u64MulMod, isMillerRabinPrime]

/-- With the 64-bit type the search upwards is `bdd_prime_gte`. -/
theorem searchWith_u64MulMod (rand : ℕ → ℕ) : ∀ fuel src t,
    searchWith u64MulMod rand up fuel src t = primeSearch rand fuel src t := by
  intro fuel
  induction fuel with
  | zero => exact fun _ _ => rfl
  | succ fuel ih =>
    intro src t
    simp only [searchWith, primeSearch, isPrimeWith_u64MulMod, ih, up]

/-- Residues of `c` are multiplied as residues. -/
def Residues (mulMod : ℕ → ℕ → ℕ → Option ℕ) (c : ℕ) : Prop :=
  ∀ x < c, ∀ y < c, mulMod x y c = some (x * y % c)

theorem residues_u64MulMod (hc : c ≤ 2 ^ 31) : Residues u64MulMod c := by
  intro x hx y hy
  refine u64MulMod_of_lt ?_
  calc x * y < 2 ^ 31 * 2 ^ 31 := Nat.mul_lt_mul'' (by omega) (by omega)
    _ < 2 ^ 63 := by norm_num

theorem residues_portable (hc : c ≤ 2 ^ 31) : Residues portableMulMod c := by
  intro x hx y hy
  obtain ⟨hfits, hvalue⟩ := value_u64Mul (x := x) (y := y) (by omega) (by omega)
  have hmod := Nat.mod_lt (x * y) (show 0 < c by omega)
  rw [portableMulMod, u64Mod_eq hfits (by omega) (.inl hc), hvalue, Nat.mod_eq_of_lt (by omega)]

/-- The ladder sees residues only. -/
theorem isWitnessLoopWith_congr (h : Residues mulMod c) (h' : Residues mulMod' c) {w : ℕ}
    (hw : w < c) : ∀ {i d : ℕ}, d < c →
      isWitnessLoopWith mulMod w c i d = isWitnessLoopWith mulMod' w c i d := by
  intro i
  induction i with
  | zero => exact fun _ => rfl
  | succ i ih =>
    intro d hd
    have hlt : ∀ x, x % c < c := fun x => Nat.mod_lt x (by omega)
    simp only [isWitnessLoopWith, h d hd d hd, h' d hd d hd, Option.bind_eq_bind, Option.bind_some,
      h _ (hlt _) w hw, h' _ (hlt _) w hw, ih (hlt _)]

theorem millerRabinRoundsWith_congr (h : Residues mulMod c) (h' : Residues mulMod' c) :
    ∀ {n t : ℕ}, millerRabinRoundsWith mulMod rand c n t =
      millerRabinRoundsWith mulMod' rand c n t := by
  intro n
  induction n with
  | zero => exact rfl
  | succ n ih =>
    intro t
    rw [millerRabinRoundsWith, millerRabinRoundsWith]
    split
    · rfl
    · next hc =>
      have hw : rand t % (c - 1) + 1 < c := by
        have := Nat.mod_lt (rand t) (show 0 < c - 1 by omega)
        omega
      rw [isWitnessLoopWith_congr h h' hw (by omega), ih]

/-- The test of a candidate depends on the products of its residues only. -/
theorem isPrimeWith_congr (h : Residues mulMod c) (h' : Residues mulMod' c) :
    isPrimeWith mulMod rand c t = isPrimeWith mulMod' rand c t := by
  rw [isPrimeWith, isPrimeWith, millerRabinRoundsWith_congr h h']

theorem searchWith_one : searchWith mulMod rand next fuel 1 t = none := by
  cases fuel with
  | zero => rfl
  | succ fuel => rfl

/-- A search upwards that wraps around ends without a result, at the number one. -/
theorem le_searchWith : ∀ {fuel src t : ℕ}, src % 2 = 1 → src < 2 ^ 32 →
    searchWith mulMod rand up fuel src t = some r → src ≤ r := by
  intro fuel
  induction fuel with
  | zero => intro src t _ _ hs; simp [searchWith] at hs
  | succ fuel ih =>
    intro src t hodd hlt hs
    obtain ⟨⟨prime, t'⟩, -, hs⟩ := Option.bind_eq_some_iff.mp hs
    cases prime with
    | true =>
      cases hs
      exact le_rfl
    | false =>
      change searchWith mulMod rand up fuel (u32 (src + 2)) t' = some r at hs
      by_cases hwrap : src + 2 < 2 ^ 32
      · have hnext : u32 (src + 2) = src + 2 := Nat.mod_eq_of_lt hwrap
        rw [hnext] at hs
        exact (Nat.le_add_right _ _).trans (ih (by omega) hwrap hs)
      · have hnext : u32 (src + 2) = 1 := by
          rw [u32]
          omega
        rw [hnext, searchWith_one] at hs
        simp at hs

/-- A search upwards does the same with any multiplication that is right on its candidates. -/
theorem searchWith_congr {bound : ℕ} (h : ∀ c ≤ bound, Residues mulMod c)
    (h' : ∀ c ≤ bound, Residues mulMod' c) (hr : r ≤ bound) :
    ∀ {fuel src t : ℕ}, src % 2 = 1 → src < 2 ^ 32 →
      searchWith mulMod rand up fuel src t = some r →
        searchWith mulMod' rand up fuel src t = some r := by
  intro fuel
  induction fuel with
  | zero => intro src t _ _ hs; simp [searchWith] at hs
  | succ fuel ih =>
    intro src t hodd hlt hs
    have hle : src ≤ bound := (le_searchWith hodd hlt hs).trans hr
    rw [searchWith, isPrimeWith_congr (h src hle) (h' src hle)] at hs
    obtain ⟨⟨prime, t'⟩, hprime, hs⟩ := Option.bind_eq_some_iff.mp hs
    rw [searchWith, hprime]
    cases prime with
    | true => exact hs
    | false =>
      refine ih ?_ (Nat.mod_lt _ (by decide)) hs
      rw [up, u32]
      omega

/-- **The searches of the two builds agree** on every result up to `2 ^ 31`, for every sequence of
values of `rand()`. -/
theorem portablePrimeGte_iff (hr : r ≤ 2 ^ 31) :
    portablePrimeGte fuel rand size = some r ↔ bddPrimeGte fuel rand size = some r := by
  have hlt : u32 size < 2 ^ 32 := Nat.mod_lt _ (by decide)
  rw [bddPrimeGte, ← searchWith_u64MulMod, portablePrimeGte]
  constructor
  · exact searchWith_congr (fun _ => residues_portable) (fun _ => residues_u64MulMod) hr
      (by split <;> omega) (by split <;> omega)
  · exact searchWith_congr (fun _ => residues_u64MulMod) (fun _ => residues_portable) hr
      (by split <;> omega) (by split <;> omega)

/-- A search from `10` with two words. -/
theorem portablePrimeGte_iff_small : portablePrimeGte 9 id 10 = some 11 :=
  (portablePrimeGte_iff (by decide)).mpr (by decide +kernel)

/-- Beyond `2 ^ 31` the build with two words rejects a prime. -/
example : isPrimeWith portableMulMod id 2147483659 0 = some (false, 2) ∧
    isPrimeWith u64MulMod id 2147483659 0 = some (true, 20) := by decide +kernel

/-! ### The search downwards -/

/-- From an odd candidate the search downwards ends at the first prime at the latest. -/
theorem searchWith_down (rand : ℕ → ℕ) : ∀ {fuel src : ℕ} (t : ℕ), src % 2 = 1 → 3 ≤ src →
    (src - 1) * (src - 1) < 2 ^ 63 → src < fuel →
    ∃ r, (∀ fuel' ≥ fuel, searchWith u64MulMod rand down fuel' src t = some r) ∧ r % 2 = 1 ∧
      r ≤ src ∧ ∀ p, p.Prime → p % 2 = 1 → p ≤ src → p ≤ r := by
  intro fuel
  induction fuel with
  | zero => intro src t _ _ _ hf; omega
  | succ fuel ih =>
    intro src t hodd hsrc hsq hf
    have h32 : src < 2 ^ 32 := by
      by_contra hge
      have : (2 ^ 32 - 1) * (2 ^ 32 - 1) ≤ (src - 1) * (src - 1) :=
        Nat.mul_le_mul (by omega) (by omega)
      omega
    obtain ⟨⟨prime, t'⟩, hprime⟩ := Option.isSome_iff_exists.mp
      (isPrime_isSome hsq (by omega) rand t)
    have hstep : ∀ fuel, searchWith u64MulMod rand down (fuel + 1) src t =
        if prime then some src else searchWith u64MulMod rand down fuel (down src) t' := by
      intro fuel
      rw [searchWith, isPrimeWith_u64MulMod, hprime]
      rfl
    cases prime with
    | true =>
      refine ⟨src, fun fuel' hf' => ?_, hodd, le_rfl, fun p _ _ hp => hp⟩
      obtain ⟨k, rfl⟩ := Nat.exists_eq_add_of_le' (show 1 ≤ fuel' by omega)
      rw [hstep, if_pos rfl]
    | false =>
      -- a rejected candidate is not a prime, so it is not `3` either
      have hnot : ¬ src.Prime := by
        intro hp
        rw [isPrime_of_prime hp hsq h32.le] at hprime
        cases hprime
      have hne : src ≠ 3 := fun he => hnot (he ▸ Nat.prime_three)
      have hdown : down src = src - 2 := by
        rw [down, u32]
        omega
      have hsq' : (src - 2 - 1) * (src - 2 - 1) < 2 ^ 63 :=
        lt_of_le_of_lt (Nat.mul_le_mul (by omega) (by omega)) hsq
      obtain ⟨r, hr, hrodd, hrle, hrmax⟩ := @ih (src - 2) t' (by omega) (by omega) hsq' (by omega)
      refine ⟨r, fun fuel' hf' => ?_, hrodd, by omega, fun p hp hpodd hple => ?_⟩
      · obtain ⟨k, rfl⟩ := Nat.exists_eq_add_of_le' (show 1 ≤ fuel' by omega)
        rw [hstep, if_neg Bool.false_ne_true, hdown]
        exact hr k (by omega)
      · have : p ≠ src := fun he => hnot (he ▸ hp)
        exact hrmax p hp hpodd (by omega)

/-- A search downwards stays below where it starts. -/
theorem searchWith_down_congr (h : ∀ c ≤ m, Residues mulMod c)
    (h' : ∀ c ≤ m, Residues mulMod' c) : ∀ {fuel src t : ℕ}, src % 2 = 1 → src ≤ m →
      src < 2 ^ 32 → searchWith mulMod rand down fuel src t =
        searchWith mulMod' rand down fuel src t := by
  intro fuel
  induction fuel with
  | zero => exact fun _ _ _ => rfl
  | succ fuel ih =>
    intro src t hodd hle hlt
    by_cases hone : src = 1
    · rw [hone, searchWith_one, searchWith_one]
    · have hdown : down src = src - 2 := by
        rw [down, u32]
        omega
      have hrest : ∀ t, searchWith mulMod rand down fuel (down src) t =
          searchWith mulMod' rand down fuel (down src) t := fun t => by
        rw [hdown]
        exact ih (by omega) (by omega) (by omega)
      rw [searchWith, searchWith, isPrimeWith_congr (h src hle) (h' src hle)]
      simp only [hrest]

/-- **The search downwards** from `3` on ends, at an odd number that is no smaller than any odd
prime it may return, whatever `rand()` returns. Up to `2 ^ 31` both builds return the same. Below
`3` there is no result. -/
theorem bddPrimeLte_largest (hsq : (src - 1) * (src - 1) < 2 ^ 63) (rand : ℕ → ℕ) :
    (3 ≤ src → ∃ r, (∀ fuel > src, bddPrimeLte fuel rand src = some r) ∧ r % 2 = 1 ∧ r ≤ src ∧
      ∀ p, p.Prime → p % 2 = 1 → p ≤ src → p ≤ r) ∧
    (1 ≤ src → src ≤ 2 → ∀ fuel, bddPrimeLte fuel rand src = none) ∧
    (1 ≤ src → src ≤ 2 ^ 31 →
      ∀ fuel, portablePrimeLte fuel rand src = bddPrimeLte fuel rand src) := by
  have h32 : src < 2 ^ 32 := by
    by_contra hge
    have : (2 ^ 32 - 1) * (2 ^ 32 - 1) ≤ (src - 1) * (src - 1) :=
      Nat.mul_le_mul (by omega) (by omega)
    omega
  have hfirst : 1 ≤ src → lastCandidate src = if src % 2 = 0 then src - 1 else src := by
    intro hpos
    rw [lastCandidate, show u32 src = src from Nat.mod_eq_of_lt h32]
    split
    · rw [u32]
      omega
    · rfl
  refine ⟨fun hle => ?_, fun hpos hle fuel => ?_, fun hpos hle fuel => ?_⟩
  · have hsearch : ∀ fuel, bddPrimeLte fuel rand src =
        searchWith u64MulMod rand down fuel (if src % 2 = 0 then src - 1 else src) 0 :=
      fun fuel => by rw [bddPrimeLte, hfirst (by omega)]
    obtain ⟨r, hr, hodd, hrle, hmax⟩ := @searchWith_down rand
      (src + 1) (if src % 2 = 0 then src - 1 else src) 0 (by split <;> omega) (by split <;> omega)
      (by
        split
        · exact lt_of_le_of_lt (Nat.mul_le_mul (by omega) (by omega)) hsq
        · exact hsq)
      (by split <;> omega)
    refine ⟨r, fun fuel hf => (hsearch fuel).trans (hr fuel hf), hodd, ?_,
      fun p hp hpodd hple => hmax p hp hpodd ?_⟩
    · split at hrle <;> omega
    · split <;> omega
  · have hone : lastCandidate src = 1 := by
      rw [hfirst hpos]
      split <;> omega
    rw [bddPrimeLte, hone, searchWith_one]
  · rw [portablePrimeLte, bddPrimeLte, hfirst hpos]
    exact searchWith_down_congr (m := 2 ^ 31) (fun _ => residues_portable)
      (fun _ => residues_u64MulMod) (by split <;> omega) (by split <;> omega) (by split <;> omega)

/-- Searches downwards from `100`. -/
theorem bddPrimeLte_largest_hundred :
    (3 ≤ 100 → ∃ r, (∀ fuel > 100, bddPrimeLte fuel id 100 = some r) ∧ r % 2 = 1 ∧ r ≤ 100 ∧
      ∀ p, p.Prime → p % 2 = 1 → p ≤ 100 → p ≤ r) ∧
    (1 ≤ 100 → 100 ≤ 2 → ∀ fuel, bddPrimeLte fuel id 100 = none) ∧
    (1 ≤ 100 → 100 ≤ 2 ^ 31 → ∀ fuel, portablePrimeLte fuel id 100 = bddPrimeLte fuel id 100) :=
  bddPrimeLte_largest (by decide) id

end Nanobdd

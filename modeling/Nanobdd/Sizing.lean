import Mathlib.NumberTheory.LucasLehmer
import Mathlib.NumberTheory.LucasPrimality
import Mathlib.Tactic.ReduceModChar
import Nanobdd.PrimeSpec

/-!
# Which sizes can be asked for

The search for a size is total when it ends for every sequence of values that `rand()` may
return, with a value for every expression on the way and no candidate beyond `unsigned int`, at
a number that is large enough. The product in `u64_mulmod` is one of `long long`, the candidate
`1` draws a remainder by zero, and a size is cut to 32 bits.

The last prime whose residues have squares in range is `3037000493`. Up to it everything goes
well. Beyond it some sequence of values does not: a number with an easy factor is passed over, a
composite number is rejected by its least factor or overflows, and a prime overflows at a
non-residue, half way.

## Main definitions

* `Finds` — one search, with its exceptions
* `Sized` — the search for a size ends well, whatever `rand()` returns

## Main results

* `exists_not_finds` — beyond the last good prime some sequence goes wrong
* `sized_iff` — **the sizes for which the search is total**
* `not_sized` — it is not total for all of them
-/

namespace Nanobdd

variable {rand rand' : ℕ → ℕ} {fuel size src t t' r w p : ℕ} {b : Bool}

/-- `RAND_MAX` of the C library. -/
def randMax : ℕ := 2 ^ 31 - 1

/-- The last prime for which no product overflows. -/
def lastPrime : ℕ := 3037000493

/-- The candidate that the search for a size starts with. -/
def firstCandidate (size : ℕ) : ℕ := if u32 size % 2 = 0 then u32 size + 1 else u32 size

/-- The search from candidate `src`, at position `t` of what `rand()` returns, ends at `r`. Every
expression has a value, and the candidate stays in the range of `unsigned int`. -/
inductive Finds (rand : ℕ → ℕ) : ℕ → ℕ → ℕ → Prop
  | found {src t t' : ℕ} : isPrime rand src t = some (true, t') → Finds rand src t src
  | next {src t t' r : ℕ} : isPrime rand src t = some (false, t') → src + 2 < 2 ^ 32 →
      Finds rand (src + 2) t' r → Finds rand src t r

/-- The search for a size ends at a number that is at least `least`, wherever in whatever
sequence of values of `rand()` it starts. -/
def Sized (size least : ℕ) : Prop :=
  ∀ rand : ℕ → ℕ, (∀ j, rand j ≤ randMax) → ∀ t, ∃ r, Finds rand (firstCandidate size) t r ∧
    least ≤ r

/-! ### A search and its function -/

theorem u32_lt (n : ℕ) : u32 n < 2 ^ 32 := Nat.mod_lt _ (Nat.two_pow_pos 32)

theorem firstCandidate_lt (size : ℕ) : firstCandidate size < 2 ^ 32 := by
  have := u32_lt size
  rw [firstCandidate]
  split <;> omega

theorem firstCandidate_odd (size : ℕ) : firstCandidate size % 2 = 1 := by
  rw [firstCandidate]
  split <;> omega

/-- After the last odd number comes the number one, which draws a remainder by zero. -/
theorem primeSearch_one : primeSearch rand fuel 1 t = none := by
  cases fuel with
  | zero => rfl
  | succ fuel => rfl

/-- **The function ends when the search does**: with a result, if the fuel is enough. -/
theorem finds_iff (hodd : src % 2 = 1) (hlt : src < 2 ^ 32) :
    Finds rand src t r ↔ ∃ fuel, primeSearch rand fuel src t = some r := by
  constructor
  · intro h
    induction h with
    | @found src t t' h => exact ⟨1, by rw [primeSearch, h]; rfl⟩
    | @next src t t' r h hnext _ ih =>
      obtain ⟨fuel, hfuel⟩ := ih (by omega) hnext
      refine ⟨fuel + 1, ?_⟩
      rw [primeSearch, h]
      rw [← Nat.mod_eq_of_lt hnext] at hfuel
      exact hfuel
  · rintro ⟨fuel, h⟩
    induction fuel generalizing src t with
    | zero => simp [primeSearch] at h
    | succ fuel ih =>
      rw [primeSearch] at h
      obtain ⟨⟨prime, t'⟩, hprime, h⟩ := Option.bind_eq_some_iff.mp h
      cases prime with
      | true =>
        cases h
        exact .found hprime
      | false =>
        have h : primeSearch rand fuel (u32 (src + 2)) t' = some r := h
        by_cases hnext : src + 2 < 2 ^ 32
        · rw [u32, Nat.mod_eq_of_lt hnext] at h
          exact .next hprime hnext (ih (by omega) hnext h)
        · have hone : u32 (src + 2) = 1 := by
            rw [u32]
            omega
          rw [hone, primeSearch_one] at h
          simp at h

/-! ### Up to the last good prime -/

theorem prime_mersenne31 : (2147483647).Prime := by
  have h : (mersenne 31).Prime := lucas_lehmer_sufficiency 31 (by norm_num) (by norm_num)
  rwa [show mersenne 31 = 2147483647 by norm_num [mersenne]] at h

/-- The order of `2` is `lastPrime - 1`. -/
theorem prime_lastPrime : lastPrime.Prime := by
  refine lucas_primality 3037000493 2 ?_ fun q hq hdvd => ?_
  · norm_num
    reduce_mod_char
  · have hfactors : 3037000493 - 1 = 2 ^ 2 * (1543 * 492061) := by norm_num
    have h1543 : (1543).Prime := by norm_num
    have h492061 : (492061).Prime := by norm_num
    have hcases : q = 2 ∨ q = 1543 ∨ q = 492061 := by
      rw [hfactors, hq.dvd_mul, hq.dvd_mul] at hdvd
      exact hdvd.imp (fun h => (Nat.prime_dvd_prime_iff_eq hq Nat.prime_two).mp
        (hq.dvd_of_dvd_pow h)) (Or.imp (Nat.prime_dvd_prime_iff_eq hq h1543).mp
          (Nat.prime_dvd_prime_iff_eq hq h492061).mp)
    rcases hcases with rfl | rfl | rfl
    · norm_num
      reduce_mod_char
      decide
    · norm_num
      reduce_mod_char
      decide
    · norm_num
      reduce_mod_char
      decide

/-- A search from below a good prime ends there at the latest. -/
theorem finds_le (rand : ℕ → ℕ) (hp : p.Prime) (hle : p ≤ lastPrime) (hodd : src % 2 = 1)
    (hsrc : 1 < src) (hsp : src ≤ p) (t : ℕ) : ∃ r, Finds rand src t r ∧ src ≤ r ∧ r ≤ p := by
  have hsq : (p - 1) * (p - 1) < 2 ^ 63 :=
    (Nat.mul_le_mul (Nat.sub_le_sub_right hle 1) (Nat.sub_le_sub_right hle 1)).trans_lt (by decide)
  have h32 : p < 2 ^ 32 := hle.trans_lt (by decide)
  have hpodd : p % 2 = 1 := hp.eq_two_or_odd.resolve_left fun h2 => by omega
  obtain ⟨r, hr, hsr, hrp⟩ := primeSearch_le hp hsq h32 rand t hodd hpodd hsrc hsp
    (Nat.lt_succ_self (p - src))
  exact ⟨r, (finds_iff hodd (by omega)).mpr ⟨_, hr⟩, hsr, hrp⟩

/-- **A good size.** -/
theorem sized_of_le (h2 : 2 ≤ size) (hle : size ≤ lastPrime) : Sized size size := by
  intro rand _ t
  have h32 : lastPrime < 2 ^ 32 := by decide
  have hodd : lastPrime % 2 = 1 := by decide
  have hu : u32 size = size := Nat.mod_eq_of_lt (by omega)
  have hfirst : size ≤ firstCandidate size ∧ firstCandidate size ≤ lastPrime := by
    rw [firstCandidate, hu]
    split <;> omega
  have hone : 1 < firstCandidate size := by
    have := firstCandidate_odd size
    omega
  obtain ⟨r, hr, hle', -⟩ :=
    finds_le rand prime_lastPrime le_rfl (firstCandidate_odd size) hone hfirst.2 t
  exact ⟨r, hr, hfirst.1.trans hle'⟩

/-! ### One candidate beyond it -/

/-- The least factor of a composite number never passes it. -/
theorem isWitness_of_dvd {q : ℕ} (hq : q ≠ 1) (hqs : q ∣ src) (hqw : q ∣ w) (hsrc : 1 < src)
    (h32 : src ≤ 2 ^ 32) : isWitness w src ≠ some false := by
  have hloop : ∀ i, isWitnessLoop w src i (Ladder.power w (src - 1) src i) ≠ some false := by
    intro i
    induction i with
    | zero =>
      have hne := Ladder.power_ne_one hq hqs hqw (show src - 1 ≠ 0 by omega)
      simp [isWitnessLoop, hne]
    | succ i ih =>
      rcases isWitnessLoop_power w src i with hnone | ⟨htrue, -⟩ | hnext
      · rw [hnone]
        decide
      · rw [htrue]
        decide
      · rwa [hnext]
  rw [isWitness_eq hsrc h32]
  exact hloop _

/-- The last square of the ladder of a non-residue is that of `p - 1`, and overflows. -/
theorem isWitness_of_nonresidue (hp : p.Prime) (hn : ¬ (p - 1) * (p - 1) < 2 ^ 63)
    (h32 : p ≤ 2 ^ 32) (hw : 1 ≤ w) (hwp : w < p) (hhalf : Ladder.power w (p - 1) p 1 = p - 1) :
    isWitness w p = none := by
  have hloop : ∀ i, isWitnessLoop w p (i + 1) (Ladder.power w (p - 1) p (i + 1)) = none := by
    intro i
    induction i with
    | zero => rw [hhalf, isWitnessLoop, u64MulMod, if_neg hn]; rfl
    | succ i ih =>
      rcases isWitnessLoop_power w p (i + 1) with hnone | ⟨htrue, -⟩ | hnext
      · exact hnone
      · exact absurd htrue (isWitnessLoop_of_prime hp hw hwp)
      · rw [hnext, ih]
  have hbits : numberOfBits (p - 1) ≠ 0 := fun h0 => by
    have hlt : p - 1 < 2 ^ numberOfBits (p - 1) :=
      lt_pow_numberOfBits (by have := hp.two_le; omega)
    have := hp.two_le
    rw [h0] at hlt
    omega
  obtain ⟨i, hi⟩ := Nat.exists_eq_succ_of_ne_zero hbits
  rw [isWitness_eq hp.one_lt h32, hi]
  exact hloop i

/-- The first round decides. -/
theorem isPrime_of_isWitness (heasy : hasEasyFactors src = false) (hsrc : 1 < src) (hw : 1 ≤ w)
    (hws : w < src) (hbad : isWitness w src ≠ some false) (ht : rand t = w - 1) :
    isPrime rand src t = none ∨ isPrime rand src t = some (false, t + 1) := by
  have hdraw : rand t % (src - 1) + 1 = w := by
    rw [ht, Nat.mod_eq_of_lt (by omega)]
    omega
  have hne : src - 1 ≠ 0 := by omega
  rw [isPrime, heasy, if_neg Bool.false_ne_true, isMillerRabinPrime, checkTimes,
    millerRabinRounds, if_neg hne, hdraw]
  cases hfound : isWitness w src with
  | none => exact Or.inl rfl
  | some found =>
    cases found with
    | true => exact Or.inr rfl
    | false => exact absurd hfound hbad

/-- Between the last good prime and the range of `long long` there are easy factors only. -/
theorem mul_not_lt (hodd : src % 2 = 1) (hlt : lastPrime < src)
    (heasy : hasEasyFactors src = false) : ¬ (src - 1) * (src - 1) < 2 ^ 63 := by
  have hge : 3037000500 < src := by
    by_contra hle
    have hlt' : 3037000493 < src := hlt
    have hcases : src = 3037000495 ∨ src = 3037000497 ∨ src = 3037000499 := by omega
    rcases hcases with rfl | rfl | rfl
    · exact absurd heasy (by decide)
    · exact absurd heasy (by decide)
    · exact absurd heasy (by decide)
  have hmul : 3037000500 * 3037000500 ≤ (src - 1) * (src - 1) :=
    Nat.mul_le_mul (Nat.le_sub_one_of_lt hge) (Nat.le_sub_one_of_lt hge)
  omega

/-- **A bad candidate** is passed over without a draw, or there is a value of `rand()` with which
it is rejected or overflows. -/
theorem exists_bad_draw (hodd : src % 2 = 1) (hlt : lastPrime < src) (h32 : src < 2 ^ 32) :
    ∃ v ≤ randMax, ∃ k, ∀ (rand : ℕ → ℕ) (t : ℕ), (∀ j, t ≤ j → j < t + k → rand j = v) →
      isPrime rand src t = none ∨ isPrime rand src t = some (false, t + k) := by
  have hlast : 3037000493 < src := hlt
  by_cases heasy : hasEasyFactors src = true
  · exact ⟨0, Nat.zero_le _, 0, fun rand t _ => Or.inr (if_pos heasy)⟩
  · rw [Bool.not_eq_true] at heasy
    have hbad : ∃ w, 1 ≤ w ∧ w ≤ 2 ^ 31 ∧ isWitness w src ≠ some false := by
      by_cases hp : src.Prime
      · obtain ⟨w, hw, hle, hhalf⟩ := Ladder.exists_power_half hp hodd
        refine ⟨w, hw, by omega, ?_⟩
        rw [isWitness_of_nonresidue hp (mul_not_lt hodd hlt heasy) h32.le hw (by omega) hhalf]
        nofun
      · have hfac : src.minFac * src.minFac ≤ src := by
          rw [← pow_two]
          exact Nat.minFac_sq_le_self (by omega) hp
        have hsmall : src.minFac < 2 ^ 16 := by
          by_contra hge
          have := Nat.mul_le_mul (Nat.not_lt.mp hge) (Nat.not_lt.mp hge)
          omega
        exact ⟨src.minFac, src.minFac_pos, by omega, isWitness_of_dvd
          (Nat.minFac_eq_one_iff.not.mpr (by omega)) src.minFac_dvd dvd_rfl (by omega) h32.le⟩
    obtain ⟨w, hw, hle, hwit⟩ := hbad
    refine ⟨w - 1, by rw [randMax]; omega, 1, fun rand t hdraw => ?_⟩
    exact isPrime_of_isWitness heasy (by omega) hw (by omega) hwit
      (hdraw t le_rfl (Nat.lt_succ_self t))

/-! ### The whole search beyond it -/

theorem millerRabinRounds_le : ∀ {n t : ℕ}, millerRabinRounds rand src n t = some (b, t') →
    t ≤ t' := by
  intro n
  induction n with
  | zero =>
    intro t h
    cases h
    exact le_rfl
  | succ n ih =>
    intro t h
    rw [millerRabinRounds] at h
    split at h
    · simp at h
    · obtain ⟨found, -, h⟩ := Option.bind_eq_some_iff.mp h
      cases found with
      | true =>
        cases h
        exact Nat.le_succ t
      | false => exact (Nat.le_succ t).trans (ih h)

theorem millerRabinRounds_congr (n : ℕ) : ∀ {t : ℕ}, (∀ j ≥ t, rand j = rand' j) →
    millerRabinRounds rand src n t = millerRabinRounds rand' src n t := by
  induction n with
  | zero => exact fun _ => rfl
  | succ n ih =>
    intro t h
    rw [millerRabinRounds, millerRabinRounds, h t le_rfl, ih fun j hj => h j (by omega)]

/-- A search does not see what was drawn before it. -/
theorem Finds.congr (h : Finds rand src t r) (hr : ∀ j ≥ t, rand j = rand' j) :
    Finds rand' src t r := by
  have hprime : ∀ {src t : ℕ}, (∀ j ≥ t, rand j = rand' j) →
      isPrime rand src t = isPrime rand' src t := fun h => by
    rw [isPrime, isPrime, isMillerRabinPrime, isMillerRabinPrime, millerRabinRounds_congr _ h]
  induction h with
  | found h => exact .found (hprime hr ▸ h)
  | @next src t t' r h hlt _ ih =>
    have hle : t ≤ t' := by
      rw [isPrime] at h
      split at h
      · cases h
        exact le_rfl
      · exact millerRabinRounds_le h
    exact .next (hprime hr ▸ h) hlt (ih fun j hj => hr j (hle.trans hj))

theorem Finds.lt (h : Finds rand src t r) (hlt : src < 2 ^ 32) : r < 2 ^ 32 := by
  induction h with
  | found => exact hlt
  | next _ hnext _ ih => exact ih hnext

theorem Finds.unique (h : Finds rand src t r) {r' : ℕ} (h' : Finds rand src t r') : r = r' := by
  induction h with
  | found h =>
    cases h' with
    | found => rfl
    | next hn => simp [h] at hn
  | @next src t t' r h hlt _ ih =>
    cases h' with
    | found hn => simp [h] at hn
    | next hn _ hrest =>
      rw [h] at hn
      cases hn
      exact ih hrest

/-- **Beyond the last good prime** there are values of `rand()` for which the search overflows or
runs out of candidates. -/
theorem exists_not_finds : ∀ k src t : ℕ, 2 ^ 32 ≤ src + k → src % 2 = 1 → lastPrime < src →
    ∃ rand : ℕ → ℕ, (∀ j, rand j ≤ randMax) ∧ (src < 2 ^ 32 → ∀ r, ¬ Finds rand src t r) := by
  intro k
  induction k with
  | zero =>
    intro src t hk _ _
    exact ⟨fun _ => 0, fun _ => Nat.zero_le _, fun hlt => absurd hlt (by omega)⟩
  | succ k ih =>
    intro src t hk hodd hlt
    by_cases h32 : src < 2 ^ 32
    · obtain ⟨v, hv, drawn, hbad⟩ := exists_bad_draw hodd hlt h32
      obtain ⟨rest, hrest, hnot⟩ := ih (src + 2) (t + drawn) (by omega) (by omega) (by omega)
      set rand : ℕ → ℕ := fun j => if j < t + drawn then v else rest j with hrand
      refine ⟨rand, fun j => ?_, fun _ r hfinds => ?_⟩
      · rw [hrand]
        dsimp only
        split
        · exact hv
        · exact hrest j
      · have hprime := hbad rand t fun j _ hj => if_pos hj
        cases hfinds with
        | found h => simp [h] at hprime
        | next h hnext htail =>
          rw [h] at hprime
          simp only [reduceCtorEq, Option.some.injEq, Prod.mk.injEq, true_and, false_or] at hprime
          rw [hprime] at htail
          exact hnot hnext r (htail.congr fun j hj => if_neg (Nat.not_lt.mpr hj))
    · exact ⟨fun _ => 0, fun _ => Nat.zero_le _, fun hlt => absurd hlt h32⟩

theorem not_finds_one : ¬ Finds rand 1 t r := by
  rw [finds_iff rfl (by decide)]
  rintro ⟨fuel, h⟩
  rw [primeSearch_one] at h
  simp at h

/-- A search that starts at the number one, or beyond the last good prime, is not total. -/
theorem not_sized_of_firstCandidate {least : ℕ}
    (h : firstCandidate size = 1 ∨ lastPrime < firstCandidate size) : ¬ Sized size least := by
  intro hs
  rcases h with hone | hlast
  · obtain ⟨r, hr, -⟩ := hs (fun _ => 0) (fun _ => Nat.zero_le _) 0
    rw [hone] at hr
    exact not_finds_one hr
  · obtain ⟨rand, hrand, hnot⟩ := exists_not_finds (2 ^ 32) (firstCandidate size) 0 (by omega)
      (firstCandidate_odd size) hlast
    obtain ⟨r, hr, -⟩ := hs rand hrand 0
    exact hnot (firstCandidate_lt size) r hr

/-- A search that starts below a good prime that is too small, or whose result would not be an
`unsigned int`, is not total. -/
theorem not_sized_of_small {least : ℕ} (h : 2 ^ 32 ≤ least ∨
    ∃ p, p.Prime ∧ p ≤ lastPrime ∧ firstCandidate size ≤ p ∧ p < least) : ¬ Sized size least := by
  intro hs
  obtain ⟨r, hr, hle⟩ := hs (fun _ => 0) (fun _ => Nat.zero_le _) 0
  rcases h with h32 | ⟨p, hp, hplast, hfirst, hlt⟩
  · have := hr.lt (firstCandidate_lt size)
    omega
  · by_cases hone : firstCandidate size = 1
    · rw [hone] at hr
      exact not_finds_one hr
    · have hodd := firstCandidate_odd size
      obtain ⟨r', hr', -, hle'⟩ :=
        finds_le (fun _ => 0) hp hplast hodd (by omega) hfirst 0
      have := hr.unique hr'
      omega

/-- **The sizes that can be asked for.** The search for a size is total if and only if it is at
least `2` and at most the last good prime, and the search of a growth from `n` buckets, for more
than `n`, if and only if `2 * n + 1` is at most that prime. -/
theorem sized_iff (size n : ℕ) (hn : 3 ≤ n) :
    (Sized size size ↔ 2 ≤ size ∧ size ≤ 3037000493) ∧
      (Sized (n * 2 + 1) (n + 1) ↔ n ≤ 1518500246) := by
  constructor
  · refine ⟨fun hs => ?_, fun h => sized_of_le h.1 h.2⟩
    by_contra hsize
    by_cases h32 : 2 ^ 32 ≤ size
    · exact not_sized_of_small (Or.inl h32) hs
    · have hu : u32 size = size := Nat.mod_eq_of_lt (by omega)
      refine not_sized_of_firstCandidate ?_ hs
      rw [firstCandidate, hu, lastPrime]
      split <;> omega
  · refine ⟨fun hs => ?_, fun h => ?_⟩
    · by_contra hle
      by_cases h32 : 2 ^ 32 ≤ n + 1
      · exact not_sized_of_small (Or.inl h32) hs
      · have hfirst : firstCandidate (n * 2 + 1) = (n * 2 + 1) % 2 ^ 32 := by
          have hodd : (n * 2 + 1) % 2 ^ 32 % 2 = 1 := by omega
          rw [firstCandidate, u32, if_neg (by omega)]
        by_cases hbad : lastPrime < (n * 2 + 1) % 2 ^ 32
        · exact not_sized_of_firstCandidate (Or.inr (hfirst ▸ hbad)) hs
        · -- the request was cut, and a prime comes before the size there is
          rw [lastPrime] at hbad
          refine not_sized_of_small (Or.inr ?_) hs
          by_cases hmersenne : (n * 2 + 1) % 2 ^ 32 ≤ 2147483647
          · exact ⟨_, prime_mersenne31, by decide, hfirst ▸ hmersenne, by omega⟩
          · refine ⟨_, prime_lastPrime, le_rfl, hfirst ▸ Nat.not_lt.mp hbad, ?_⟩
            rw [lastPrime]
            omega
    · intro rand hrand t
      have hsized : Sized (n * 2 + 1) (n * 2 + 1) :=
        sized_of_le (by omega) (show n * 2 + 1 ≤ 3037000493 by omega)
      obtain ⟨r, hr, hle⟩ := hsized rand hrand t
      exact ⟨r, hr, by omega⟩

/-- The least sizes, and the growth of the least table. -/
theorem sized_iff_small : Sized 2 2 ∧ Sized (3 * 2 + 1) (3 + 1) :=
  ⟨(sized_iff 2 3 le_rfl).1.mpr (by decide), (sized_iff 2 3 le_rfl).2.mpr (by decide)⟩

/-- **It is not total for all of them**: not for no buckets at all, and not for the growth of a
table of `1518500249` buckets. -/
theorem not_sized : ¬ Sized 0 0 ∧ ¬ Sized (1518500249 * 2 + 1) (1518500249 + 1) :=
  ⟨not_sized_of_firstCandidate (Or.inl rfl), not_sized_of_firstCandidate (Or.inr (by decide))⟩

end Nanobdd

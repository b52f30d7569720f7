import Mathlib.FieldTheory.Finite.Basic

/-!
# Powers modulo a number, bit by bit

Square-and-multiply reads the exponent from its highest bit down: a square for every bit, and a
factor for every bit that is set. `Ladder.power w e n i` is where it stands when `i` bits are
left. Modulo a prime, the ladder of `p - 1` ends at `1` (Fermat), and a square is `1` only for
`1` and for `p - 1`.
-/

namespace Ladder

variable {w e n p q d i : ℕ}

/-- The power of `w` to the bits of `e` from `i` up. -/
def power (w e n i : ℕ) : ℕ := w ^ (e >>> i) % n

theorem power_zero : power w e n 0 = w ^ e % n := rfl

/-- No bit has been read. -/
theorem power_of_lt (he : e < 2 ^ i) (hn : 1 < n) : power w e n i = 1 := by
  rw [power, Nat.shiftRight_eq_div_pow, Nat.div_eq_of_lt he, pow_zero, Nat.mod_eq_of_lt hn]

theorem power_lt (hn : 0 < n) : power w e n i < n := Nat.mod_lt _ hn

theorem shiftRight_eq (e i : ℕ) : e >>> i = 2 * (e >>> (i + 1)) + (e.testBit i).toNat := by
  rw [Nat.shiftRight_succ, Nat.toNat_testBit, ← Nat.shiftRight_eq_div_pow]
  omega

theorem square_mod (w k n : ℕ) : w ^ k % n * (w ^ k % n) % n = w ^ (2 * k) % n := by
  rw [← Nat.mul_mod, ← pow_add, two_mul]

/-- The next bit is clear. -/
theorem power_of_clear (hb : e.testBit i = false) :
    power w e n i = power w e n (i + 1) * power w e n (i + 1) % n := by
  rw [power, power, square_mod, shiftRight_eq, hb, Bool.toNat_false, add_zero]

/-- The next bit is set. -/
theorem power_of_set (hb : e.testBit i = true) :
    power w e n i = power w e n (i + 1) * power w e n (i + 1) % n * w % n := by
  rw [power, power, square_mod, shiftRight_eq, hb, Bool.toNat_true, pow_succ, Nat.mod_mul_mod]

/-! ### Modulo a prime -/

/-- There are no other square roots of one. -/
theorem eq_of_square (hp : p.Prime) (hd : d < p) (h : d * d % p = 1) : d = 1 ∨ d = p - 1 := by
  have hpos : 1 ≤ d := by
    by_contra h0
    have hd0 : d = 0 := by omega
    rw [hd0, Nat.zero_mul, Nat.zero_mod] at h
    exact absurd h zero_ne_one
  have hmod : 1 ≡ d * d [MOD p] := by rw [Nat.ModEq, h, Nat.mod_eq_of_lt hp.one_lt]
  have hdvd : p ∣ d * d - 1 := (Nat.modEq_iff_dvd' (Nat.mul_pos hpos hpos)).mp hmod
  have hprod : d * d - 1 = (d + 1) * (d - 1) := by
    have hsq := Nat.sq_sub_sq d 1
    rwa [one_pow, pow_two] at hsq
  rw [hprod] at hdvd
  rcases hp.dvd_mul.mp hdvd with h | h
  · have := Nat.le_of_dvd (by omega) h
    omega
  · rcases Nat.eq_zero_or_pos (d - 1) with h0 | hpos'
    · omega
    · have := Nat.le_of_dvd hpos' h
      omega

/-- Fermat. -/
theorem power_pred (hp : p.Prime) (hw : 1 ≤ w) (hwp : w < p) : power w (p - 1) p 0 = 1 := by
  have hcop : w.Coprime p := (Nat.coprime_of_lt_prime (by omega) hwp hp).symm
  have hmod : w ^ (p - 1) ≡ 1 [MOD p] := by
    rw [← Nat.totient_prime hp]
    exact Nat.ModEq.pow_totient hcop
  rw [power_zero, hmod, Nat.mod_eq_of_lt hp.one_lt]

/-- Half way, a power of a residue is `1` or `p - 1`. -/
theorem power_half (hp : p.Prime) (hodd : p % 2 = 1) (hw : 1 ≤ w) (hwp : w < p) :
    power w (p - 1) p 1 = 1 ∨ power w (p - 1) p 1 = p - 1 := by
  have hclear : (p - 1).testBit 0 = false := by
    rw [Nat.testBit_zero, decide_eq_false_iff_not]
    omega
  have hsq := power_pred hp hw hwp
  rw [power_of_clear hclear] at hsq
  exact eq_of_square hp (power_lt hp.pos) hsq

/-- **A non-residue in the first half.** The polynomial of the residues has too few roots to have
all numbers up to the middle among them. -/
theorem exists_power_half (hp : p.Prime) (hodd : p % 2 = 1) :
    ∃ w, 1 ≤ w ∧ w ≤ (p + 1) / 2 ∧ power w (p - 1) p 1 = p - 1 := by
  by_contra hnone
  push Not at hnone
  have : Fact p.Prime := ⟨hp⟩
  have hlt : (p + 1) / 2 < p := by
    have := hp.two_le
    omega
  set roots := Polynomial.nthRoots ((p - 1) / 2) (1 : ZMod p)
  have hroot : ∀ w ∈ Finset.Icc 1 ((p + 1) / 2), (w : ZMod p) ∈ roots.toFinset := by
    intro w hw
    rw [Finset.mem_Icc] at hw
    have hone := (power_half hp hodd hw.1 (hw.2.trans_lt hlt)).resolve_right (hnone w hw.1 hw.2)
    rw [Multiset.mem_toFinset, Polynomial.mem_nthRoots (by have := hp.two_le; omega)]
    have hmod : w ^ ((p - 1) / 2) ≡ 1 [MOD p] := by
      rw [Nat.ModEq, Nat.mod_eq_of_lt hp.one_lt]
      exact hone
    have hcast := (ZMod.natCast_eq_natCast_iff _ _ _).mpr hmod
    rwa [Nat.cast_pow, Nat.cast_one] at hcast
  have hinj : Set.InjOn (fun w : ℕ => (w : ZMod p)) (Finset.Icc 1 ((p + 1) / 2)) := by
    intro a ha b hb hab
    rw [Finset.coe_Icc, Set.mem_Icc] at ha hb
    have hmod := (ZMod.natCast_eq_natCast_iff' _ _ _).mp hab
    rwa [Nat.mod_eq_of_lt (ha.2.trans_lt hlt), Nat.mod_eq_of_lt (hb.2.trans_lt hlt)] at hmod
  have hcard := Finset.card_le_card_of_injOn _ hroot hinj
  have hroots := (Multiset.toFinset_card_le roots).trans (Polynomial.card_nthRoots _ _)
  rw [Nat.card_Icc] at hcard
  omega

/-! ### Modulo a composite number -/

/-- A power of a number that is not coprime to the modulus is not one. -/
theorem power_ne_one (hq : q ≠ 1) (hqn : q ∣ n) (hqw : q ∣ w) (he : e ≠ 0) :
    power w e n 0 ≠ 1 := by
  intro h
  have hdvd : q ∣ w ^ e % n := (Nat.dvd_mod_iff hqn).mpr (hqw.trans (dvd_pow_self w he))
  rw [power_zero] at h
  rw [h] at hdvd
  exact hq (Nat.dvd_one.mp hdvd)

end Ladder

import Mathlib.Algebra.Ring.Int.Parity
import Calculator.Proofs.Powers
import Calculator.Proofs.Rounding

/-!
# The sign of a power

A base of the other sign gives the same product if the number of factors is even and its
negative if it is odd.  The number of factors is the integer part of the exponent up to
`2 ^ 63 - 1` and stays at this odd number for larger exponents, all of which are even integers.
So the sign follows the parity of the exponent exactly for the exponents below `2 ^ 63`.
-/

namespace Calculator

namespace Binary64

/-- An exponent asks for as many factors as its integer part says, but for no more than the
largest signed 64-bit integer. -/
theorem repetitions_eq_min {exponent : Binary64} (hexponent : exponent.isFinite = true) :
    repetitions exponent = min exponent.integerPart.toNat (2 ^ 63 - 1) := by
  obtain ⟨negative, magnitude, rfl⟩ := exists_eq_finite hexponent
  rw [repetitions, truncate_eq_clampedPart, clampedPart]
  omega

/-- A magnitude from `2 ^ 63` on is an even number of ones: its last significant bit counts
more than one. -/
theorem Magnitude.two_mul_unitsInOne_dvd {magnitude : Magnitude}
    (hlarge : 2 ^ 63 * unitsInOne ≤ magnitude.units) : 2 * unitsInOne ∣ magnitude.units := by
  have hdropped : fractionBits + 1 ≤ droppedBits magnitude.units := by
    refine Nat.le_trans ?_ (droppedBits_mono hlarge)
    rw [droppedBits, unitsInOne, ← Nat.pow_add, Nat.log2_two_pow]
    omega
  refine Nat.dvd_trans ?_ magnitude.onGrid
  rw [unitsInOne, ← Nat.pow_succ']
  exact Nat.pow_dvd_pow 2 hdropped

theorem even_integerPart {value : Binary64} (hlarge : 2 ^ 63 ≤ value.integerPart) :
    Even value.integerPart := by
  cases value with
  | nan => exact absurd hlarge (by decide)
  | infinity negative => exact absurd (show (2 : Int) ^ 63 ≤ 0 from hlarge) (by decide)
  | finite negative magnitude =>
      rw [integerPart_finite] at hlarge ⊢
      cases negative with
      | true =>
          have hnonneg := Int.natCast_nonneg (magnitude.units / unitsInOne)
          exact absurd (hlarge.trans (Int.neg_nonpos_of_nonneg hnonneg)) (by decide)
      | false =>
          have hwhole : 2 ^ 63 ≤ magnitude.units / unitsInOne := Int.ofNat_le.1 hlarge
          rw [Nat.le_div_iff_mul_le unitsInOne_pos] at hwhole
          obtain ⟨half, hunits⟩ := Magnitude.two_mul_unitsInOne_dvd hwhole
          have hquotient : magnitude.units / unitsInOne = 2 * half := by
            rw [hunits, Nat.mul_right_comm, Nat.mul_div_cancel _ unitsInOne_pos]
          rw [hquotient]
          exact (Int.even_coe_nat _).2 (even_two_mul half)

theorem product_neg (base : Binary64) (count : Nat) :
    product (neg base) count = negIf (count % 2 == 1) (product base count) := by
  induction count with
  | zero => rfl
  | succ count ih =>
      rw [product_succ, ih, mul_negIf_left, mul_neg_right, ← negIf_true, negIf_negIf, product_succ,
        odd_succ, Bool.xor_true]

theorem product_infinity (negative : Bool) (count : Nat) :
    ∃ other, product (.infinity negative) (count + 1) = .infinity other := by
  induction count with
  | zero =>
      rw [product_succ, product, one, mul, if_neg unitsInOne_pos.ne']
      exact ⟨_, rfl⟩
  | succ count ih =>
      obtain ⟨other, hproduct⟩ := ih
      rw [product_succ, hproduct]
      exact ⟨_, rfl⟩

/-- A base that is a number has products that are numbers. -/
theorem isNan_product {base : Binary64} (hbase : base.isNan = false) (count : Nat) :
    (product base count).isNan = false := by
  cases base with
  | nan => cases hbase
  | infinity negative =>
      cases count with
      | zero => rfl
      | succ count =>
          obtain ⟨other, hproduct⟩ := product_infinity negative count
          rw [hproduct]
          rfl
  | finite negative magnitude =>
      rw [← value_powerFrom_one]
      exact isNan_powerFrom rfl rfl count 0

/-- A base of the other sign gives the same power for an even or negative exponent and the
negative of the power for any other. -/
def SignFollowsParity (base exponent : Binary64) : Prop :=
  (Even exponent.integerPart ∨ exponent.integerPart ≤ 0 →
      power (neg base) exponent = power base exponent) ∧
    (Odd exponent.integerPart ∧ 0 < exponent.integerPart →
      power (neg base) exponent = neg (power base exponent))

theorem power_neg (base exponent : Binary64) :
    power (neg base) exponent = negIf (repetitions exponent % 2 == 1) (power base exponent) := by
  unfold power powerRun
  rw [value_powerFrom_one, value_powerFrom_one, product_neg]

theorem isNan_power {base : Binary64} (hbase : base.isNan = false) (exponent : Binary64) :
    (power base exponent).isNan = false := by
  unfold power powerRun
  rw [value_powerFrom_one]
  exact isNan_product hbase _

theorem neg_ne_self {value : Binary64} (hvalue : value.isNan = false) : neg value ≠ value := by
  cases value with
  | nan => cases hvalue
  | infinity negative => simp [neg]
  | finite negative magnitude => simp [neg]

/-- The sign of a power follows the parity of its exponent exactly below `2 ^ 63`: from there on
the exponent is even, but an odd number of factors stands for it. -/
theorem signFollowsParity_iff {base exponent : Binary64} (hbase : base.isNan = false)
    (hexponent : exponent.isFinite = true) :
    SignFollowsParity base exponent ↔ exponent.integerPart < 2 ^ 63 := by
  have hcount := repetitions_eq_min hexponent
  unfold SignFollowsParity
  rw [power_neg]
  by_cases hsmall : exponent.integerPart < 2 ^ 63
  · have hexact : repetitions exponent = exponent.integerPart.toNat := by omega
    simp only [hsmall, iff_true]
    constructor
    · intro heven
      have hparity : repetitions exponent % 2 = 0 := by
        rw [Int.even_iff] at heven
        omega
      simp [hparity]
    · rintro ⟨hodd, hpositive⟩
      have hparity : repetitions exponent % 2 = 1 := by
        rw [Int.odd_iff] at hodd
        omega
      simp [hparity]
  · -- The exponent is even, but the number of factors is not.
    have hparity : repetitions exponent % 2 = 1 := by omega
    simp only [hsmall, iff_false]
    rintro ⟨heven, -⟩
    have hsame := heven (Or.inl (even_integerPart (Int.not_lt.1 hsmall)))
    rw [hparity] at hsame
    exact neg_ne_self (isNan_power hbase exponent) hsame

/-- The sign of a power follows an exponent of three, but not one of `2 ^ 63`. -/
theorem signFollowsParity_one :
    SignFollowsParity one (ofBits 0x4008000000000000) ∧
      ¬SignFollowsParity one (ofBits 0x43E0000000000000) := by
  have hthree : (ofBits 0x4008000000000000).integerPart = 3 := by decide +kernel
  have hlarge : (ofBits 0x43E0000000000000).integerPart = 2 ^ 63 := by decide +kernel
  constructor
  · rw [signFollowsParity_iff rfl (by decide +kernel), hthree]
    decide
  · rw [signFollowsParity_iff rfl (by decide +kernel), hlarge]
    decide

/-- Minus one to the power of `2 ^ 63`, an even number, is minus one. -/
theorem power_neg_one_two_pow :
    (ofBits 0x43E0000000000000).integerPart = 2 ^ 63 ∧
      Even (ofBits 0x43E0000000000000).integerPart ∧
      power (neg one) (ofBits 0x43E0000000000000) = neg one ∧
      power one (ofBits 0x43E0000000000000) = one ∧ neg one ≠ one := by
  decide +kernel

end Binary64

end Calculator

import Calculator.Proofs.Overflow

/-!
# Powers that stop early

Once a product is zero, infinite or not a number, or its base is one or minus one, a further
multiplication changes at most its sign, and changes it if the base has one.  The first such
product is therefore the power itself, up to a sign that the parity of the multiplications
left decides, and a run that stops there gives what the plain product gives.  How many factors
that product has is read off the exact integer part of the exponent.
-/

namespace Calculator

namespace Binary64

/-- The negative of the value if the condition holds. -/
def negIf (condition : Bool) (value : Binary64) : Binary64 :=
  if condition then neg value else value

@[simp]
theorem negIf_false (value : Binary64) : negIf false value = value := rfl

@[simp]
theorem negIf_true (value : Binary64) : negIf true value = neg value := rfl

theorem negIf_negIf (first second : Bool) (value : Binary64) :
    negIf first (negIf second value) = negIf (first ^^ second) value := by
  cases first <;> cases second <;> simp

theorem isFinite_negIf (condition : Bool) (value : Binary64) :
    (negIf condition value).isFinite = value.isFinite := by
  cases condition with
  | false => rfl
  | true => exact isFinite_neg value

theorem neg_ofQuotient (negative : Bool) (numerator denominator : Nat) :
    neg (ofQuotient negative numerator denominator) =
      ofQuotient (!negative) numerator denominator := by
  unfold ofQuotient ofUnits
  split
  · rfl
  · rfl

protected theorem mul_comm (left right : Binary64) : mul left right = mul right left := by
  cases left <;> cases right <;> simp [mul, Bool.xor_comm, Nat.mul_comm]

theorem mul_neg_left (left right : Binary64) : mul (neg left) right = neg (mul left right) := by
  cases left with
  | nan => rfl
  | infinity negative =>
      cases right with
      | nan => rfl
      | infinity other => simp [mul, neg]
      | finite other magnitude =>
          simp only [mul, neg]
          split <;> simp
  | finite negative magnitude =>
      cases right with
      | nan => rfl
      | infinity other =>
          simp only [mul, neg]
          split <;> simp
      | finite other otherMagnitude =>
          rw [mul, neg_ofQuotient, ← Bool.not_xor]
          rfl

theorem mul_neg_right (left right : Binary64) : mul left (neg right) = neg (mul left right) := by
  rw [Binary64.mul_comm, mul_neg_left, Binary64.mul_comm]

theorem mul_negIf_left (condition : Bool) (left right : Binary64) :
    mul (negIf condition left) right = negIf condition (mul left right) := by
  cases condition with
  | false => rfl
  | true => exact mul_neg_left left right

/-- The value without its sign. -/
def abs : Binary64 → Binary64
  | .nan => .nan
  | .infinity _ => .infinity false
  | .finite _ magnitude => .finite false magnitude

theorem abs_negIf (condition : Bool) (value : Binary64) :
    abs (negIf condition value) = abs value := by
  cases condition <;> cases value <;> rfl

theorem isNan_abs (value : Binary64) : (abs value).isNan = value.isNan := by
  cases value <;> rfl

theorem eq_nan_of_isNan {value : Binary64} (hnan : value.isNan = true) : value = .nan := by
  cases value with
  | nan => rfl
  | infinity negative => cases hnan
  | finite negative magnitude => cases hnan

/-- Values of one magnitude differ at most in their sign. -/
theorem eq_negIf_of_abs_eq {left right : Binary64} (habs : abs left = abs right) :
    left = negIf (left.signBit ^^ right.signBit) right := by
  cases left with
  | nan =>
      cases right with
      | nan => rfl
      | infinity negative => cases habs
      | finite negative magnitude => cases habs
  | infinity negative =>
      cases right with
      | nan => cases habs
      | infinity other => cases negative <;> cases other <;> rfl
      | finite other magnitude => cases habs
  | finite negative magnitude =>
      cases right with
      | nan => cases habs
      | infinity other => cases habs
      | finite other otherMagnitude =>
          cases habs
          cases negative <;> cases other <;> rfl

theorem signBit_ofQuotient (negative : Bool) (numerator denominator : Nat) :
    (ofQuotient negative numerator denominator).signBit = negative := by
  unfold ofQuotient ofUnits
  split
  · rfl
  · rfl

theorem signBit_mul {left right : Binary64} (hnan : (mul left right).isNan = false) :
    (mul left right).signBit = (left.signBit ^^ right.signBit) := by
  cases left with
  | nan => cases hnan
  | infinity negative =>
      cases right with
      | nan => cases hnan
      | infinity other => rfl
      | finite other magnitude =>
          rw [mul] at hnan ⊢
          split at hnan
          · cases hnan
          · next hunits =>
              rw [if_neg hunits]
              rfl
  | finite negative magnitude =>
      cases right with
      | nan => cases hnan
      | infinity other =>
          rw [mul] at hnan ⊢
          split at hnan
          · cases hnan
          · next hunits =>
              rw [if_neg hunits]
              rfl
      | finite other otherMagnitude => exact signBit_ofQuotient _ _ _

/-- A further multiplication by the base changes at most the sign of the value, and changes it
if the base has one. -/
def Rests (base value : Binary64) : Prop :=
  mul value base = negIf base.signBit value

theorem odd_succ (count : Nat) : ((count + 1) % 2 == 1) = !(count % 2 == 1) := by
  rcases Nat.mod_two_eq_zero_or_one count with hparity | hparity
  · simp [Nat.add_mod, hparity]
  · simp [Nat.add_mod, hparity]

theorem product_succ (base : Binary64) (count : Nat) :
    product base (count + 1) = mul (product base count) base := rfl

section Rests

variable {base value : Binary64} {done : Nat}

/-- A value that rests does so with either sign. -/
theorem rests_negIf (hrests : Rests base value) (condition : Bool) :
    Rests base (negIf condition value) := by
  rw [Rests, mul_negIf_left, hrests, negIf_negIf, negIf_negIf, Bool.xor_comm]

/-- A value rests if it is not a number or the next multiplication keeps its magnitude. -/
theorem rests_iff :
    Rests base value ↔ value.isNan = true ∨ abs (mul value base) = abs value := by
  constructor
  · intro hrests
    rw [hrests, abs_negIf]
    exact Or.inr rfl
  · intro hmagnitude
    by_cases hnan : value.isNan = true
    · rw [eq_nan_of_isNan hnan, Rests]
      cases base.signBit <;> rfl
    · rw [Bool.not_eq_true] at hnan
      have habs := hmagnitude.resolve_left (by simp [hnan])
      have hproduct : (mul value base).isNan = false := by
        rw [← isNan_abs, habs, isNan_abs, hnan]
      have hsign := eq_negIf_of_abs_eq habs
      rw [signBit_mul hproduct, Bool.xor_comm value.signBit, Bool.xor_assoc,
        Bool.xor_self, Bool.xor_false] at hsign
      exact hsign

theorem rests_nan (base : Binary64) : Rests base .nan :=
  rests_iff.2 (Or.inl rfl)

theorem rests_infinity {negative : Bool} (hnan : (mul (.infinity negative) base).isNan = false) :
    Rests base (.infinity negative) := by
  apply rests_iff.2 (Or.inr _)
  cases base with
  | nan => cases hnan
  | infinity other => rfl
  | finite other magnitude =>
      rw [mul] at hnan ⊢
      split at hnan
      · cases hnan
      · next hunits =>
          rw [if_neg hunits]
          rfl

theorem rests_of_isZero (hbase : base.isFinite = true) (hzero : value.isZero = true) :
    Rests base value := by
  obtain ⟨other, magnitude, rfl⟩ := exists_eq_finite hbase
  cases value with
  | nan => cases hzero
  | infinity negative => cases hzero
  | finite negative small =>
      have hunits : small.units = 0 := eq_of_beq hzero
      have hproduct : small.units * magnitude.units = small.units * unitsInOne := by
        rw [hunits, Nat.zero_mul, Nat.zero_mul]
      apply rests_iff.2 (Or.inr _)
      rw [mul, hproduct, ofQuotient_of_magnitude _ _ unitsInOne_pos]
      rfl

theorem rests_of_isUnit (hunit : base.isUnit = true) (value : Binary64) : Rests base value := by
  cases base with
  | nan => cases hunit
  | infinity other => cases hunit
  | finite other magnitude =>
      have hunits : magnitude.units = unitsInOne := eq_of_beq hunit
      cases value with
      | nan => exact rests_nan _
      | infinity negative =>
          apply rests_infinity
          rw [mul, hunits, if_neg unitsInOne_pos.ne']
          rfl
      | finite negative factor =>
          apply rests_iff.2 (Or.inr _)
          rw [mul, hunits, ofQuotient_of_magnitude _ _ unitsInOne_pos]
          rfl

/-- A product that settles a run rests. -/
theorem rests_of_isSettled (hvalue : value.isFinite = true)
    (hsettled : isSettled base (mul value base) = true) : Rests base (mul value base) := by
  obtain ⟨negative, magnitude, rfl⟩ := exists_eq_finite hvalue
  cases base with
  | nan => exact rests_nan _
  | infinity other =>
      rw [mul]
      split
      · exact rests_nan _
      · exact rests_infinity rfl
  | finite other factor =>
      simp only [isSettled, Bool.or_eq_true, Bool.not_eq_true'] at hsettled
      rcases hsettled with (hzero | hoverflow) | hunit
      · exact rests_of_isZero rfl hzero
      · -- A product by zero would be finite, so the infinity does not meet one.
        have hfactor : factor.units ≠ 0 := by
          intro hfactor
          have hzero : Rests (.finite negative magnitude) (.finite other factor) :=
            rests_of_isZero rfl (beq_iff_eq.2 hfactor)
          rw [Binary64.mul_comm, hzero, isFinite_negIf] at hoverflow
          cases hoverflow
        generalize hnext : mul (.finite negative magnitude) (.finite other factor) = next at *
        cases next with
        | nan => exact rests_nan _
        | infinity sign =>
            apply rests_infinity
            rw [mul, if_neg hfactor]
            rfl
        | finite sign small => cases hoverflow
      · exact rests_of_isUnit hunit _

/-- What rests after some multiplications is the product of any more, up to its sign. -/
theorem Rests.product_add (hrests : Rests base (product base done)) (remaining : Nat) :
    product base (done + remaining) =
      negIf (base.signBit && remaining % 2 == 1) (product base done) := by
  induction remaining with
  | zero => simp
  | succ remaining ih =>
      rw [← Nat.add_assoc, product_succ, ih, mul_negIf_left, hrests, negIf_negIf]
      rw [odd_succ]
      cases base.signBit <;> simp

end Rests

section Runs

variable {base : Binary64} {done : Nat}

theorem powerFrom_settled (hsettled : isSettled base (product base (done + 1)) = true)
    (remaining : Nat) :
    powerFrom base (remaining + 1) (product base done) done =
      ⟨negIf (base.signBit && remaining % 2 == 1) (product base (done + 1)), done + 1⟩ :=
  if_pos hsettled

theorem powerFrom_running (hrunning : isSettled base (product base (done + 1)) = false)
    (remaining : Nat) :
    powerFrom base (remaining + 1) (product base done) done =
      powerFrom base remaining (product base (done + 1)) (done + 1) :=
  if_neg (by rw [← product_succ, hrunning]; exact Bool.false_ne_true)

/-- A run that has reached a finite product goes on to the plain product. -/
theorem value_powerFrom (hfinite : (product base done).isFinite = true) (remaining : Nat) :
    (powerFrom base remaining (product base done) done).value =
      product base (done + remaining) := by
  induction remaining generalizing done with
  | zero => rfl
  | succ remaining ih =>
      have hsplit : done + (remaining + 1) = done + 1 + remaining := by omega
      rw [hsplit]
      cases hsettled : isSettled base (product base (done + 1)) with
      | true =>
          have hrests : Rests base (product base (done + 1)) :=
            rests_of_isSettled hfinite hsettled
          rw [powerFrom_settled hsettled, hrests.product_add]
      | false =>
          have hnext : (product base (done + 1)).isFinite = true := by
            simp only [isSettled, Bool.or_eq_false_iff, Bool.not_eq_false'] at hsettled
            exact hsettled.1.2
          rw [powerFrom_running hsettled]
          exact ih hnext

end Runs

theorem value_powerFrom_one (base : Binary64) (count : Nat) :
    (powerFrom base count one 0).value = product base count := by
  have hfinite : (product base 0).isFinite = true := rfl
  rw [← Nat.zero_add count, ← value_powerFrom hfinite, Nat.zero_add]
  rfl

/-- The exact value without its fraction, an integer of any size. -/
def integerPart : Binary64 → Int
  | .finite negative magnitude => (signedUnits negative magnitude).tdiv unitsInOne
  | _ => 0

theorem integerPart_finite (negative : Bool) (magnitude : Magnitude) :
    integerPart (.finite negative magnitude) =
      if negative then -((magnitude.units / unitsInOne : Nat) : Int)
      else (magnitude.units / unitsInOne : Nat) := by
  cases negative with
  | false => exact (Int.ofNat_tdiv _ _).symm
  | true =>
      change Int.tdiv (-(magnitude.units : Int)) unitsInOne =
        -((magnitude.units / unitsInOne : Nat) : Int)
      rw [Int.neg_tdiv, Int.ofNat_tdiv]

/-- The integer part, or the end of the range of a signed 64-bit integer that it lies beyond.
The infinities lie beyond both ends; what is not a number counts as zero. -/
def clampedPart : Binary64 → Int
  | .nan => 0
  | .infinity negative => if negative then -2 ^ 63 else 2 ^ 63 - 1
  | .finite negative magnitude =>
      max (-2 ^ 63) (min (integerPart (.finite negative magnitude)) (2 ^ 63 - 1))

theorem truncate_eq_clampedPart (value : Binary64) : truncate value = clampedPart value := by
  cases value with
  | nan => rfl
  | infinity negative => rfl
  | finite negative magnitude =>
      rw [clampedPart, integerPart_finite, truncate]
      generalize magnitude.units / unitsInOne = whole
      cases negative with
      | false =>
          simp only [Bool.false_eq_true, if_false]
          omega
      | true =>
          simp only [if_true]
          omega

/-- A power that stops early is the plain product with as many factors as the integer part of
the exponent says, clamped to a signed 64-bit integer, and with none if that is negative. -/
theorem power_eq_product (base exponent : Binary64) :
    power base exponent = product base exponent.clampedPart.toNat := by
  rw [← truncate_eq_clampedPart]
  exact value_powerFrom_one base (repetitions exponent)

end Binary64

end Calculator

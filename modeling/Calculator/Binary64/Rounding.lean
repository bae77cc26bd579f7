/-!
# Rounding a quotient to fifty-three significant bits

A quotient of natural numbers is rounded to the nearest integer, an exact half
going to the even neighbour.  Rounding to a grid of powers of two keeps
fifty-three significant bits of a large quotient and every integer bit of a
small one.  The main statement is that the result always lies on the grid of
its own size, so rounding it again changes nothing.
-/

namespace Calculator.Binary64

-- A power of natural numbers is the same term under every import.
attribute [instance (high), default_instance (high)] instPowNat

/-- The integer nearest to `numerator / denominator`; a half goes to the even one. -/
def roundQuotient (numerator denominator : Nat) : Nat :=
  let quotient := numerator / denominator
  let twice := 2 * (numerator % denominator)
  if twice < denominator then quotient
  else if denominator < twice then quotient + 1
  else quotient + quotient % 2

/-- Number of low bits that fifty-three significant bits leave out. -/
def droppedBits (units : Nat) : Nat :=
  units.log2 - 52

/-- A natural number with at most fifty-three significant bits. -/
def OnGrid (units : Nat) : Prop :=
  2 ^ droppedBits units ∣ units

instance (units : Nat) : Decidable (OnGrid units) :=
  inferInstanceAs (Decidable (_ ∣ _))

/-- The number on the grid nearest to `numerator / denominator`; a half goes to
the one whose last significant bit is zero. -/
def roundToGrid (numerator denominator : Nat) : Nat :=
  let step := 2 ^ droppedBits (numerator / denominator)
  roundQuotient numerator (denominator * step) * step

theorem roundQuotient_le (numerator denominator : Nat) :
    roundQuotient numerator denominator ≤ numerator / denominator + 1 := by
  unfold roundQuotient
  have := Nat.mod_lt (numerator / denominator) (show 0 < 2 by decide)
  dsimp only
  split
  · omega
  · split <;> omega

theorem onGrid_of_lt {units : Nat} (hsmall : units < 2 ^ 53) : OnGrid units := by
  have hlog : units.log2 ≤ 52 := by
    by_cases hzero : units = 0
    · simp [hzero]
    · exact Nat.lt_succ_iff.1 ((Nat.log2_lt hzero).2 hsmall)
  simp [OnGrid, droppedBits, Nat.sub_eq_zero_of_le hlog]

/-- A multiple of a power of two by at most `2 ^ 53` has few enough bits. -/
theorem onGrid_mul_pow {significand : Nat} (hbound : significand ≤ 2 ^ 53) (exponent : Nat) :
    OnGrid (significand * 2 ^ exponent) := by
  by_cases hzero : significand = 0
  · simp [OnGrid, hzero]
  have hpositive : significand * 2 ^ exponent ≠ 0 :=
    Nat.mul_ne_zero hzero (Nat.ne_of_gt (Nat.two_pow_pos exponent))
  rcases Nat.lt_or_eq_of_le hbound with hless | hequal
  · have hlog : (significand * 2 ^ exponent).log2 < 53 + exponent := by
      rw [Nat.log2_lt hpositive, Nat.pow_add]
      exact Nat.mul_lt_mul_of_pos_right hless (Nat.two_pow_pos exponent)
    have hdropped : droppedBits (significand * 2 ^ exponent) ≤ exponent := by
      unfold droppedBits
      omega
    exact Nat.dvd_trans (Nat.pow_dvd_pow 2 hdropped) (Nat.dvd_mul_left _ _)
  · subst hequal
    have hlog : (2 ^ 53 * 2 ^ exponent).log2 = 53 + exponent := by
      rw [← Nat.pow_add, Nat.log2_two_pow]
    have hdropped : droppedBits (2 ^ 53 * 2 ^ exponent) ≤ 53 + exponent := by
      unfold droppedBits
      omega
    rw [OnGrid, ← Nat.pow_add]
    rw [← Nat.pow_add] at hdropped
    exact Nat.pow_dvd_pow 2 hdropped

theorem onGrid_two_pow (exponent : Nat) : OnGrid (2 ^ exponent) := by
  rw [← Nat.one_mul (2 ^ exponent)]
  exact onGrid_mul_pow (by decide) exponent

theorem onGrid_roundToGrid (numerator denominator : Nat) :
    OnGrid (roundToGrid numerator denominator) := by
  unfold roundToGrid
  apply onGrid_mul_pow
  refine Nat.le_trans (roundQuotient_le _ _) ?_
  rw [← Nat.div_div_eq_div_mul]
  have hlog : numerator / denominator < 2 ^ ((numerator / denominator).log2 + 1) :=
    Nat.lt_log2_self
  have hbits : (numerator / denominator).log2 + 1 ≤
      53 + droppedBits (numerator / denominator) := by
    unfold droppedBits
    omega
  have hless : numerator / denominator <
      2 ^ droppedBits (numerator / denominator) * 2 ^ 53 := by
    rw [← Nat.pow_add, Nat.add_comm]
    exact Nat.lt_of_lt_of_le hlog (Nat.pow_le_pow_right (by decide) hbits)
  exact Nat.div_lt_of_lt_mul hless

theorem roundQuotient_mul_left (quotient : Nat) {denominator : Nat}
    (hpositive : 0 < denominator) :
    roundQuotient (quotient * denominator) denominator = quotient := by
  simp [roundQuotient, Nat.mul_div_cancel _ hpositive, hpositive]

/-- A quotient on the grid is not changed by rounding. -/
theorem roundToGrid_of_onGrid {units denominator : Nat} (hgrid : OnGrid units)
    (hpositive : 0 < denominator) :
    roundToGrid (units * denominator) denominator = units := by
  rcases hgrid with ⟨quotient, hquotient⟩
  unfold roundToGrid
  rw [Nat.mul_div_cancel _ hpositive]
  have hsplit : units * denominator =
      quotient * (denominator * 2 ^ droppedBits units) := by
    rw [Nat.mul_comm denominator, ← Nat.mul_assoc, Nat.mul_comm quotient, ← hquotient]
  have hround := roundQuotient_mul_left quotient
    (Nat.mul_pos hpositive (Nat.two_pow_pos (droppedBits units)))
  simp only [hsplit, hround]
  rw [Nat.mul_comm]
  exact hquotient.symm

end Calculator.Binary64

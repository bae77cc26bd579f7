import Mathlib.Data.Nat.Log
import Calculator.Binary64.Bits

/-!
# Rounding keeps order

A larger quotient is not rounded to a smaller number: inside one binade the steps of the grid
are equal, and between two of them lies a power of two.  So a number on the grid bounds the
rounded quotient if it bounds the quotient.  The next number on the grid is one step away, and
the rank of a magnitude counts the numbers below it.  A product with a factor of at most one
half rounds to less than it was, and one of at least one with a factor above one to more.
-/

namespace Calculator.Binary64

theorem div_le_roundQuotient (numerator denominator : Nat) :
    numerator / denominator ≤ roundQuotient numerator denominator := by
  unfold roundQuotient
  dsimp only
  split
  · exact Nat.le_refl _
  · split
    · exact Nat.le_succ _
    · exact Nat.le_add_right _ _

theorem roundQuotient_mono {lower upper : Nat} (hle : lower ≤ upper) (denominator : Nat) :
    roundQuotient lower denominator ≤ roundQuotient upper denominator := by
  have hquotient : lower / denominator ≤ upper / denominator := Nat.div_le_div_right hle
  rcases Nat.lt_or_eq_of_le hquotient with hless | hequal
  · calc roundQuotient lower denominator
      _ ≤ lower / denominator + 1 := roundQuotient_le lower denominator
      _ ≤ upper / denominator := hless
      _ ≤ roundQuotient upper denominator := div_le_roundQuotient upper denominator
  · have hlower := Nat.div_add_mod lower denominator
    have hupper := Nat.div_add_mod upper denominator
    rw [← hequal] at hupper
    have hrest : lower % denominator ≤ upper % denominator := by omega
    have hparity := Nat.mod_lt (lower / denominator) Nat.two_pos
    simp only [roundQuotient, ← hequal]
    split_ifs <;> omega

section Binades

theorem lt_two_pow_mul_droppedBits (units : Nat) : units < 2 ^ 53 * 2 ^ droppedBits units := by
  have hlog : units < 2 ^ (units.log2 + 1) := Nat.lt_log2_self
  rw [← Nat.pow_add]
  refine Nat.lt_of_lt_of_le hlog (Nat.pow_le_pow_right Nat.two_pos ?_)
  unfold droppedBits
  omega

theorem two_pow_mul_droppedBits_le {units : Nat} (hdropped : 0 < droppedBits units) :
    2 ^ 52 * 2 ^ droppedBits units ≤ units := by
  have hlog : 52 < units.log2 := Nat.lt_of_sub_pos hdropped
  have hzero : units ≠ 0 := by
    rintro rfl
    exact absurd hlog (by decide)
  exact (droppedBits_eq_of_normal ((Nat.le_log2 hzero).1 hlog.le)).1

theorem droppedBits_mono {lower upper : Nat} (hle : lower ≤ upper) :
    droppedBits lower ≤ droppedBits upper := by
  unfold droppedBits
  rw [Nat.log2_eq_log_two, Nat.log2_eq_log_two]
  exact Nat.sub_le_sub_right (Nat.log_mono_right hle) 52

end Binades

section Grid

variable {numerator denominator units : Nat}

theorem roundToGrid_mono {lower upper : Nat} (hle : lower ≤ upper) (hpositive : 0 < denominator) :
    roundToGrid lower denominator ≤ roundToGrid upper denominator := by
  have hquotient : lower / denominator ≤ upper / denominator := Nat.div_le_div_right hle
  unfold roundToGrid
  dsimp only
  rcases Nat.lt_or_eq_of_le (droppedBits_mono hquotient) with hless | hequal
  · generalize hstep : 2 ^ droppedBits (lower / denominator) = step at *
    generalize hwide : 2 ^ droppedBits (upper / denominator) = wide at *
    have hsteps : 2 * step ≤ wide := by
      rw [← hstep, ← hwide, ← Nat.pow_succ']
      exact Nat.pow_le_pow_right Nat.two_pos hless
    have hlower : lower ≤ 2 ^ 53 * (denominator * step) := by
      have hbits := lt_two_pow_mul_droppedBits (lower / denominator)
      rw [Nat.div_lt_iff_lt_mul hpositive, hstep] at hbits
      rw [Nat.mul_left_comm, Nat.mul_comm denominator]
      exact hbits.le
    have hupper : 2 ^ 52 * (denominator * wide) ≤ upper := by
      have hbits := two_pow_mul_droppedBits_le (Nat.zero_lt_of_lt hless)
      rw [Nat.le_div_iff_mul_le hpositive, hwide] at hbits
      rw [Nat.mul_left_comm, Nat.mul_comm denominator]
      exact hbits
    have hpositives : 0 < denominator * step ∧ 0 < denominator * wide := by
      rw [← hstep, ← hwide]
      exact ⟨Nat.mul_pos hpositive (Nat.two_pow_pos _), Nat.mul_pos hpositive (Nat.two_pow_pos _)⟩
    -- The power of two where the binade of the upper quotient starts lies between them.
    have hbelow := roundQuotient_mono hlower (denominator * step)
    have habove := roundQuotient_mono hupper (denominator * wide)
    rw [roundQuotient_mul_left _ hpositives.1] at hbelow
    rw [roundQuotient_mul_left _ hpositives.2] at habove
    calc roundQuotient lower (denominator * step) * step
      _ ≤ 2 ^ 53 * step := Nat.mul_le_mul_right _ hbelow
      _ ≤ 2 ^ 52 * wide := by omega
      _ ≤ roundQuotient upper (denominator * wide) * wide := Nat.mul_le_mul_right _ habove
  · rw [hequal]
    exact Nat.mul_le_mul_right _ (roundQuotient_mono hle _)

theorem roundToGrid_le (hgrid : OnGrid units) (hpositive : 0 < denominator)
    (hle : numerator ≤ units * denominator) : roundToGrid numerator denominator ≤ units := by
  rw [← roundToGrid_of_onGrid hgrid hpositive]
  exact roundToGrid_mono hle hpositive

theorem le_roundToGrid (hgrid : OnGrid units) (hpositive : 0 < denominator)
    (hle : units * denominator ≤ numerator) : units ≤ roundToGrid numerator denominator := by
  rw [← roundToGrid_of_onGrid hgrid hpositive]
  exact roundToGrid_mono hle hpositive

/-- A quotient below one is rounded to zero or one; one half, to the even zero. -/
theorem roundToGrid_of_lt (hless : numerator < denominator) :
    roundToGrid numerator denominator = if denominator < 2 * numerator then 1 else 0 := by
  have hquotient : numerator / denominator = 0 := Nat.div_eq_of_lt hless
  have hrest : numerator % denominator = numerator := Nat.mod_eq_of_lt hless
  simp only [roundToGrid, roundQuotient, hquotient, hrest, show droppedBits 0 = 0 by decide,
    Nat.pow_zero, Nat.mul_one]
  split_ifs <;> omega

/-- More than one half is not rounded to zero. -/
theorem roundToGrid_pos (hpositive : 0 < denominator) (hhalf : denominator < 2 * numerator) :
    0 < roundToGrid numerator denominator := by
  by_cases hless : numerator < denominator
  · rw [roundToGrid_of_lt hless, if_pos hhalf]
    exact Nat.one_pos
  · apply le_roundToGrid (by decide) hpositive
    omega

theorem OnGrid.exists_significand (hgrid : OnGrid units) :
    ∃ significand < 2 ^ 53, units = significand * 2 ^ droppedBits units := by
  obtain ⟨significand, hunits⟩ := hgrid
  have hbits := lt_two_pow_mul_droppedBits units
  rw [Nat.mul_comm] at hunits
  refine ⟨significand, ?_, hunits⟩
  generalize droppedBits units = dropped at hunits hbits
  rw [hunits] at hbits
  exact Nat.lt_of_mul_lt_mul_right hbits

/-- One step further on there is another number on the grid. -/
theorem OnGrid.add_step (hgrid : OnGrid units) : OnGrid (units + 2 ^ droppedBits units) := by
  obtain ⟨significand, hsignificand, hunits⟩ := hgrid.exists_significand
  generalize droppedBits units = dropped at hunits ⊢
  rw [hunits, ← Nat.succ_mul]
  exact onGrid_mul_pow hsignificand dropped

/-- The next number on the grid is no nearer than one step. -/
theorem OnGrid.add_step_le {lower upper : Nat} (hlower : OnGrid lower) (hupper : OnGrid upper)
    (hless : lower < upper) : lower + 2 ^ droppedBits lower ≤ upper := by
  have hdivides : 2 ^ droppedBits lower ∣ upper :=
    Nat.dvd_trans (Nat.pow_dvd_pow 2 (droppedBits_mono hless.le)) hupper
  have hgap := Nat.le_of_dvd (Nat.sub_pos_of_lt hless) (Nat.dvd_sub hdivides hlower)
  omega

/-- Half of a number on the grid lies on it too; half of an odd one is rounded up. -/
theorem OnGrid.half (hgrid : OnGrid units) : OnGrid ((units + 1) / 2) := by
  obtain ⟨significand, hsignificand, hunits⟩ := hgrid.exists_significand
  generalize droppedBits units = dropped at hunits
  cases dropped with
  | zero => exact onGrid_of_lt (by omega)
  | succ dropped =>
      have hhalf : (units + 1) / 2 = significand * 2 ^ dropped := by
        rw [Nat.pow_succ, ← Nat.mul_assoc] at hunits
        omega
      rw [hhalf]
      exact onGrid_mul_pow hsignificand.le dropped

end Grid

/-- The rank counts magnitudes in increasing order. -/
theorem Magnitude.rank_lt_rank {lower upper : Magnitude} (hless : lower.units < upper.units) :
    lower.rank < upper.rank := by
  unfold rank
  have hlower := lt_two_pow_mul_droppedBits lower.units
  rcases Nat.lt_or_eq_of_le (droppedBits_mono hless.le) with hbits | hbits
  · have hfraction : lower.units / 2 ^ droppedBits lower.units < 2 ^ 53 :=
      (Nat.div_lt_iff_lt_mul (Nat.two_pow_pos _)).2 hlower
    have hupper : 2 ^ 52 ≤ upper.units / 2 ^ droppedBits upper.units :=
      (Nat.le_div_iff_mul_le (Nat.two_pow_pos _)).2
        (two_pow_mul_droppedBits_le (Nat.zero_lt_of_lt hbits))
    omega
  · obtain ⟨lowerSignificand, hlowerUnits⟩ := lower.onGrid
    obtain ⟨upperSignificand, hupperUnits⟩ := upper.onGrid
    have hstep := Nat.two_pow_pos (droppedBits upper.units)
    rw [hbits] at hlowerUnits ⊢
    rw [Nat.div_eq_of_eq_mul_right hstep hlowerUnits, Nat.div_eq_of_eq_mul_right hstep hupperUnits]
    have hsignificands : 2 ^ droppedBits upper.units * lowerSignificand <
        2 ^ droppedBits upper.units * upperSignificand := by
      rw [← hlowerUnits, ← hupperUnits]
      exact hless
    exact Nat.add_lt_add_left (Nat.lt_of_mul_lt_mul_left hsignificands) _

section One

theorem droppedBits_unitsInOne : droppedBits unitsInOne = fractionBits - 52 := by
  rw [droppedBits, unitsInOne, Nat.log2_two_pow]

theorem unitsInOne_eq : unitsInOne = 2 ^ 52 * 2 ^ droppedBits unitsInOne := by
  rw [droppedBits_unitsInOne, ← Nat.pow_add, Nat.add_sub_cancel' (by decide), unitsInOne]

theorem rank_one :
    Magnitude.rank ⟨unitsInOne, onGrid_unitsInOne, unitsInOne_lt_overflowUnits⟩ =
      1023 * 2 ^ 52 := by
  have hfraction : unitsInOne / 2 ^ droppedBits unitsInOne = 2 ^ 52 :=
    Nat.div_eq_of_eq_mul_left (Nat.two_pow_pos _) unitsInOne_eq
  rw [Magnitude.rank, hfraction, droppedBits_unitsInOne, fractionBits]

end One

section Products

variable {units factor : Nat}

/-- A factor of at most one half makes a magnitude smaller. -/
theorem roundToGrid_mul_lt {scale : Nat} (hgrid : OnGrid units) (hunits : 0 < units)
    (hscale : 0 < scale) (hfactor : 2 * factor ≤ scale) :
    roundToGrid (units * factor) scale < units := by
  by_cases hone : units = 1
  · -- The quotient is at most one half, which goes to zero.
    rw [hone, Nat.one_mul, roundToGrid_of_lt (by omega), if_neg hfactor.not_gt]
    exact Nat.one_pos
  · have hhalf : units * factor ≤ (units + 1) / 2 * scale := by
      calc units * factor
        _ ≤ (units + 1) / 2 * 2 * factor := Nat.mul_le_mul_right _ (by omega)
        _ = (units + 1) / 2 * (2 * factor) := Nat.mul_assoc _ _ _
        _ ≤ (units + 1) / 2 * scale := Nat.mul_le_mul_left _ hfactor
    have hround := roundToGrid_le hgrid.half hscale hhalf
    omega

/-- A factor of more than one makes a magnitude of at least one greater. -/
theorem lt_roundToGrid_mul (hgrid : OnGrid units) (hfactor : OnGrid factor)
    (hunits : unitsInOne ≤ units) (hgreater : unitsInOne < factor) :
    units < roundToGrid (units * factor) unitsInOne := by
  have hnormal : 2 ^ 52 ≤ units := by
    refine Nat.le_trans ?_ hunits
    exact Nat.pow_le_pow_right Nat.two_pos (by decide)
  have hstep := (droppedBits_eq_of_normal hnormal).1
  have hgap := onGrid_unitsInOne.add_step_le hfactor hgreater
  have hnext : (units + 2 ^ droppedBits units) * unitsInOne ≤ units * factor := by
    calc (units + 2 ^ droppedBits units) * unitsInOne
      _ = units * unitsInOne + 2 ^ 52 * 2 ^ droppedBits units * 2 ^ droppedBits unitsInOne := by
        rw [Nat.add_mul, Nat.mul_comm (2 ^ 52), Nat.mul_assoc _ (2 ^ 52), ← unitsInOne_eq]
      _ ≤ units * unitsInOne + units * 2 ^ droppedBits unitsInOne :=
        Nat.add_le_add_left (Nat.mul_le_mul_right _ hstep) _
      _ = units * (unitsInOne + 2 ^ droppedBits unitsInOne) := (Nat.mul_add _ _ _).symm
      _ ≤ units * factor := Nat.mul_le_mul_left _ hgap
  have hround := le_roundToGrid hgrid.add_step unitsInOne_pos hnext
  exact Nat.lt_of_lt_of_le (Nat.lt_add_of_pos_right (Nat.two_pow_pos _)) hround

end Products

end Calculator.Binary64

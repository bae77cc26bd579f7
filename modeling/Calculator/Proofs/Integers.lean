import Mathlib.Algebra.Order.Ring.Int
import Mathlib.Algebra.Ring.Parity
import Calculator.Binary64.Power
import Calculator.Decimal.Fixed
import Calculator.Proofs.Literal

/-!
# Integers among the values

An integer of magnitude at most `2 ^ 53` has few enough bits for the grid, so a sum, a
difference or a product that is such an integer is not rounded.  The products of a power grow
towards its value, or vanish, or are one up to their sign; so if the value is such an integer
they all are, and a run that stops early has found it.
-/

namespace Calculator

namespace Binary64

theorem natAbs_signedUnits (negative : Bool) (magnitude : Magnitude) :
    (signedUnits negative magnitude).natAbs = magnitude.units := by
  cases negative with
  | false => exact Int.natAbs_natCast _
  | true => exact (Int.natAbs_neg _).trans (Int.natAbs_natCast _)

theorem signedUnits_not (negative : Bool) (magnitude : Magnitude) :
    signedUnits (!negative) magnitude = -signedUnits negative magnitude := by
  cases negative with
  | false => rfl
  | true => exact (Int.neg_neg _).symm

theorem signedUnits_of_natAbs {negative : Bool} {magnitude : Magnitude} {total : Int}
    (hunits : magnitude.units = total.natAbs)
    (hnegative : total ≠ 0 → negative = decide (total < 0)) :
    signedUnits negative magnitude = total := by
  unfold signedUnits
  by_cases hzero : total = 0
  · simp [hunits, hzero]
  · rw [hnegative hzero, hunits]
    by_cases hless : total < 0
    · simp only [hless, decide_true, if_true]
      omega
    · simp only [hless, decide_false, Bool.false_eq_true, if_false]
      omega

/-- The value is this integer; both zeros are zero. -/
def IsInteger (value : Binary64) (number : Int) : Prop :=
  ∃ negative magnitude, value = .finite negative magnitude ∧
    signedUnits negative magnitude = number * unitsInOne

theorem mul_unitsInOne_neg_iff {number : Int} : number * unitsInOne < 0 ↔ number < 0 := by
  have hpositive : (0 : Int) < unitsInOne := Int.natCast_pos.2 unitsInOne_pos
  simpa only [Int.zero_mul] using mul_lt_mul_iff_of_pos_right (b := number) (c := 0) hpositive

section Signed

variable {negative : Bool} {magnitude : Magnitude} {number : Int}

theorem units_of_signedUnits (hvalue : signedUnits negative magnitude = number * unitsInOne) :
    magnitude.units = number.natAbs * unitsInOne := by
  rw [← natAbs_signedUnits negative, hvalue, Int.natAbs_mul, Int.natAbs_natCast]

/-- The sign is that of the integer, unless this is zero. -/
theorem negative_of_signedUnits (hvalue : signedUnits negative magnitude = number * unitsInOne)
    (hnumber : number ≠ 0) : negative = decide (number < 0) := by
  have hunits : magnitude.units ≠ 0 := by
    rw [units_of_signedUnits hvalue]
    exact Nat.mul_ne_zero (Int.natAbs_ne_zero.2 hnumber) unitsInOne_pos.ne'
  have hless : signedUnits negative magnitude < 0 ↔ number < 0 := by
    rw [hvalue, mul_unitsInOne_neg_iff]
  cases negative with
  | false =>
      have hnonneg : ¬signedUnits false magnitude < 0 := (Int.natCast_nonneg _).not_gt
      simp [hless.not.1 hnonneg]
  | true =>
      have hnegative : signedUnits true magnitude < 0 := Int.neg_neg_of_pos (by omega)
      simp [hless.1 hnegative]

end Signed

/-- An integer of at most this magnitude is not rounded. -/
theorem isInteger_ofQuotient {negative : Bool} {number : Int} {denominator : Nat}
    (hbound : number.natAbs ≤ 2 ^ 53) (hpositive : 0 < denominator)
    (hnegative : number ≠ 0 → negative = decide (number < 0)) :
    (ofQuotient negative (number.natAbs * unitsInOne * denominator) denominator).IsInteger
      number := by
  have hbounded : number.natAbs * unitsInOne < overflowUnits := by
    refine Nat.lt_of_le_of_lt (Nat.mul_le_mul_right _ hbound) ?_
    unfold unitsInOne overflowUnits
    rw [← Nat.pow_add, Nat.add_comm]
    exact Nat.pow_lt_pow_right Nat.one_lt_two (Nat.add_lt_add_left (by decide) fractionBits)
  let magnitude : Magnitude := ⟨number.natAbs * unitsInOne, onGrid_mul_pow hbound _, hbounded⟩
  refine ⟨negative, magnitude, ofQuotient_of_magnitude negative magnitude hpositive, ?_⟩
  apply signedUnits_of_natAbs
  · rw [Int.natAbs_mul, Int.natAbs_natCast]
  · intro hzero
    rw [hnegative (left_ne_zero_of_mul hzero)]
    exact decide_eq_decide.2 mul_unitsInOne_neg_iff.symm

theorem isInteger_one : one.IsInteger 1 :=
  ⟨false, _, rfl, (Int.one_mul _).symm⟩

namespace IsInteger

variable {left right : Binary64} {first second : Int}

theorem neg (hleft : left.IsInteger first) : (neg left).IsInteger (-first) := by
  obtain ⟨negative, magnitude, rfl, hvalue⟩ := hleft
  refine ⟨!negative, magnitude, rfl, ?_⟩
  rw [signedUnits_not, hvalue, Int.neg_mul]

theorem add (hleft : left.IsInteger first) (hright : right.IsInteger second)
    (hbound : (first + second).natAbs ≤ 2 ^ 53) : (add left right).IsInteger (first + second) := by
  obtain ⟨leftNegative, leftMagnitude, rfl, hfirst⟩ := hleft
  obtain ⟨rightNegative, rightMagnitude, rfl, hsecond⟩ := hright
  have htotal : signedUnits leftNegative leftMagnitude + signedUnits rightNegative rightMagnitude =
      (first + second) * unitsInOne := by
    rw [hfirst, hsecond, Int.add_mul]
  have hunits : ((first + second) * unitsInOne).natAbs =
      (first + second).natAbs * unitsInOne * 1 := by
    rw [Int.natAbs_mul, Int.natAbs_natCast, Nat.mul_one]
  simp only [Binary64.add, htotal, hunits]
  apply isInteger_ofQuotient hbound Nat.one_pos
  intro hzero
  have hone : (unitsInOne : Int) ≠ 0 := Int.natCast_ne_zero.2 unitsInOne_pos.ne'
  rw [if_neg (mul_ne_zero hzero hone)]
  exact decide_eq_decide.2 mul_unitsInOne_neg_iff

theorem sub (hleft : left.IsInteger first) (hright : right.IsInteger second)
    (hbound : (first - second).natAbs ≤ 2 ^ 53) : (sub left right).IsInteger (first - second) := by
  rw [Int.sub_eq_add_neg] at hbound ⊢
  exact hleft.add hright.neg hbound

private theorem xor_decide_neg (hfirst : first ≠ 0) (hsecond : second ≠ 0) :
    (decide (first < 0) ^^ decide (second < 0)) = decide (first * second < 0) := by
  rcases hfirst.lt_or_gt with hfirst | hfirst <;> rcases hsecond.lt_or_gt with hsecond | hsecond
  · simp [hfirst, hsecond, (mul_pos_of_neg_of_neg hfirst hsecond).not_gt]
  · simp [hfirst, hsecond.not_gt, mul_neg_of_neg_of_pos hfirst hsecond]
  · simp [hfirst.not_gt, hsecond, mul_neg_of_pos_of_neg hfirst hsecond]
  · simp [hfirst.not_gt, hsecond.not_gt, (mul_pos hfirst hsecond).not_gt]

theorem mul (hleft : left.IsInteger first) (hright : right.IsInteger second)
    (hbound : (first * second).natAbs ≤ 2 ^ 53) : (mul left right).IsInteger (first * second) := by
  obtain ⟨leftNegative, leftMagnitude, rfl, hfirst⟩ := hleft
  obtain ⟨rightNegative, rightMagnitude, rfl, hsecond⟩ := hright
  have hunits : leftMagnitude.units * rightMagnitude.units =
      (first * second).natAbs * unitsInOne * unitsInOne := by
    rw [units_of_signedUnits hfirst, units_of_signedUnits hsecond, Int.natAbs_mul,
      Nat.mul_mul_mul_comm, ← Nat.mul_assoc]
  rw [Binary64.mul, hunits]
  apply isInteger_ofQuotient hbound unitsInOne_pos
  intro hzero
  rw [negative_of_signedUnits hfirst (left_ne_zero_of_mul hzero),
    negative_of_signedUnits hsecond (right_ne_zero_of_mul hzero)]
  exact xor_decide_neg (left_ne_zero_of_mul hzero) (right_ne_zero_of_mul hzero)

theorem isFinite (hleft : left.IsInteger first) : left.isFinite = true := by
  obtain ⟨negative, magnitude, rfl, -⟩ := hleft
  rfl

theorem eq_zero_of_isZero (hleft : left.IsInteger first) (hzero : left.isZero = true) :
    first = 0 := by
  obtain ⟨negative, magnitude, rfl, hvalue⟩ := hleft
  have hunits : magnitude.units = 0 := eq_of_beq hzero
  rw [units_of_signedUnits hvalue] at hunits
  have habs : first.natAbs = 0 := (Nat.mul_eq_zero.1 hunits).resolve_right unitsInOne_pos.ne'
  exact Int.natAbs_eq_zero.1 habs

theorem natAbs_eq_one_of_isUnit (hleft : left.IsInteger first) (hunit : left.isUnit = true) :
    first.natAbs = 1 := by
  obtain ⟨negative, magnitude, rfl, hvalue⟩ := hleft
  have hunits : magnitude.units = unitsInOne := eq_of_beq hunit
  rw [units_of_signedUnits hvalue] at hunits
  exact Nat.eq_of_mul_eq_mul_right unitsInOne_pos (hunits.trans (Nat.one_mul _).symm)

theorem signBit_eq (hleft : left.IsInteger first) (hzero : first ≠ 0) :
    left.signBit = decide (first < 0) := by
  obtain ⟨negative, magnitude, rfl, hvalue⟩ := hleft
  exact negative_of_signedUnits hvalue hzero

theorem truncate_eq (hleft : left.IsInteger first) (hbound : first.natAbs ≤ 2 ^ 53) :
    left.truncate = first := by
  obtain ⟨negative, magnitude, rfl, hvalue⟩ := hleft
  have hwhole : magnitude.units / unitsInOne = first.natAbs := by
    rw [units_of_signedUnits hvalue, Nat.mul_div_cancel _ unitsInOne_pos]
  simp only [truncate, hwhole]
  by_cases hzero : first = 0
  · subst hzero
    cases negative <;> rfl
  · rw [negative_of_signedUnits hvalue hzero]
    by_cases hless : first < 0
    · simp only [hless, decide_true, if_true]
      omega
    · simp only [hless, decide_false, Bool.false_eq_true, if_false]
      omega

section PowerRun

variable {base value : Binary64} {number reached : Int}

/-- Once only the sign of a power can change, its parity gives the power. -/
theorem settle (hbase : base.IsInteger number) (hvalue : value.IsInteger reached)
    (hsettled : isSettled base value = true) (remaining : Nat) :
    (if base.signBit && remaining % 2 == 1 then Binary64.neg value else value).IsInteger
      (reached * number ^ remaining) := by
  simp only [isSettled, Bool.or_eq_true, hvalue.isFinite, Bool.not_true, Bool.false_eq_true,
    or_false] at hsettled
  rcases hsettled with hzero | hunit
  · obtain rfl := hvalue.eq_zero_of_isZero hzero
    rw [Int.zero_mul]
    split
    · exact hvalue.neg
    · exact hvalue
  · have habs := hbase.natAbs_eq_one_of_isUnit hunit
    rw [hbase.signBit_eq (by omega)]
    obtain rfl | rfl : number = 1 ∨ number = -1 := by omega
    · simpa using hvalue
    · rcases Nat.even_or_odd remaining with heven | hodd
      · simpa [heven.neg_one_pow, Nat.even_iff.1 heven] using hvalue
      · simpa [hodd.neg_one_pow, Nat.odd_iff.1 hodd] using hvalue.neg

/-- A product on the way to a power is no larger than the power, or it is zero. -/
private theorem natAbs_mul_le_of_pow {remaining : Nat}
    (hbound : (reached * number * number ^ remaining).natAbs ≤ 2 ^ 53) :
    (reached * number).natAbs ≤ 2 ^ 53 := by
  by_cases hzero : number = 0
  · simp [hzero]
  · rw [Int.natAbs_mul (reached * number)] at hbound
    have hpower : 0 < (number ^ remaining).natAbs := Int.natAbs_pos.2 (pow_ne_zero _ hzero)
    exact (Nat.le_mul_of_pos_right _ hpower).trans hbound

theorem powerFrom (hbase : base.IsInteger number) (hvalue : value.IsInteger reached)
    {remaining : Nat} (hbound : (reached * number ^ remaining).natAbs ≤ 2 ^ 53) (done : Nat) :
    (powerFrom base remaining value done).value.IsInteger (reached * number ^ remaining) := by
  induction remaining generalizing value reached done with
  | zero => simpa [Binary64.powerFrom] using hvalue
  | succ remaining ih =>
      have hsplit : reached * number ^ (remaining + 1) =
          reached * number * number ^ remaining := by
        rw [pow_succ', mul_assoc]
      rw [hsplit] at hbound ⊢
      have hnext := hvalue.mul hbase (natAbs_mul_le_of_pow hbound)
      unfold Binary64.powerFrom
      dsimp only
      split
      · next hsettled => exact hbase.settle hnext hsettled remaining
      · exact ih hnext hbound (done + 1)

end PowerRun

theorem power (hleft : left.IsInteger first) (hright : right.IsInteger second)
    (hexponent : second.natAbs ≤ 2 ^ 53) (hbound : (first ^ second.toNat).natAbs ≤ 2 ^ 53) :
    (power left right).IsInteger (first ^ second.toNat) := by
  rw [← Int.one_mul (first ^ second.toNat)] at hbound ⊢
  rw [Binary64.power, powerRun, repetitions, hright.truncate_eq hexponent]
  exact hleft.powerFrom isInteger_one hbound 0

/-- An integer is shown with its digits; a zero may have a sign. -/
theorem exists_fixedText_eq (hleft : left.IsInteger first) :
    ∃ negative, left.fixedText =
        signText negative ++ Nat.toDigits 10 first.natAbs ++ ['.', '0', '0'] ∧
      (first ≠ 0 → negative = decide (first < 0)) := by
  obtain ⟨negative, magnitude, rfl, hvalue⟩ := hleft
  refine ⟨negative, ?_, negative_of_signedUnits hvalue⟩
  have hunits : magnitude.units * 100 = first.natAbs * 100 * unitsInOne := by
    rw [units_of_signedUnits hvalue, Nat.mul_right_comm]
  have hhundredths : Decimal.nearestHundredth magnitude = ⟨first.natAbs * 100, 2⟩ := by
    rw [Decimal.nearestHundredth, hunits, roundQuotient_mul_left _ unitsInOne_pos]
  have hplaces : Decimal.lastDigits 2 (first.natAbs * 100) = ['0', '0'] := by
    have hlast : first.natAbs * 100 % 10 = 0 := by omega
    have hsecond : first.natAbs * 100 / 10 % 10 = 0 := by omega
    simp [Decimal.lastDigits, hlast, hsecond]
  have hwhole : first.natAbs * 100 / 10 ^ 2 = first.natAbs :=
    Nat.mul_div_cancel _ (by decide)
  simp only [fixedText, hhundredths, Decimal.toText, hplaces, hwhole, OfNat.ofNat_ne_zero,
    if_false, List.append_assoc]

end IsInteger

end Binary64

namespace Decimal

/-- A run of digits alone is read as the integer it writes. -/
theorem ofText?_of_isDigit {text : Text} (hne : text ≠ [])
    (hdigits : ∀ character ∈ text, character.isDigit = true) :
    ofText? text = some ⟨Nat.ofDigitChars 10 text 0, 0⟩ := by
  have hpoint : '.' ∉ text := fun hmem => absurd (hdigits '.' hmem) (by decide)
  obtain ⟨hwhole, hfraction⟩ := parts_of_not_mem hpoint
  have hall : text.all Char.isDigit = true := List.all_eq_true.2 hdigits
  simp [ofText?, hwhole, hfraction, hne, hall]

theorem isInteger_toBinary64 {digits : Nat} (hbound : digits ≤ 2 ^ 53) :
    (toBinary64 ⟨digits, 0⟩).IsInteger digits := by
  have hsmall : (digits : Int).natAbs ≤ 2 ^ 53 := hbound
  have hnegative : (digits : Int) ≠ 0 → false = decide ((digits : Int) < 0) := by
    simp
  have hvalue := Binary64.isInteger_ofQuotient hsmall Nat.one_pos hnegative
  rwa [Int.natAbs_natCast, Nat.mul_one] at hvalue

end Decimal

end Calculator

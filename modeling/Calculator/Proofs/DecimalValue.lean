import Mathlib.Tactic.FieldSimp
import Mathlib.Tactic.Ring
import Calculator.Proofs.Literal

/-!
# The number that a decimal text writes

Every digit in front of the point counts ten times as much as the one behind it, and so on
behind the point: the value of a text is the sum over its digits.  It is the value of the
decimal that is read from the text.
-/

namespace Calculator

namespace Text

def digitValue (digit : Char) : Nat :=
  digit.toNat - '0'.toNat

/-- The number that digits in front of a point write. -/
def wholeValue : Text → ℚ
  | [] => 0
  | digit :: rest => digitValue digit * 10 ^ rest.length + wholeValue rest

/-- The number that digits behind a point write. -/
def fractionValue : Text → ℚ
  | [] => 0
  | digit :: rest => (digitValue digit + fractionValue rest) / 10

/-- The number that digits and at most one point write. -/
def decimalValue (text : Text) : ℚ :=
  wholeValue (text.takeWhile (· != '.')) + fractionValue ((text.dropWhile (· != '.')).drop 1)

theorem wholeValue_eq (digits : Text) : wholeValue digits = (Nat.ofDigitChars 10 digits 0 : ℕ) := by
  induction digits with
  | nil => simp [wholeValue]
  | cons digit rest ih =>
      rw [wholeValue, ih, Nat.ofDigitChars_cons,
        @Nat.ofDigitChars_eq_ofDigitChars_zero rest (10 * 0 + _)]
      push_cast [digitValue]
      ring

theorem fractionValue_eq (digits : Text) :
    fractionValue digits = (Nat.ofDigitChars 10 digits 0 : ℕ) / 10 ^ digits.length := by
  rw [← wholeValue_eq]
  induction digits with
  | nil => simp [fractionValue, wholeValue]
  | cons digit rest ih =>
      rw [fractionValue, ih, wholeValue, List.length_cons, pow_succ]
      field_simp

/-- A text that is read as a decimal writes its value. -/
theorem decimalValue_of_ofText? {text : Text} {decimal : Decimal}
    (hread : Decimal.ofText? text = some decimal) :
    text.decimalValue = decimal.digits / 10 ^ decimal.scale := by
  simp only [Decimal.ofText?] at hread
  split at hread
  · cases hread
    rw [decimalValue, wholeValue_eq, fractionValue_eq]
    change (Nat.ofDigitChars 10 (Decimal.wholePart text) 0 : ℚ) +
      Nat.ofDigitChars 10 (Decimal.fractionPart text) 0 /
        10 ^ (Decimal.fractionPart text).length = _
    rw [Nat.ofDigitChars_append, @Nat.ofDigitChars_eq_ofDigitChars_zero
      (Decimal.fractionPart text) (Nat.ofDigitChars 10 (Decimal.wholePart text) 0)]
    push_cast
    field_simp
  · cases hread

theorem decimalValue_toText (decimal : Decimal) :
    decimal.toText.decimalValue = decimal.digits / 10 ^ decimal.scale :=
  decimalValue_of_ofText? decimal.ofText?_toText

end Text

end Calculator

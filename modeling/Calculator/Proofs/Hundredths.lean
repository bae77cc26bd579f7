import Mathlib.Data.List.Induction
import Mathlib.Tactic.NormNum
import Calculator.Proofs.Answers
import Calculator.Proofs.DecimalValue
import Calculator.Proofs.Nearest

/-!
# Two decimal places

A finite value is shown with its sign bit and the multiple of one hundredth that is nearest to
its magnitude.  Digits without a superfluous zero in front are those of the number that they
write, so there is one text for each multiple.  Rounding keeps the order of magnitudes, and a
sign turns it around, so the texts of two values compare as the values do.
-/

namespace Calculator

namespace Binary64

/-- The number of this size, with or without a minus sign. -/
def signed (negative : Bool) (size : ℚ) : ℚ :=
  if negative then -size else size

/-- The exact number of a finite value. -/
def toRat? : Binary64 → Option ℚ
  | .finite negative magnitude => some (signed negative magnitude.toRat)
  | _ => none

section Signed

variable (negative : Bool) {size : ℚ}

theorem abs_signed (hsize : 0 ≤ size) : |signed negative size| = size := by
  cases negative with
  | false => exact abs_of_nonneg hsize
  | true => exact (abs_neg size).trans (abs_of_nonneg hsize)

theorem abs_signed_sub (first second : ℚ) :
    |signed negative first - signed negative second| = |first - second| := by
  cases negative with
  | false => rfl
  | true =>
      change |-first - -second| = |first - second|
      rw [neg_sub_neg, abs_sub_comm]

end Signed

end Binary64

namespace Text

/-- A decimal with two places and no superfluous zero in front. -/
def IsFixed (text : Text) : Prop :=
  ∃ (whole : Text) (tenths hundredths : Char), text = whole ++ ['.', tenths, hundredths] ∧
    whole.IsWhole ∧ tenths.isDigit = true ∧ hundredths.isDigit = true

/-- The number that a decimal and the sign in front of it write. -/
def signedValue : Text → ℚ
  | '-' :: decimal => -decimalValue decimal
  | decimal => decimalValue decimal

section Digits

variable {digits whole fraction : Text}

theorem digitChar_digitValue {digit : Char} (hdigit : digit.isDigit = true) :
    digitValue digit < 10 ∧ Nat.digitChar (digitValue digit) = digit := by
  obtain ⟨hzero, hnine⟩ := Char.isDigit_iff_toNat.1 hdigit
  have hvalue : digit.toNat = 48 + digitValue digit := (Nat.add_sub_of_le hzero).symm
  have hless : digitValue digit < 10 := by
    have : '9'.toNat = 57 := rfl
    omega
  refine ⟨hless, Char.toNat_inj.1 ?_⟩
  rw [Nat.toNat_digitChar_of_lt_ten hless, hvalue]

/-- Digits behind those of a positive number are kept. -/
theorem toDigits_ofDigitChars (hdigits : ∀ digit ∈ digits, digit.isDigit = true) {number : Nat}
    (hpositive : 0 < number) :
    Nat.toDigits 10 (Nat.ofDigitChars 10 digits number) = Nat.toDigits 10 number ++ digits := by
  induction digits generalizing number with
  | nil => simp
  | cons digit rest ih =>
      obtain ⟨hdigit, hrest⟩ := List.forall_mem_cons.1 hdigits
      obtain ⟨hless, hchar⟩ := digitChar_digitValue hdigit
      rw [Nat.ofDigitChars_cons, ← digitValue, ih hrest (by omega),
        ← Nat.toDigits_append_toDigits (by decide) hpositive hless,
        Nat.toDigits_of_lt_base hless, hchar, List.append_assoc, List.singleton_append]

theorem IsWhole.isDigit (hwhole : whole.IsWhole) : ∀ digit ∈ whole, digit.isDigit = true := by
  obtain rfl | ⟨first, more, -, -, hdigits⟩ := hwhole
  · exact List.forall_mem_singleton.2 rfl
  · exact hdigits

/-- Digits with no superfluous zero in front are those of the number that they write. -/
theorem IsWhole.toDigits_ofDigitChars (hwhole : whole.IsWhole) :
    Nat.toDigits 10 (Nat.ofDigitChars 10 whole 0) = whole := by
  obtain rfl | ⟨first, more, rfl, hfirst, hdigits⟩ := hwhole
  · rfl
  · obtain ⟨hdigit, hmore⟩ := List.forall_mem_cons.1 hdigits
    obtain ⟨hless, hchar⟩ := digitChar_digitValue hdigit
    have hpositive : 0 < digitValue first := by
      refine Nat.pos_of_ne_zero fun hzero => hfirst ?_
      rw [← hchar, hzero]
      rfl
    rw [Nat.ofDigitChars_cons, ← digitValue, Nat.mul_zero, Nat.zero_add,
      Text.toDigits_ofDigitChars hmore hpositive, Nat.toDigits_of_lt_base hless, hchar,
      List.singleton_append]

theorem lastDigits_ofDigitChars (hdigits : ∀ digit ∈ digits, digit.isDigit = true)
    (start : Nat) :
    Decimal.lastDigits digits.length (Nat.ofDigitChars 10 digits start) = digits := by
  induction digits using List.reverseRecOn with
  | nil => rfl
  | append_singleton front digit ih =>
      obtain ⟨hfront, hdigit⟩ := List.forall_mem_append.1 hdigits
      obtain ⟨hless, hchar⟩ := digitChar_digitValue (hdigit digit List.mem_cons_self)
      have hquotient : (10 * Nat.ofDigitChars 10 front start + digitValue digit) / 10 =
          Nat.ofDigitChars 10 front start := by
        omega
      have hrest : (10 * Nat.ofDigitChars 10 front start + digitValue digit) % 10 =
          digitValue digit := by
        omega
      rw [Nat.ofDigitChars_append, Nat.ofDigitChars_cons, Nat.ofDigitChars_nil, ← digitValue,
        List.length_append, List.length_singleton, Decimal.lastDigits, hquotient, hrest, hchar,
        ih hfront]

/-- A decimal with no superfluous zero in front is the text of what is read from it. -/
theorem toText_of_isWhole (hwhole : whole.IsWhole) (hne : fraction ≠ [])
    (hfraction : ∀ digit ∈ fraction, digit.isDigit = true) :
    Decimal.toText ⟨Nat.ofDigitChars 10 (whole ++ fraction) 0, fraction.length⟩ =
      whole ++ '.' :: fraction := by
  have hlast := lastDigits_ofDigitChars hfraction (Nat.ofDigitChars 10 whole 0)
  have hvalue := Decimal.ofDigitChars_lastDigits fraction.length
    (Nat.ofDigitChars 10 fraction (Nat.ofDigitChars 10 whole 0)) (Nat.ofDigitChars 10 whole 0)
  rw [hlast] at hvalue
  rw [Nat.ofDigitChars_append]
  generalize Nat.ofDigitChars 10 fraction (Nat.ofDigitChars 10 whole 0) = number at *
  have hquotient : number / 10 ^ fraction.length = Nat.ofDigitChars 10 whole 0 := by
    have hpositive : 0 < 10 ^ fraction.length := Nat.pow_pos (by decide)
    rw [hvalue, Nat.mul_comm, Nat.mul_add_div hpositive, Nat.div_eq_of_lt (Nat.mod_lt _ hpositive),
      Nat.add_zero]
  have hscale : fraction.length ≠ 0 := fun hzero => hne (List.length_eq_zero_iff.1 hzero)
  simp only [Decimal.toText, hscale, if_false, hquotient, hwhole.toDigits_ofDigitChars, hlast]

end Digits

theorem IsFixed.exists_toText {text : Text} (hfixed : text.IsFixed) :
    ∃ number, Decimal.toText ⟨number, 2⟩ = text := by
  obtain ⟨whole, tenths, hundredths, rfl, hwhole, htenths, hhundredths⟩ := hfixed
  have hfraction : ∀ digit ∈ [tenths, hundredths], digit.isDigit = true := by
    simp [htenths, hhundredths]
  exact ⟨_, toText_of_isWhole hwhole (List.cons_ne_nil _ _) hfraction⟩

theorem decimalValue_toText_two (number : Nat) :
    (Decimal.toText ⟨number, 2⟩).decimalValue = number / 100 := by
  rw [decimalValue_toText]
  norm_num

/-- There is one text with two places for each number of hundredths. -/
theorem IsFixed.eq_toText {text : Text} (hfixed : text.IsFixed) {number : Nat}
    (hvalue : text.decimalValue = number / 100) : text = Decimal.toText ⟨number, 2⟩ := by
  obtain ⟨written, rfl⟩ := hfixed.exists_toText
  rw [decimalValue_toText_two, div_left_inj' (by norm_num), Nat.cast_inj] at hvalue
  rw [hvalue]

theorem isFixed_toText (number : Nat) : (Decimal.toText ⟨number, 2⟩).IsFixed :=
  ⟨_, _, _, rfl, isWhole_toDigits _, isDigit_digitChar_mod _, isDigit_digitChar_mod _⟩

theorem signedValue_signText {decimal : Text} (hfixed : decimal.IsFixed) (negative : Bool) :
    (Binary64.signText negative ++ decimal).signedValue =
      Binary64.signed negative decimal.decimalValue := by
  cases negative with
  | true => simp [Binary64.signText, signedValue, Binary64.signed]
  | false =>
      obtain ⟨whole, tenths, hundredths, rfl, hwhole, -, -⟩ := hfixed
      obtain ⟨first, more, rfl, hdigit⟩ := hwhole.exists_eq_cons
      have hsign : first ≠ '-' := by
        rintro rfl
        cases hdigit
      simp [Binary64.signText, signedValue, Binary64.signed, hsign]

end Text

namespace Binary64

section Magnitude

variable (magnitude : Magnitude)

theorem Magnitude.toRat_nonneg : 0 ≤ magnitude.toRat :=
  div_nonneg (Nat.cast_nonneg _) unitsInOne_pos_rat.le

theorem Magnitude.hundred_mul_toRat :
    ((magnitude.units * 100 : ℕ) : ℚ) / unitsInOne = magnitude.toRat * 100 := by
  rw [Magnitude.toRat]
  push_cast
  ring

theorem digits_nearestHundredth :
    (Decimal.nearestHundredth magnitude).digits =
      roundQuotient (magnitude.units * 100) unitsInOne := by
  rw [Decimal.nearestHundredth]

theorem isNearestEven_nearestHundredth :
    IsNearestEven (fun count : ℤ => (count : ℚ)) Even (magnitude.toRat * 100)
      ((Decimal.nearestHundredth magnitude).digits : ℕ) := by
  rw [digits_nearestHundredth, ← magnitude.hundred_mul_toRat]
  exact isNearestEven_roundQuotient (magnitude.units * 100) unitsInOne_pos

theorem abs_sub_nearestHundredth :
    |magnitude.toRat - (Decimal.nearestHundredth magnitude).digits / 100| ≤ 1 / 200 := by
  have hhalf := (abs_sub_roundQuotient (magnitude.units * 100) unitsInOne_pos).1
  rw [magnitude.hundred_mul_toRat, ← digits_nearestHundredth, abs_le] at hhalf
  rw [abs_le]
  constructor
  · linarith
  · linarith

theorem nearestHundredth_mono {lower upper : Magnitude} (hle : lower.toRat ≤ upper.toRat) :
    ((Decimal.nearestHundredth lower).digits / 100 : ℚ) ≤
      (Decimal.nearestHundredth upper).digits / 100 := by
  have hunits : lower.units ≤ upper.units :=
    Nat.le_of_not_lt fun hless => hle.not_gt (Magnitude.toRat_lt_toRat_iff.2 hless)
  have hdigits : roundQuotient (lower.units * 100) unitsInOne ≤
      roundQuotient (upper.units * 100) unitsInOne :=
    roundQuotient_mono (Nat.mul_le_mul_right 100 hunits) _
  rw [digits_nearestHundredth, digits_nearestHundredth]
  exact div_le_div_of_nonneg_right (Nat.cast_le.2 hdigits) (by norm_num)

theorem nearestHundredth_nonneg :
    (0 : ℚ) ≤ (Decimal.nearestHundredth magnitude).digits / 100 :=
  div_nonneg (Nat.cast_nonneg _) (by norm_num)

theorem digits_nearestHundredth_of_nonpos (hnonpos : magnitude.toRat ≤ 0) :
    (Decimal.nearestHundredth magnitude).digits = 0 := by
  rw [Magnitude.toRat, div_le_iff₀ unitsInOne_pos_rat, zero_mul, Nat.cast_nonpos] at hnonpos
  rw [digits_nearestHundredth, hnonpos, Nat.zero_mul]
  simpa using roundQuotient_mul_left 0 unitsInOne_pos

theorem signed_nearestHundredth_mono {lower upper : Magnitude} {negative otherNegative : Bool}
    (hle : signed negative lower.toRat ≤ signed otherNegative upper.toRat) :
    signed negative ((Decimal.nearestHundredth lower).digits / 100) ≤
      signed otherNegative ((Decimal.nearestHundredth upper).digits / 100) := by
  cases negative with
  | false =>
      cases otherNegative with
      | false => exact nearestHundredth_mono hle
      | true =>
          -- Only a zero is at most a value with a minus sign.
          have hopposite : lower.toRat ≤ -upper.toRat := hle
          have hlower := lower.toRat_nonneg
          have hupper := upper.toRat_nonneg
          rw [digits_nearestHundredth_of_nonpos lower (by linarith),
            digits_nearestHundredth_of_nonpos upper (by linarith)]
          norm_num [signed]
  | true =>
      cases otherNegative with
      | false =>
          exact (neg_nonpos.2 (nearestHundredth_nonneg lower)).trans (nearestHundredth_nonneg upper)
      | true => exact neg_le_neg (nearestHundredth_mono (neg_le_neg_iff.1 hle))

theorem isNearestEven_hundredths_iff {exact : ℚ} {hundredths : ℤ} :
    IsNearestEven (fun count : ℤ => (count / 100 : ℚ)) Even exact hundredths ↔
      IsNearestEven (fun count : ℤ => (count : ℚ)) Even (exact * 100) hundredths := by
  rw [← isNearestEven_scale_iff (show (0 : ℚ) < 100 by norm_num)]
  simp only [div_mul_cancel₀ _ (show (100 : ℚ) ≠ 0 by norm_num)]

end Magnitude

section Finite

variable {negative : Bool} {magnitude : Magnitude}

theorem fixedText_finite :
    fixedText (.finite negative magnitude) =
      signText negative ++ Decimal.toText ⟨(Decimal.nearestHundredth magnitude).digits, 2⟩ := by
  rw [fixedText, digits_nearestHundredth, Decimal.nearestHundredth]

theorem signedValue_fixedText :
    (fixedText (.finite negative magnitude)).signedValue =
      signed negative ((Decimal.nearestHundredth magnitude).digits / 100) := by
  rw [fixedText_finite, Text.signedValue_signText (Text.isFixed_toText _),
    Text.decimalValue_toText_two]

/-- A text with a sign and two places is that of a value exactly if it has the sign of the value
and the nearest number of hundredths. -/
theorem fixedText_finite_eq_iff {text : Text} :
    fixedText (.finite negative magnitude) = text ↔
      ∃ (decimal : Text) (hundredths : ℕ), text = signText negative ++ decimal ∧
        decimal.IsFixed ∧ decimal.decimalValue = hundredths / 100 ∧
        IsNearestEven (fun count : ℤ => (count / 100 : ℚ)) Even magnitude.toRat hundredths := by
  have hnearest := isNearestEven_nearestHundredth magnitude
  simp only [isNearestEven_hundredths_iff]
  rw [fixedText_finite]
  constructor
  · rintro rfl
    exact ⟨_, _, rfl, Text.isFixed_toText _, Text.decimalValue_toText_two _, hnearest⟩
  · rintro ⟨decimal, hundredths, rfl, hfixed, hvalue, hother⟩
    rw [hfixed.eq_toText hvalue, Int.natCast_inj.1 (hother.unique_int hnearest)]

theorem exists_finite_of_toRat? {value : Binary64} {exact : ℚ}
    (hexact : value.toRat? = some exact) :
    ∃ negative magnitude, value = .finite negative magnitude ∧
      exact = signed negative magnitude.toRat := by
  cases value with
  | nan => cases hexact
  | infinity negative => cases hexact
  | finite negative magnitude => exact ⟨negative, magnitude, rfl, (Option.some.inj hexact).symm⟩

end Finite

/-- A finite value is shown as a minus sign where its sign bit is set and the one text with two
places of the hundredths nearest to its magnitude, a half going to the even number of them.  The
number shown is within a half of a hundredth, and no greater than that of a greater value. -/
theorem fixedText_eq_iff {value : Binary64} {exact : ℚ} (hexact : value.toRat? = some exact) :
    (∀ text : Text, value.fixedText = text ↔
        ∃ (decimal : Text) (hundredths : ℕ), text = signText value.signBit ++ decimal ∧
          decimal.IsFixed ∧ decimal.decimalValue = hundredths / 100 ∧
          IsNearestEven (fun count : ℤ => (count / 100 : ℚ)) Even |exact| hundredths) ∧
      |exact - value.fixedText.signedValue| ≤ 1 / 200 ∧
      ∀ (other : Binary64) (greater : ℚ), other.toRat? = some greater → exact ≤ greater →
        value.fixedText.signedValue ≤ other.fixedText.signedValue := by
  obtain ⟨negative, magnitude, rfl, rfl⟩ := exists_finite_of_toRat? hexact
  refine ⟨fun text => ?_, ?_, fun other greater hother hle => ?_⟩
  · rw [abs_signed negative magnitude.toRat_nonneg]
    exact fixedText_finite_eq_iff
  · rw [signedValue_fixedText, abs_signed_sub]
    exact abs_sub_nearestHundredth magnitude
  · obtain ⟨otherNegative, otherMagnitude, rfl, rfl⟩ := exists_finite_of_toRat? hother
    rw [signedValue_fixedText, signedValue_fixedText]
    exact signed_nearestHundredth_mono hle

/-- An eighth below zero lies halfway between two hundredths, and the digits of the value nearest
to 9.999 carry over. -/
theorem fixedText_eq_iff_eighth :
    (-Decimal.toBinary64 ⟨125, 3⟩).toRat? = some (-1 / 8) ∧
      (-Decimal.toBinary64 ⟨125, 3⟩).fixedText = ['-', '0', '.', '1', '2'] ∧
      (∃ (decimal : Text) (hundredths : ℕ), ['-', '0', '.', '1', '2'] = signText true ++ decimal ∧
        decimal.IsFixed ∧ decimal.decimalValue = hundredths / 100 ∧
        IsNearestEven (fun count : ℤ => (count / 100 : ℚ)) Even |-1 / 8| hundredths) ∧
      |-1 / 8 - Text.signedValue ['-', '0', '.', '1', '2']| ≤ 1 / 200 ∧
      Text.signedValue ['-', '0', '.', '1', '2'] ≤ Text.signedValue ['1', '0', '.', '0', '0'] := by
  have hexact : (-Decimal.toBinary64 ⟨125, 3⟩).toRat? = some (-1 / 8) := by decide +kernel
  have hother : (Decimal.toBinary64 ⟨9999, 3⟩).toRat? = some (5628936584259699 / 2 ^ 49) := by
    decide +kernel
  have hsign : (-Decimal.toBinary64 ⟨125, 3⟩).signBit = true := by decide +kernel
  have htext : (-Decimal.toBinary64 ⟨125, 3⟩).fixedText = ['-', '0', '.', '1', '2'] := by
    decide +kernel
  have hotherText : (Decimal.toBinary64 ⟨9999, 3⟩).fixedText = ['1', '0', '.', '0', '0'] := by
    decide +kernel
  obtain ⟨hshown, hnear, hmono⟩ := fixedText_eq_iff hexact
  have hle := hmono _ _ hother (by norm_num)
  rw [htext, hotherText] at hle
  rw [htext] at hnear
  rw [hsign] at hshown
  exact ⟨hexact, htext, (hshown _).1 htext, hnear, hle⟩

end Binary64

end Calculator

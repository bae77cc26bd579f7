import Calculator.Text.Basic
import Calculator.Binary64.Basic

/-!
# Decimal numbers and their text

A decimal is a natural number of digits and the number of them that stand
behind the point.  It is read from a run of digits with at most one point and
at least one digit, of any length, and written with no superfluous zero in
front.  What is written is read back unchanged.  Its binary64 value is the
nearest one.
-/

namespace Calculator

/-- The number `digits / 10 ^ scale`. -/
structure Decimal where
  digits : Nat
  scale : Nat
deriving DecidableEq

namespace Decimal

/-- The characters before the first point. -/
def wholePart (text : Text) : Text :=
  text.takeWhile (· != '.')

/-- The characters behind the first point. -/
def fractionPart (text : Text) : Text :=
  (text.dropWhile (· != '.')).drop 1

/-- Reads a text of digits with at most one point and at least one digit. -/
def ofText? (text : Text) : Option Decimal :=
  let written := wholePart text ++ fractionPart text
  if written ≠ [] ∧ written.all Char.isDigit then
    some ⟨Nat.ofDigitChars 10 written 0, (fractionPart text).length⟩
  else none

/-- The last `places` decimal digits of a number, zeros in front included. -/
def lastDigits : Nat → Nat → Text
  | 0, _ => []
  | places + 1, number => lastDigits places (number / 10) ++ [Nat.digitChar (number % 10)]

/-- The digits before the point, and behind it as many as the scale says. -/
def toText (decimal : Decimal) : Text :=
  let whole := Nat.toDigits 10 (decimal.digits / 10 ^ decimal.scale)
  if decimal.scale = 0 then whole
  else whole ++ '.' :: lastDigits decimal.scale decimal.digits

/-- The binary64 value nearest to the decimal. -/
def toBinary64 (decimal : Decimal) : Binary64 :=
  .ofQuotient false (decimal.digits * Binary64.unitsInOne) (10 ^ decimal.scale)

@[simp]
theorem length_lastDigits (places number : Nat) : (lastDigits places number).length = places := by
  induction places generalizing number with
  | zero => rfl
  | succ places ih => simp [lastDigits, ih]

theorem isDigit_of_mem_lastDigits {places number : Nat} {character : Char}
    (hmem : character ∈ lastDigits places number) : character.isDigit := by
  induction places generalizing number with
  | zero => simp [lastDigits] at hmem
  | succ places ih =>
      rcases List.mem_append.1 hmem with hfront | hlast
      · exact ih hfront
      · rw [List.mem_singleton.1 hlast, Nat.isDigit_digitChar]
        exact decide_eq_true (Nat.mod_lt _ (by decide))

theorem ofDigitChars_lastDigits (places number start : Nat) :
    Nat.ofDigitChars 10 (lastDigits places number) start =
      start * 10 ^ places + number % 10 ^ places := by
  induction places generalizing number with
  | zero => simp [lastDigits, Nat.mod_one]
  | succ places ih =>
      have hlast : number % 10 < 10 := Nat.mod_lt _ (by decide)
      rw [lastDigits, Nat.ofDigitChars_append, ih,
        Nat.ofDigitChars_cons_digitChar_of_lt_ten hlast, Nat.ofDigitChars_nil,
        Nat.pow_succ, Nat.mul_comm (10 ^ places) 10, Nat.mod_mul]
      rw [Nat.mul_add, ← Nat.mul_assoc start, Nat.mul_comm start 10, Nat.mul_assoc 10 start]
      omega

private theorem ne_point_of_not_mem {text : Text} (hpoint : '.' ∉ text) :
    ∀ character ∈ text, (character != '.') = true := by
  intro character hmem
  rw [bne_iff_ne]
  intro heq
  exact hpoint (heq ▸ hmem)

theorem point_not_mem_of_isDigit {text : Text}
    (hdigits : ∀ character ∈ text, character.isDigit = true) : '.' ∉ text := fun hmem =>
  absurd (hdigits '.' hmem) (by decide)

theorem parts_of_not_mem {text : Text} (hpoint : '.' ∉ text) :
    wholePart text = text ∧ fractionPart text = [] := by
  have hkeeps := ne_point_of_not_mem hpoint
  have hwhole : (text ++ []).takeWhile (· != '.') = text :=
    takeWhile_append_of_boundary hkeeps (by simp)
  have hbehind : (text ++ []).dropWhile (· != '.') = [] :=
    dropWhile_append_of_boundary hkeeps (by simp)
  rw [List.append_nil] at hwhole hbehind
  exact ⟨hwhole, congrArg (List.drop 1) hbehind⟩

theorem parts_of_point {whole : Text} (hpoint : '.' ∉ whole) (fraction : Text) :
    wholePart (whole ++ '.' :: fraction) = whole ∧
      fractionPart (whole ++ '.' :: fraction) = fraction := by
  have hkeeps := ne_point_of_not_mem hpoint
  have hboundary : ∀ character ∈ ('.' :: fraction).head?, (character != '.') = false := by
    simp
  constructor
  · exact takeWhile_append_of_boundary hkeeps hboundary
  · rw [fractionPart, dropWhile_append_of_boundary hkeeps hboundary]
    rfl

/-- A decimal is read back from its text. -/
theorem ofText?_toText (decimal : Decimal) : ofText? (toText decimal) = some decimal := by
  rcases decimal with ⟨digits, scale⟩
  have hwhole : ∀ c ∈ Nat.toDigits 10 (digits / 10 ^ scale), c.isDigit = true := fun c hmem =>
    Nat.isDigit_of_mem_toDigits (by decide) (by decide) hmem
  have hpoint := point_not_mem_of_isDigit hwhole
  have hall : (Nat.toDigits 10 (digits / 10 ^ scale)).all Char.isDigit = true :=
    List.all_eq_true.2 hwhole
  by_cases hscale : scale = 0
  · subst hscale
    have htext : toText ⟨digits, 0⟩ = Nat.toDigits 10 digits := by
      simp [toText]
    rw [Nat.pow_zero, Nat.div_one] at hpoint hall
    rw [htext, ofText?, (parts_of_not_mem hpoint).1, (parts_of_not_mem hpoint).2]
    simp [hall, Nat.ofDigitChars_toDigits, Nat.toDigits_ne_nil]
  · have htext : toText ⟨digits, scale⟩ =
        Nat.toDigits 10 (digits / 10 ^ scale) ++ '.' :: lastDigits scale digits := by
      simp [toText, hscale]
    have hfraction : (lastDigits scale digits).all Char.isDigit = true :=
      List.all_eq_true.2 fun c hmem => isDigit_of_mem_lastDigits hmem
    have hvalue : Nat.ofDigitChars 10
        (Nat.toDigits 10 (digits / 10 ^ scale) ++ lastDigits scale digits) 0 = digits := by
      rw [Nat.ofDigitChars_append, Nat.ofDigitChars_toDigits (by decide) (by decide),
        ofDigitChars_lastDigits, Nat.mul_comm]
      exact Nat.div_add_mod _ _
    rw [htext, ofText?, (parts_of_point hpoint _).1, (parts_of_point hpoint _).2]
    simp [hall, hfraction, hvalue, Nat.toDigits_ne_nil]

end Decimal

end Calculator

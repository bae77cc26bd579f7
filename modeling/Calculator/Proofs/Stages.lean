import Calculator.Evaluation
import Calculator.Proofs.Fallible
import Calculator.Proofs.Items

/-!
# The stages of a calculation

A text of the alphabet has no blank character, and it passes the first stage
unchanged, so its calculation is its conversion followed by the run of the
postfix form.  Any other text is refused before it is converted.
-/

namespace Calculator

theorem Text.not_isBlank_of_isAllowed {character : Char} (hallowed : isAllowed character = true) :
    isBlank character = false := by
  simp only [isAllowed, symbols, List.contains_eq_mem, List.mem_cons, List.not_mem_nil, or_false,
    Bool.or_eq_true, decide_eq_true_eq] at hallowed
  rcases hallowed with hdigit | rfl | rfl | rfl | rfl | rfl | rfl | rfl | rfl | rfl
  · -- Every range ends before the first digit or begins behind the last.
    obtain ⟨hfirst, hlast⟩ := Char.isDigit_iff_toNat.1 hdigit
    have hzero : '0'.toNat = 48 := rfl
    have hnine : '9'.toNat = 57 := rfl
    simp only [isBlank, blankRanges, List.any_cons, List.any_nil, Bool.or_false,
      Bool.or_eq_false_iff, Bool.and_eq_false_imp, decide_eq_true_eq, decide_eq_false_iff_not]
    omega
  all_goals decide

/-- An expression has no blank character to strip. -/
theorem Text.strip_of_isAllowed {text : Text}
    (hallowed : ∀ character ∈ text, isAllowed character = true) : text.strip = text := by
  rw [strip, List.filter_eq_self]
  intro character hmem
  simp [not_isBlank_of_isAllowed (hallowed character hmem)]

theorem convert_of_isAllowed {text : Text}
    (hallowed : ∀ character ∈ text, isAllowed character = true) :
    convert text = Rpn.ofText text := by
  rw [convert, Text.validate_eq_ok_iff.2 hallowed]
  rfl

theorem convert_eq_ok_iff {text : Text} {rpn : Rpn} :
    convert text = .ok rpn ↔
      (∀ character ∈ text, isAllowed character = true) ∧ Rpn.ofText text = .ok rpn := by
  constructor
  · intro hconvert
    obtain ⟨⟨⟩, hvalidate, hrpn⟩ := bind_eq_ok_iff.1 hconvert
    exact ⟨Text.validate_eq_ok_iff.1 hvalidate, hrpn⟩
  · rintro ⟨hallowed, hrpn⟩
    rw [convert_of_isAllowed hallowed, hrpn]

theorem calculate_of_convert {text : Text} {rpn : Rpn} (hconvert : convert text = .ok rpn) :
    calculate text = rpn.evaluate := by
  rw [calculate, hconvert]
  rfl

theorem calculate_eq_ok_iff {text : Text} {value : Binary64} :
    calculate text = .ok value ↔
      (∀ character ∈ text, isAllowed character = true) ∧
        ∃ rpn, Rpn.ofText text = .ok rpn ∧ rpn.evaluate = .ok value := by
  constructor
  · intro hvalue
    obtain ⟨rpn, hconvert, hevaluate⟩ := bind_eq_ok_iff.1 hvalue
    obtain ⟨hallowed, hrpn⟩ := convert_eq_ok_iff.1 hconvert
    exact ⟨hallowed, rpn, hrpn, hevaluate⟩
  · rintro ⟨hallowed, rpn, hrpn, hevaluate⟩
    exact bind_eq_ok_iff.2 ⟨rpn, convert_eq_ok_iff.2 ⟨hallowed, hrpn⟩, hevaluate⟩

end Calculator

import Calculator.Proofs.Parentheses

/-!
# The two texts of an answer

A value is shown as a decimal with two places, or by name where it is infinite or no number,
and never as the marker of an error.  The second text repeats the first or is empty, unless
the calculation fails: then it is the message of the fault, and no message is empty.  So the
first text alone tells a value from a fault.
-/

namespace Calculator

namespace Text

/-- A zero, or digits of which the first is not zero. -/
def IsWhole (text : Text) : Prop :=
  text = ['0'] ∨ ∃ first more, text = first :: more ∧ first ≠ '0' ∧
    ∀ character ∈ text, character.isDigit = true

/-- The text of a value: a name, or a decimal with two places and no superfluous zero in
front. -/
inductive ShowsValue : Text → Prop
  | nan : ShowsValue ['N', 'a', 'N']
  | infinity {sign : Text} (hsign : sign = [] ∨ sign = ['-']) :
      ShowsValue (sign ++ ['i', 'n', 'f'])
  | decimal {sign whole : Text} {tenths hundredths : Char} (hsign : sign = [] ∨ sign = ['-'])
      (hwhole : whole.IsWhole) (htenths : tenths.isDigit = true)
      (hhundredths : hundredths.isDigit = true) :
      ShowsValue (sign ++ (whole ++ ['.', tenths, hundredths]))

theorem digitChar_ne_zero {digit : Nat} (hpositive : 0 < digit) (hless : digit < 10) :
    Nat.digitChar digit ≠ '0' := by
  intro hzero
  have hcode := Nat.toNat_digitChar_of_lt_ten hless
  rw [hzero] at hcode
  have : '0'.toNat = 48 := rfl
  omega

/-- The digits of a positive number do not start with a zero. -/
theorem exists_toDigits_eq_cons {number : Nat} (hpositive : 0 < number) :
    ∃ first more, Nat.toDigits 10 number = first :: more ∧ first ≠ '0' := by
  induction number using Nat.strongRecOn with
  | ind number ih =>
      by_cases hless : number < 10
      · exact ⟨_, [], Nat.toDigits_of_lt_base hless, digitChar_ne_zero hpositive hless⟩
      · have hquotient : 0 < number / 10 := by omega
        obtain ⟨first, more, hdigits, hfirst⟩ := ih (number / 10) (by omega) hquotient
        rw [Nat.toDigits_of_base_le (by decide) (Nat.le_of_not_lt hless), hdigits]
        exact ⟨first, _, List.cons_append, hfirst⟩

theorem isWhole_toDigits (number : Nat) : IsWhole (Nat.toDigits 10 number) := by
  obtain rfl | hpositive := Nat.eq_zero_or_pos number
  · exact Or.inl rfl
  · obtain ⟨first, more, hdigits, hfirst⟩ := exists_toDigits_eq_cons hpositive
    refine Or.inr ⟨first, more, hdigits, hfirst, fun character hmem => ?_⟩
    exact Nat.isDigit_of_mem_toDigits (by decide) (by decide) hmem

theorem isDigit_digitChar_mod (number : Nat) : (Nat.digitChar (number % 10)).isDigit = true := by
  rw [Nat.isDigit_digitChar]
  exact decide_eq_true (Nat.mod_lt _ (by decide))

end Text

namespace Binary64

theorem signText_cases (negative : Bool) : signText negative = [] ∨ signText negative = ['-'] := by
  cases negative with
  | false => exact Or.inl rfl
  | true => exact Or.inr rfl

/-- Every value is shown in one of these ways, whatever its magnitude. -/
theorem showsValue_fixedText (value : Binary64) : value.fixedText.ShowsValue := by
  cases value with
  | nan => exact .nan
  | infinity negative => exact .infinity (signText_cases negative)
  | finite negative magnitude =>
      exact .decimal (signText_cases negative) (Text.isWhole_toDigits _)
        (Text.isDigit_digitChar_mod _) (Text.isDigit_digitChar_mod _)

end Binary64

theorem Text.IsWhole.exists_eq_cons {whole : Text} (hwhole : whole.IsWhole) :
    ∃ first more, whole = first :: more ∧ first.isDigit = true := by
  obtain rfl | ⟨first, more, rfl, -, hdigits⟩ := hwhole
  · exact ⟨'0', [], rfl, rfl⟩
  · exact ⟨first, more, rfl, hdigits first List.mem_cons_self⟩

/-- No value is shown as an error is. -/
theorem Text.ShowsValue.ne_errorMarker {text : Text} (hshows : text.ShowsValue) :
    text ≠ Evaluation.errorMarker := by
  have hmarker : Evaluation.errorMarker = ['E', 'r', 'r', 'o', 'r'] := by decide +kernel
  rw [hmarker]
  cases hshows with
  | nan => decide
  | infinity hsign =>
      rcases hsign with rfl | rfl
      · decide
      · decide
  | decimal hsign hwhole =>
      obtain ⟨first, more, rfl, hdigit⟩ := hwhole.exists_eq_cons
      intro heq
      rcases hsign with rfl | rfl
      · obtain ⟨rfl, -⟩ := List.cons.inj heq
        cases hdigit
      · cases heq

theorem Text.ofString_ne_nil {wording : String} (hwording : wording ≠ "") :
    Text.ofString wording ≠ [] := by
  rw [Text.ofString]
  simpa using hwording

/-- Every cause has its wording. -/
theorem Cause.message_ne_nil (cause : Cause) : cause.message ≠ [] := by
  cases cause with
  | unexpectedCharacter character =>
      exact List.append_ne_nil_of_right_ne_nil _ (List.cons_ne_nil _ _)
  | unbalancedParenthesis => exact Text.ofString_ne_nil (by decide)
  | missingOperands literal => exact List.append_ne_nil_of_right_ne_nil _ (List.cons_ne_nil _ _)
  | divisionByZero => exact Text.ofString_ne_nil (by decide)
  | negativeRoot value => exact List.append_ne_nil_of_right_ne_nil _ (List.cons_ne_nil _ _)
  | unknownOperator literal => exact List.append_ne_nil_of_right_ne_nil _ (List.cons_ne_nil _ _)
  | leftoverValues count =>
      exact List.append_ne_nil_of_right_ne_nil _ (Text.ofString_ne_nil (by decide))

/-- The intermediate result is the result again, or there is none. -/
theorem Evaluation.intermediate_ofText_cases {text : Text} {value : Binary64}
    (hvalue : calculate text.strip = .ok value) :
    (ofText text).intermediate = some value ∨ (ofText text).intermediate = none := by
  have hintermediate : (ofText text).intermediate =
      (calculate text.strip.relaxed).toOption := by
    simp only [ofText, hvalue]
  rw [hintermediate]
  by_cases hleft : '(' ∈ text.strip
  · obtain ⟨fault, hfault, -⟩ := calculate_relaxed_of_paren hvalue (Or.inl hleft)
    rw [hfault]
    exact Or.inr rfl
  · rw [Text.relaxed_of_not_mem hleft, hvalue]
    exact Or.inl rfl

theorem evaluate_of_error {text : Text} {fault : Fault}
    (hfails : calculate text.strip = .error fault) :
    evaluate text = (Evaluation.errorMarker, fault.cause.message) := by
  simp only [evaluate, Evaluation.resultText, Evaluation.intermediateText, Evaluation.ofText,
    hfails]

theorem evaluate_of_ok {text : Text} {value : Binary64}
    (hvalue : calculate text.strip = .ok value) :
    evaluate text = (value.fixedText, value.fixedText) ∨ evaluate text = (value.fixedText, []) := by
  have hanswer : evaluate text = (value.fixedText,
      ((Evaluation.ofText text).intermediate.map Binary64.fixedText).getD []) := by
    have hresult : (Evaluation.ofText text).result = .ok value := hvalue
    simp only [evaluate, Evaluation.resultText, Evaluation.intermediateText, hresult]
  rw [hanswer]
  obtain hsome | hnone := Evaluation.intermediate_ofText_cases hvalue
  · rw [hsome]
    exact Or.inl rfl
  · rw [hnone]
    exact Or.inr rfl

/-- An evaluation answers with the marker of an error and a message, exactly if the
calculation of the stripped text fails, or with the text of a value, and that again or nothing.
The first text is enough to tell which. -/
theorem evaluate_cases (text : Text) :
    ((∃ fault, calculate text.strip = .error fault ∧ fault.cause.message ≠ [] ∧
          evaluate text = (("Error" : Text), fault.cause.message)) ∨
        ∃ value, calculate text.strip = .ok value ∧ value.fixedText.ShowsValue ∧
          (evaluate text = (value.fixedText, value.fixedText) ∨
            evaluate text = (value.fixedText, []))) ∧
      ((evaluate text).1 = ("Error" : Text) ↔ ∃ fault, calculate text.strip = .error fault) := by
  cases hcalculate : calculate text.strip with
  | error fault =>
      have hanswer := evaluate_of_error hcalculate
      refine ⟨Or.inl ⟨fault, rfl, fault.cause.message_ne_nil, hanswer⟩, ?_⟩
      exact iff_of_true (congrArg Prod.fst hanswer) ⟨fault, rfl⟩
  | ok value =>
      have hshows := value.showsValue_fixedText
      have hanswer := evaluate_of_ok hcalculate
      refine ⟨Or.inr ⟨value, rfl, hshows, hanswer⟩, ?_⟩
      have hfirst : (evaluate text).1 = value.fixedText := by
        obtain hsame | hempty := hanswer
        · rw [hsame]
        · rw [hempty]
      rw [hfirst]
      refine iff_of_false hshows.ne_errorMarker ?_
      rintro ⟨fault, hfault⟩
      cases hfault

end Calculator

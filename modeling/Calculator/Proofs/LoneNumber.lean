import Calculator.Proofs.DecimalValue
import Calculator.Proofs.Nearest
import Calculator.Proofs.Refusal
import Calculator.Proofs.TreeValue

/-!
# A number on its own

A run of digits and points is one token, so a text that is such a run is read as a whole: it has
the binary64 value nearest to the number that it writes, or it is no number and is reported in
full.  The message about the root of a negative value quotes such a run, and what it quotes has
the value back.
-/

namespace Calculator

/-- A decimal has the binary64 value nearest to it. -/
theorem Decimal.isRounded_toBinary64 (decimal : Decimal) :
    Binary64.IsRounded (decimal.digits / 10 ^ decimal.scale) decimal.toBinary64 := by
  have hrounded := Binary64.isRounded_ofQuotient (decimal.digits * Binary64.unitsInOne)
    (Nat.pow_pos (show 0 < 10 by decide) : 0 < 10 ^ decimal.scale)
  have hexact : ((decimal.digits * Binary64.unitsInOne : ℕ) : ℚ) / (10 ^ decimal.scale : ℕ) /
      Binary64.unitsInOne = decimal.digits / 10 ^ decimal.scale := by
    have hunits := Binary64.unitsInOne_pos_rat.ne'
    push_cast
    field_simp
  rwa [hexact] at hrounded

section Run

variable {run : Text}

theorem calculate_run (hrun : run.IsRun) :
    calculate run = Rpn.evaluate ⟨run, [⟨.number, run, 0⟩]⟩ := by
  have hparses : Expr.Parses run (.number run 0) := .number hrun
  exact calculate_of_convert hparses.convert

theorem calculate_of_ofText? {decimal : Decimal} (hread : Decimal.ofText? run = some decimal) :
    calculate run = .ok decimal.toBinary64 := by
  have hliteral : run.IsLiteral :=
    Decimal.isSome_ofText?_iff.1 (Option.isSome_of_eq_some hread)
  rw [calculate_run hliteral.1, Rpn.evaluate, List.foldlM_cons,
    Rpn.step_number run [] hread]
  rfl

theorem calculate_of_not_isLiteral (hrun : run.IsRun) (hliteral : ¬run.IsLiteral) :
    calculate run = .error ⟨.missingOperands run, ⟨0, run.byteLength⟩, run⟩ := by
  have hnone : Decimal.ofText? run = none := by
    rw [Option.eq_none_iff_forall_ne_some]
    intro decimal hread
    exact hliteral (Decimal.isSome_ofText?_iff.1 (Option.isSome_of_eq_some hread))
  have hstep : Rpn.step run [] ⟨.number, run, 0⟩ =
      .error ⟨.missingOperands run, ⟨0, run.byteLength⟩, run⟩ := by
    simp [Rpn.step, Token.value?, hnone, Token.fault, Token.span]
  rw [calculate_run hrun]
  have hfront : ([] : List Token).foldlM (Rpn.step run) [] = .ok [] := rfl
  exact Rpn.evaluate_eq_error_of_step (List.nil_append _).symm hfront hstep

/-- A run of digits and points, however long, has the nearest binary64 value to the number that
it writes, if it has a digit and at most one point; no other run has a value, not even that of
its front. -/
theorem calculate_run_iff (hrun : run.IsRun) :
    (run.IsLiteral → (∃ value, calculate run = .ok value) ∧
        ∀ value, calculate run = .ok value ↔ Binary64.IsRounded run.decimalValue value) ∧
      (¬run.IsLiteral →
        calculate run = .error ⟨.missingOperands run, ⟨0, run.byteLength⟩, run⟩) := by
  refine ⟨fun hliteral => ?_, calculate_of_not_isLiteral hrun⟩
  obtain ⟨decimal, hread⟩ := Decimal.exists_ofText?_eq_some hliteral
  have hvalue := calculate_of_ofText? hread
  have hrounded := decimal.isRounded_toBinary64
  rw [← Text.decimalValue_of_ofText? hread] at hrounded
  refine ⟨⟨_, hvalue⟩, fun value => ?_⟩
  rw [hvalue, Except.ok.injEq]
  constructor
  · rintro rfl
    exact hrounded
  · exact hrounded.unique

end Run

/-- A number of seventeen digits halfway between two values, and a run with two points. -/
theorem calculate_run_iff_halfway :
    (∀ value, calculate "9007199254740993" = .ok value ↔
        Binary64.IsRounded (Text.decimalValue "9007199254740993") value) ∧
      Binary64.IsRounded (Text.decimalValue "9007199254740993")
        (Decimal.toBinary64 ⟨9007199254740992, 0⟩) ∧
      calculate ['1', '.', '2', '.', '3'] =
        .error ⟨.missingOperands ['1', '.', '2', '.', '3'], ⟨0, 5⟩, ['1', '.', '2', '.', '3']⟩ := by
  have hrounded :=
    ((@calculate_run_iff "9007199254740993" (by decide +kernel)).1 (by decide +kernel)).2
  refine ⟨hrounded, (hrounded _).1 (by decide +kernel), ?_⟩
  exact (@calculate_run_iff ['1', '.', '2', '.', '3'] (by decide)).2 (by decide)

/-- The shortest text of a negative value is a sign and a literal that has the value of the other
sign. -/
theorem exists_shortestText_eq {value : Binary64} (hnegative : value.isNegative = true)
    (hfinite : value.isFinite = true) :
    ∃ digits : Text, value.shortestText = '-' :: digits ∧ digits.IsLiteral ∧
      calculate digits = .ok (-value) := by
  cases value with
  | nan => cases hfinite
  | infinity negative => cases hfinite
  | finite negative magnitude =>
      obtain ⟨rfl, -⟩ := Bool.and_eq_true_iff.1 hnegative
      have hread := (Decimal.shortest magnitude).ofText?_toText
      have hvalue := calculate_of_ofText? hread
      rw [Decimal.toBinary64_shortest] at hvalue
      refine ⟨(Decimal.shortest magnitude).toText, ?_, ?_, hvalue⟩
      · simp [Binary64.shortestText, Binary64.signText]
      · exact Decimal.isSome_ofText?_iff.1 (Option.isSome_of_eq_some hread)

/-- A root is refused for a negative value only. -/
theorem Rpn.isNegative_of_evaluate {rpn : Rpn} {fault : Fault} {value : Binary64}
    (hfails : rpn.evaluate = .error fault) (hcause : fault.cause = .negativeRoot value) :
    value.isNegative = true := by
  obtain ⟨token, -, stack, cause, htoken, rfl⟩ | ⟨count, rfl⟩ := fails_of_evaluate hfails
  · cases htoken with
    | negativeRoot hkind hstack hnegative =>
        cases hcause
        exact hnegative
    | missingOperands => cases hcause
    | unknownOperator => cases hcause
    | divisionByZero => cases hcause
  · cases hcause

/-- The finite value that a fault quotes is written as a sign and a literal, which is calculated
to exactly the value without its sign. -/
theorem exists_message_eq_of_negativeRoot {fault : Fault} {value : Binary64}
    (hfails : (∃ text, calculate text = .error fault) ∨ ∃ rpn : Rpn, rpn.evaluate = .error fault)
    (hcause : fault.cause = .negativeRoot value) (hfinite : value.isFinite = true) :
    ∃ digits : Text, fault.cause.message =
        ("Square root of a negative number (" : Text) ++ '-' :: digits ++ [')'] ∧
      digits.IsLiteral ∧ calculate digits = .ok (-value) := by
  have hevaluate : ∃ rpn : Rpn, rpn.evaluate = .error fault := by
    obtain ⟨text, hcalculate⟩ | hevaluate := hfails
    · rcases calculate_eq_error_iff.1 hcalculate with hforeign | ⟨-, hconvert | ⟨rpn, -, hrpn⟩⟩
      · obtain ⟨front, character, rest, -, -, -, rfl⟩ := hforeign
        cases hcause
      · have hrefusal := (Rpn.refused_of_ofText hconvert).isRefusal
        rw [hcause] at hrefusal
        cases hrefusal
      · exact ⟨rpn, hrpn⟩
    · exact hevaluate
  obtain ⟨rpn, hrpn⟩ := hevaluate
  obtain ⟨digits, hdigits, hliteral, hvalue⟩ :=
    exists_shortestText_eq (Rpn.isNegative_of_evaluate hrpn hcause) hfinite
  refine ⟨digits, ?_, hliteral, hvalue⟩
  rw [hcause, Cause.message, hdigits]

/-- A third below zero, whose digits end where they single it out. -/
theorem exists_message_eq_of_negativeRoot_third :
    ∃ digits : Text,
      Cause.message (.negativeRoot (-Decimal.toBinary64 ⟨3333333333333333, 16⟩)) =
          ("Square root of a negative number (" : Text) ++ '-' :: digits ++ [')'] ∧
        digits.IsLiteral ∧
        calculate digits = .ok (- -Decimal.toBinary64 ⟨3333333333333333, 16⟩) :=
  @exists_message_eq_of_negativeRoot ⟨.negativeRoot (-Decimal.toBinary64 ⟨3333333333333333, 16⟩),
      ⟨7, 3⟩, "(0-1/3)√2"⟩ _
    (Or.inl ⟨"(0-1/3)√2", by decide +kernel⟩) rfl (by decide +kernel)

end Calculator

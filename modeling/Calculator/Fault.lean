import Calculator.Decimal.Shortest
import Calculator.Text.Span

/-!
# Faults

A run fails for one of seven causes.  A fault is a cause together with the
expression it arose in and the span of that expression it is about.  The
wording of a cause, its code, its help and the label of its span are texts of
the cause alone, so two faults of one cause read the same wherever they point.
-/

namespace Calculator

inductive Cause
  | unexpectedCharacter (character : Char)
  | unbalancedParenthesis
  | missingOperands (literal : Text)
  | divisionByZero
  | negativeRoot (value : Binary64)
  | unknownOperator (literal : Text)
  | leftoverValues (count : Nat)
deriving DecidableEq

structure Fault where
  cause : Cause
  span : Span
  source : Text
deriving DecidableEq

namespace Cause

def message : Cause → Text
  | .unexpectedCharacter character => ("Unexpected character '" : Text) ++ [character, '\'']
  | .unbalancedParenthesis => "Unbalanced parentheses"
  | .missingOperands literal => ("Not enough operands for '" : Text) ++ literal ++ ['\'']
  | .divisionByZero => "Division by zero"
  | .negativeRoot value =>
      ("Square root of a negative number (" : Text) ++ value.shortestText ++ [')']
  | .unknownOperator literal => ("Unknown operator '" : Text) ++ literal ++ ['\'']
  | .leftoverValues count =>
      ("Expression did not reduce to a single value (" : Text) ++ Nat.toDigits 10 count ++
        " left)"

def code : Cause → Text
  | .unexpectedCharacter _ => "calc::invalid_character"
  | .unbalancedParenthesis => "calc::unbalanced_parentheses"
  | .missingOperands _ => "calc::insufficient_operands"
  | .divisionByZero => "calc::division_by_zero"
  | .negativeRoot _ => "calc::negative_sqrt"
  | .unknownOperator _ => "calc::unknown_operator"
  | .leftoverValues _ => "calc::result_mismatch"

def help? : Cause → Option Text
  | .unexpectedCharacter _ => some "only digits, `.` and `+-*/().^√` are allowed"
  | .unbalancedParenthesis => some "every `(` needs a matching `)`"
  | .missingOperands _ =>
      some "every operator, `√` included, takes a value on each side"
  | .divisionByZero => none
  | .negativeRoot _ => some "the value on the left of `√` must not be negative"
  | .unknownOperator _ => none
  | .leftoverValues _ => some "check for missing operators between numbers"

/-- What the label under the span says. -/
def label : Cause → Text
  | .unexpectedCharacter _ => "this character"
  | .unbalancedParenthesis => "no partner for this one"
  | .missingOperands _ => "needs two operands"
  | .divisionByZero => "right-hand side is zero"
  | .negativeRoot _ => "applied here"
  | .unknownOperator _ => "not an operator or a number"
  | .leftoverValues _ => "this expression"

end Cause

/-- The name under which a fault shows its source. -/
def Fault.sourceName : Text := "<expression>"

end Calculator

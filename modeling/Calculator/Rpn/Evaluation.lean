import Calculator.Binary64.Power
import Calculator.Rpn.Basic

/-!
# Running a postfix sequence

A postfix sequence runs on a stack of values.  A number that reads as one is
pushed; any other token needs two values, the right operand on top of the left
one, so a malformed number fails for want of operands before it fails for what
it is.  A run succeeds if exactly one value is left.
-/

namespace Calculator

/-- The value of an operator.  A root is that of the left operand, and the right
one is not used. -/
def Operator.apply : Operator → Binary64 → Binary64 → Except Cause Binary64
  | .plus, left, right => .ok (left + right)
  | .minus, left, right => .ok (left - right)
  | .star, left, right => .ok (left * right)
  | .slash, left, right =>
      if right.isZero then .error .divisionByZero else .ok (left / right)
  | .caret, left, right => .ok (left.power right)
  | .root, left, _ =>
      if left.isNegative then .error (.negativeRoot left) else .ok left.sqrt

namespace Token

/-- The value of a number that reads as one. -/
def value? (token : Token) : Option Binary64 :=
  match token.kind with
  | .number => (Decimal.ofText? token.literal).map Decimal.toBinary64
  | _ => none

/-- The value of a token that takes two operands. -/
def combine (token : Token) (left right : Binary64) : Except Cause Binary64 :=
  match token.kind with
  | .operator applied => applied.apply left right
  | _ => .error (.unknownOperator token.literal)

end Token

namespace Rpn

/-- Runs one token on the stack, its top first. -/
def step (source : Text) (stack : List Binary64) (token : Token) :
    Except Fault (List Binary64) :=
  match token.value? with
  | some value => .ok (value :: stack)
  | none =>
      match stack with
      | right :: left :: below =>
          match token.combine left right with
          | .ok value => .ok (value :: below)
          | .error cause => .error (token.fault source cause)
      | _ => .error (token.fault source (.missingOperands token.literal))

/-- The one value left on the stack. -/
def result (source : Text) : List Binary64 → Except Fault Binary64
  | [value] => .ok value
  | stack => .error ⟨.leftoverValues stack.length, ⟨0, source.byteLength⟩, source⟩

/-- Runs the whole sequence. -/
def evaluate (rpn : Rpn) : Except Fault Binary64 := do
  let stack ← rpn.tokens.foldlM (step rpn.source) []
  result rpn.source stack

end Rpn

end Calculator

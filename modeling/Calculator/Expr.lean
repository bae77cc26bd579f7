import Calculator.Binary64.Power
import Calculator.Token.Lexer

/-!
# Syntax trees

An expression that keeps to the grammar is a tree of numbers and binary
operators, each with the byte position where it is written.  The trees of a
text are given by one relation on the levels of the grammar: the left operand
of an operator may have the operator's own level, the right one needs a higher,
and parentheses make any tree an operand.  A tree has a traversal in postorder
and a value of its own, both without any stack.
-/

namespace Calculator

/-- A run of digits and points. -/
def Text.IsRun (text : Text) : Prop :=
  text ≠ [] ∧ ∀ character ∈ text, Cursor.isNumeral character = true

/-- A run that reads as a number: some digit, and at most one point. -/
def Text.IsLiteral (text : Text) : Prop :=
  text.IsRun ∧ (∃ character ∈ text, character.isDigit = true) ∧ text.count '.' ≤ 1

-- The quantifiers range over the text and not over every character that there is.
instance (text : Text) : Decidable text.IsRun :=
  haveI : Decidable (∀ character ∈ text, Cursor.isNumeral character = true) :=
    List.decidableBAll _ text
  inferInstanceAs (Decidable (_ ∧ _))

instance (text : Text) : Decidable text.IsLiteral :=
  haveI : Decidable (∃ character ∈ text, character.isDigit = true) :=
    List.decidableBEx _ text
  inferInstanceAs (Decidable (_ ∧ _ ∧ _))

/-- The level of the grammar at which an operator stands: sums and differences are made of
products and quotients, and these of powers and roots. -/
def Operator.level : Operator → Nat
  | .plus | .minus => 1
  | .star | .slash => 2
  | .caret | .root => 3

inductive Expr
  | number (literal : Text) (offset : Nat)
  | binary (applied : Operator) (offset : Nat) (left right : Expr)
deriving DecidableEq

namespace Expr

/-- A text that starts at a byte position writes a tree whose operators outside
parentheses stand at the given level or above. -/
inductive Written : Nat → Nat → Text → Expr → Prop
  | number {level offset : Nat} {literal : Text} (hrun : literal.IsRun) :
      Written level offset literal (.number literal offset)
  | group {level offset : Nat} {text : Text} {tree : Expr}
      (hinside : Written 1 (offset + 1) text tree) :
      Written level offset ('(' :: text ++ [')']) tree
  | binary {level offset : Nat} {applied : Operator} {left right : Text}
      {leftTree rightTree : Expr} (hlevel : level ≤ applied.level)
      (hleft : Written applied.level offset left leftTree)
      (hright : Written (applied.level + 1)
        (offset + left.byteLength + applied.symbol.utf8Size) right rightTree) :
      Written level offset (left ++ applied.symbol :: right)
        (.binary applied (offset + left.byteLength) leftTree rightTree)

/-- The text is an expression of the grammar with this tree. -/
def Parses (text : Text) (tree : Expr) : Prop :=
  Written 1 0 text tree

/-- The literals of a tree from left to right. -/
def literals : Expr → List Text
  | .number literal _ => [literal]
  | .binary _ _ left right => left.literals ++ right.literals

/-- Left operand, right operand, operator. -/
def postorder : Expr → List Token
  | .number literal offset => [⟨.number, literal, offset⟩]
  | .binary applied offset left right =>
      left.postorder ++ right.postorder ++ [⟨.operator applied, [applied.symbol], offset⟩]

/-- The value of a tree: that of the left operand, of the right operand, and of
the operator applied to them, unless one of these fails.  A quotient fails at a
divisor of zero and a root at a negative left operand; the right operand of a
root is not used. -/
def evaluate (source : Text) : Expr → Except Fault Binary64
  | .number literal offset =>
      match Decimal.ofText? literal with
      | some decimal => .ok decimal.toBinary64
      | none => .error ⟨.unknownOperator literal, ⟨offset, literal.byteLength⟩, source⟩
  | .binary applied offset left right => do
      let leftValue ← left.evaluate source
      let rightValue ← right.evaluate source
      let span : Span := ⟨offset, applied.symbol.utf8Size⟩
      match applied with
      | .plus => return leftValue + rightValue
      | .minus => return leftValue - rightValue
      | .star => return leftValue * rightValue
      | .slash =>
          if rightValue.isZero then throw ⟨.divisionByZero, span, source⟩
          else return leftValue / rightValue
      | .caret => return leftValue.power rightValue
      | .root =>
          if leftValue.isNegative then throw ⟨.negativeRoot leftValue, span, source⟩
          else return leftValue.sqrt

end Expr

end Calculator

import Calculator.Text.Basic

/-!
# Operators

There are six binary operators, each written as one character.  They form
three levels of precedence, and every level groups to the left, powers and
roots included.
-/

namespace Calculator

inductive Operator
  | plus
  | minus
  | star
  | slash
  | caret
  | root
deriving DecidableEq

namespace Operator

def symbol : Operator → Char
  | .plus => '+'
  | .minus => '-'
  | .star => '*'
  | .slash => '/'
  | .caret => '^'
  | .root => '√'

def ofChar? : Char → Option Operator
  | '+' => some .plus
  | '-' => some .minus
  | '*' => some .star
  | '/' => some .slash
  | '^' => some .caret
  | '√' => some .root
  | _ => none

/-- A higher precedence binds more tightly. -/
def precedence : Operator → Nat
  | .plus | .minus => 1
  | .star | .slash => 2
  | .caret | .root => 3

def name : Operator → Text
  | .plus => "PLUS"
  | .minus => "MINUS"
  | .star => "STAR"
  | .slash => "SLASH"
  | .caret => "CARET"
  | .root => "ROOT"

@[simp]
theorem ofChar?_symbol (operator : Operator) : ofChar? operator.symbol = some operator := by
  cases operator <;> rfl

theorem ofChar?_eq_some_iff {character : Char} {operator : Operator} :
    ofChar? character = some operator ↔ character = operator.symbol := by
  constructor
  · intro hread
    unfold ofChar? at hread
    split at hread <;> cases hread <;> rfl
  · rintro rfl
    exact ofChar?_symbol operator

end Operator

end Calculator

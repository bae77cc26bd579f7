import Calculator.Operator
import Calculator.Text.Span

/-!
# Tokens

A token is a piece of an expression: its kind, the characters it is written
with, and the byte position where it starts.  A number stays as it is written;
whether it reads as a number is decided only when it is evaluated.
-/

namespace Calculator

namespace Token

inductive Kind
  | number
  | operator (applied : Operator)
  | leftParen
  | rightParen
deriving DecidableEq

/-- The kind of a token of one character that is part of no number. -/
def Kind.ofChar? (character : Char) : Option Kind :=
  if character = '(' then some .leftParen
  else if character = ')' then some .rightParen
  else (Operator.ofChar? character).map .operator

def Kind.name : Kind → Text
  | .number => "NUMBER"
  | .operator applied => applied.name
  | .leftParen => "LEFT_PAREN"
  | .rightParen => "RIGHT_PAREN"

end Token

structure Token where
  kind : Token.Kind
  literal : Text
  offset : Nat
deriving DecidableEq

namespace Token

def span (token : Token) : Span :=
  ⟨token.offset, token.literal.byteLength⟩

/-- The position behind the token. -/
def finish (token : Token) : Nat :=
  token.offset + token.literal.byteLength

def isParen (token : Token) : Bool :=
  match token.kind with
  | .leftParen | .rightParen => true
  | _ => false

/-- The name of the kind and the literal, as one line shows a token. -/
def display (token : Token) : Text :=
  token.kind.name ++ ' ' :: token.literal

end Token

end Calculator

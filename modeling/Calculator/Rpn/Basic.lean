import Calculator.Token.Lexer

/-!
# Postfix order

Converting an expression puts every operator behind its operands.  Tokens are
taken one at a time in a yard: numbers are emitted at once, operators wait
until one comes that does not bind more tightly, and an opening parenthesis
waits for its partner.  Since an operator also makes one of its own precedence
leave, every level groups to the left.  Whether operators have operands is not
looked at here.
-/

namespace Calculator

/-- A fault of this cause that points at a token of the source. -/
def Token.fault (token : Token) (source : Text) (cause : Cause) : Fault :=
  ⟨cause, token.span, source⟩

/-- A postfix sequence and the expression it was converted from. -/
structure Rpn where
  source : Text
  tokens : List Token
deriving DecidableEq

/-- The state of a conversion: the tokens emitted, newest first, and those
waiting, the next one to leave first. -/
structure Yard where
  emitted : List Token
  pending : List Token
deriving DecidableEq

namespace Yard

def empty : Yard :=
  ⟨[], []⟩

/-- A waiting token leaves before the incoming operator: it is an operator that
binds at least as tightly. -/
def leavesBefore (incoming : Operator) (waiting : Token) : Bool :=
  match waiting.kind with
  | .operator applied => incoming.precedence ≤ applied.precedence
  | _ => false

/-- Takes in one token.  A closing parenthesis makes leave what waits up to its
partner, and is refused when it has none. -/
def step (source : Text) (yard : Yard) (token : Token) : Except Fault Yard :=
  match token.kind with
  | .number => .ok ⟨token :: yard.emitted, yard.pending⟩
  | .operator incoming =>
      let leaving := yard.pending.takeWhile (leavesBefore incoming)
      let staying := yard.pending.dropWhile (leavesBefore incoming)
      .ok ⟨leaving.reverse ++ yard.emitted, token :: staying⟩
  | .leftParen => .ok ⟨yard.emitted, token :: yard.pending⟩
  | .rightParen =>
      let leaving := yard.pending.takeWhile (·.kind != .leftParen)
      match yard.pending.dropWhile (·.kind != .leftParen) with
      | [] => .error (token.fault source .unbalancedParenthesis)
      | _ :: staying => .ok ⟨leaving.reverse ++ yard.emitted, staying⟩

/-- Takes in the token that an item is, or fails at a stray character. -/
def stepItem (source : Text) (yard : Yard) (item : Item) : Except Fault Yard := do
  yard.step source (← item.toToken source)

/-- Empties the yard at the end of the expression.  A parenthesis that still
waits has no partner; the last one is pointed at. -/
def drain (source : Text) (yard : Yard) : Except Fault (List Token) :=
  match yard.pending.find? Token.isParen with
  | some token => .error (token.fault source .unbalancedParenthesis)
  | none => .ok (yard.emitted.reverse ++ yard.pending)

end Yard

namespace Rpn

/-- Converts an expression; the first fault from the left is returned. -/
def ofText (source : Text) : Except Fault Rpn := do
  let yard ← source.items.foldlM (Yard.stepItem source) Yard.empty
  let tokens ← yard.drain source
  return ⟨source, tokens⟩

/-- The literals with one space between neighbours. -/
def toText (rpn : Rpn) : Text :=
  Text.join [' '] (rpn.tokens.map Token.literal)

end Rpn

end Calculator

import Calculator.Alphabet
import Calculator.Rpn.Evaluation
import Calculator.Text.Blank

/-!
# Evaluating what was typed

An expression is evaluated without its blank characters.  When that succeeds,
it is evaluated a second time without its opening parentheses, and the value of
that run, if it has one, is shown as the intermediate result.
-/

namespace Calculator

/-- The postfix form of an expression without blank characters.  The alphabet is
looked at first, so a foreign character is reported before any parenthesis. -/
def convert (expression : Text) : Except Fault Rpn := do
  expression.validate
  Rpn.ofText expression

/-- The value of an expression without blank characters. -/
def calculate (expression : Text) : Except Fault Binary64 := do
  let rpn ← convert expression
  rpn.evaluate

/-- A text without its opening parentheses. -/
def Text.relaxed (text : Text) : Text :=
  text.filter (· != '(')

structure Evaluation where
  expression : Text
  result : Except Fault Binary64
  intermediate : Option Binary64

namespace Evaluation

/-- Both runs of a text as it was typed. -/
def ofText (text : Text) : Evaluation :=
  let expression := text.strip
  let result := calculate expression
  let intermediate :=
    match result with
    | .ok _ => (calculate expression.relaxed).toOption
    | .error _ => none
  ⟨expression, result, intermediate⟩

/-- What is shown in place of a result when there is none. -/
def errorMarker : Text := "Error"

def resultText (evaluation : Evaluation) : Text :=
  match evaluation.result with
  | .ok value => value.fixedText
  | .error _ => errorMarker

/-- The intermediate result, or the message of the fault. -/
def intermediateText (evaluation : Evaluation) : Text :=
  match evaluation.result with
  | .ok _ => (evaluation.intermediate.map Binary64.fixedText).getD []
  | .error fault => fault.cause.message

end Evaluation

/-- The result and the intermediate result of a text, as they are shown. -/
def evaluate (text : Text) : Text × Text :=
  let evaluation := Evaluation.ofText text
  (evaluation.resultText, evaluation.intermediateText)

end Calculator

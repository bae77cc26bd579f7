import Calculator.Evaluation

/-!
# Sessions

A session holds what is being typed and the last expression that was submitted
with its two results.  Events take it to the next session: edits change the
input, which has room for fifty characters, a submission evaluates it, and
quitting ends the session.
-/

namespace Calculator

inductive Edit
  | insert (character : Char)
  | backspace
  | clear
deriving DecidableEq

inductive Event
  | submit
  | quit
  | edit (change : Edit)
deriving DecidableEq

structure Session where
  input : Text
  expression : Text
  result : Text
  intermediate : Text
deriving DecidableEq

/-- The most characters that the input holds. -/
def inputLimit : Nat := 50

/-- What an edit makes of the input.  A full input takes no further character. -/
def Edit.apply (input : Text) : Edit → Text
  | .insert character => if input.length < inputLimit then input ++ [character] else input
  | .backspace => input.dropLast
  | .clear => []

namespace Session

/-- A new session, with nothing typed and nothing submitted. -/
def fresh : Session :=
  ⟨[], [], [], []⟩

/-- Evaluates the input and empties it. -/
def submit (session : Session) : Session :=
  let (result, intermediate) := evaluate session.input
  ⟨[], session.input, result, intermediate⟩

/-- The session after an event, unless that ends it. -/
def update? (session : Session) : Event → Option Session
  | .quit => none
  | .submit => some session.submit
  | .edit change => some ⟨change.apply session.input, session.expression, session.result,
      session.intermediate⟩

/-- The session after a list of events, unless one of them ends it. -/
def updateAll? (session : Session) (events : List Event) : Option Session :=
  events.foldlM update? session

def instructions : Text := "Press Enter to evaluate, Ctrl+C to quit."

/-- The session as it is shown, in four lines. -/
def view (session : Session) : Text :=
  ("Result: " : Text) ++ session.result ++ ("\nIntermediate: " : Text) ++ session.intermediate ++
    ("\n> " : Text) ++ session.input ++ '\n' :: instructions

end Session

end Calculator

import Calculator.Session
import Calculator.Status
import Calculator.Text.Line

/-!
# The prompt

The prompt shows a session, reads a line, and types and submits it.  It ends
with the input or at a line that says so, and it fails at a line that is no
text.  No line sees more of another one than the session that it leaves.
-/

namespace Calculator

namespace Prompt

/-- A line that ends the prompt, whatever blank characters surround the word. -/
def isFarewell (line : Text) : Bool :=
  line.trim = "quit" ∨ line.trim = "exit"

/-- The events that a line stands for. -/
def events (line : Text) : List Event :=
  if isFarewell line then [.quit]
  else line.map (fun character => .edit (.insert character)) ++ [.submit]

/-- What follows a line: a session to show, or the end. -/
inductive Reply
  | proceed (session : Session)
  | finish (status : Status)
deriving DecidableEq

def reply (session : Session) (line : List UInt8) : Reply :=
  match Text.decode? line with
  | none => .finish .failure
  | some text =>
      match session.updateAll? (events text) with
      | none => .finish .success
      | some next => .proceed next

/-- The views shown for the lines of an input, and how the prompt ends. -/
def run (session : Session) : List (List UInt8) → List Text × Status
  | [] => ([session.view], .success)
  | line :: lines =>
      match reply session line with
      | .finish status => ([session.view], status)
      | .proceed next =>
          let (views, status) := run next lines
          (session.view :: views, status)

end Prompt

end Calculator

import Calculator.Prompt

/-!
# The command line

The arguments name one of four commands, its expression and its options.  Any
number of requests for more log lines may stand between them; the log is no
part of the output.  Arguments that name no command are refused as a whole.
Running a command gives its output and its exit status.
-/

namespace Calculator

inductive Command
  | tokenize (expression : Text)
  | rpn (expression : Text)
  | eval (expression : Text) (diagnostic : Bool)
  | repl
deriving DecidableEq

/-- What a run writes, and how it ends. -/
structure Outcome where
  output : Text
  status : Status
deriving DecidableEq

namespace Command

/-- A request for more log lines: `--verbose`, or `-v` with any number of `v`. -/
def isVerbosity : Text → Bool
  | '-' :: 'v' :: rest => rest.all (· == 'v')
  | argument => argument = "--verbose"

/-- An argument that is no value unless `--` stands before it. -/
def isOption (argument : Text) : Bool :=
  argument.head? == some '-' && argument != ['-']

/-- The values and the number of diagnostic options among the arguments of a
command; nothing if there is an unknown option. -/
def operands? (takesDiagnostic : Bool) : List Text → Option (List Text × Nat)
  | [] => some ([], 0)
  | argument :: arguments =>
      if argument = ['-', '-'] then some (arguments, 0)
      else if isVerbosity argument then operands? takesDiagnostic arguments
      else if takesDiagnostic ∧ argument = "--diagnostic" then
        (operands? takesDiagnostic arguments).map fun (values, count) => (values, count + 1)
      else if isOption argument then none
      else (operands? takesDiagnostic arguments).map fun (values, count) =>
        (argument :: values, count)

/-- The one value among the arguments of a command without options of its own. -/
def value? (arguments : List Text) : Option Text :=
  match operands? false arguments with
  | some ([value], _) => some value
  | _ => none

/-- Reads the arguments of a named command.  The diagnostic option may be given
once. -/
def ofName? (name : Text) (arguments : List Text) : Option Command :=
  if name = "tokenize" then (value? arguments).map .tokenize
  else if name = "rpn" then (value? arguments).map .rpn
  else if name = "eval" then
    match operands? true arguments with
    | some ([expression], 0) => some (.eval expression false)
    | some ([expression], 1) => some (.eval expression true)
    | _ => none
  else if name = "repl" then
    match operands? false arguments with
    | some ([], _) => some .repl
    | _ => none
  else none

/-- Reads all arguments of the program. -/
def ofArguments? (arguments : List Text) : Option Command :=
  match arguments.dropWhile isVerbosity with
  | [] => none
  | name :: rest => ofName? name rest

/-- One line for each token up to the first stray character. -/
def tokenLines : List Item → Outcome
  | [] => ⟨"EOF\n", .success⟩
  | .stray _ _ :: _ => ⟨[], .badExpression⟩
  | .token found :: items =>
      let rest := tokenLines items
      ⟨found.display ++ '\n' :: rest.output, rest.status⟩

def resultLines (evaluation : Evaluation) : Text :=
  ("Result: " : Text) ++ evaluation.resultText ++ ("\nIntermediate: " : Text) ++
    evaluation.intermediateText ++ ['\n']

/-- Runs a command on the bytes of its standard input. -/
def run (input : List UInt8) : Command → Outcome
  | .tokenize expression => tokenLines expression.strip.items
  | .rpn expression =>
      match convert expression.strip with
      | .ok converted => ⟨converted.toText ++ ['\n'], .success⟩
      | .error _ => ⟨[], .failure⟩
  | .eval expression diagnostic =>
      let evaluation := Evaluation.ofText expression
      match diagnostic, evaluation.result with
      | true, .error _ => ⟨[], .badExpression⟩
      | _, _ => ⟨resultLines evaluation, .success⟩
  | .repl =>
      let (views, status) := Prompt.run Session.fresh (Text.lines input)
      ⟨views.flatMap (· ++ ['\n']), status⟩

end Command

/-- Runs the program. -/
def runArguments (arguments : List Text) (input : List UInt8) : Outcome :=
  match Command.ofArguments? arguments with
  | some command => command.run input
  | none => ⟨[], .usage⟩

end Calculator

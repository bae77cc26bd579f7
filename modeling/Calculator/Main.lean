import Calculator.CommandLine

/-!
# The program

Arguments and standard input go in, output and exit code come out.  At the
prompt every line is answered before the next one is read.
-/

namespace Calculator.Terminal

def write (text : Text) : IO Unit := do
  let stdout ← IO.getStdout
  stdout.putStr (String.ofList text)
  stdout.flush

/-- Reads the bytes up to a line feed, that included, or to the end of input. -/
partial def readBytes (stdin : IO.FS.Stream) (read : ByteArray) : IO ByteArray := do
  let next ← stdin.read 1
  let read := read ++ next
  if next.isEmpty || next[0]? = some Text.lineFeed then return read
  else readBytes stdin read

partial def converse (stdin : IO.FS.Stream) (session : Session) : IO Status := do
  write (session.view ++ ['\n'])
  let bytes ← readBytes stdin ByteArray.empty
  match Text.firstLine? bytes.toList with
  | none => return .success
  | some (line, _) =>
      match Prompt.reply session line with
      | .finish status => return status
      | .proceed next => converse stdin next

def run (arguments : List Text) : IO Status := do
  match Command.ofArguments? arguments with
  | some .repl => converse (← IO.getStdin) Session.fresh
  | _ =>
      let outcome := runArguments arguments []
      write outcome.output
      return outcome.status

end Calculator.Terminal

def main (arguments : List String) : IO UInt32 := do
  let status ← Calculator.Terminal.run (arguments.map String.toList)
  return status.code.toUInt32

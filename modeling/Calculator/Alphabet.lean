import Calculator.Fault

/-!
# The alphabet of expressions

An expression consists of digits, points, parentheses and the symbols of the
six operators.  A text with any other character is refused at the first one.
-/

namespace Calculator

/-- The characters other than digits that an expression may contain. -/
def symbols : Text := ['+', '-', '*', '/', '(', ')', '.', '^', '√']

def isAllowed (character : Char) : Bool :=
  character.isDigit || symbols.contains character

/-- Refuses a text at its first character outside the alphabet. -/
def Text.validate (text : Text) : Except Fault Unit :=
  match text.dropWhile isAllowed with
  | [] => .ok ()
  | character :: _ =>
      let offset := Text.byteLength (text.takeWhile isAllowed)
      .error ⟨.unexpectedCharacter character, ⟨offset, character.utf8Size⟩, text⟩

end Calculator

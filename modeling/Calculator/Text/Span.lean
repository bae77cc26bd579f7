import Calculator.Text.Basic

/-!
# Spans of a text

A span names a part of a text by the byte position where it starts and the
number of bytes it covers.  It selects a slice only if both of its ends fall
between two characters.
-/

namespace Calculator

structure Span where
  offset : Nat
  length : Nat
deriving DecidableEq

namespace Text

/-- Divides a text at a byte position, if that falls between two characters. -/
def divide? : Text → Nat → Option (Text × Text)
  | text, 0 => some ([], text)
  | [], _ + 1 => none
  | character :: rest, position + 1 =>
      if character.utf8Size ≤ position + 1 then
        (divide? rest (position + 1 - character.utf8Size)).map fun (front, back) =>
          (character :: front, back)
      else none

/-- The part of a text that a span covers. -/
def slice? (text : Text) (span : Span) : Option Text := do
  let (_, tail) ← divide? text span.offset
  let (slice, _) ← divide? tail span.length
  return slice

@[simp]
theorem divide?_append (front back : Text) :
    divide? (front ++ back) (byteLength front) = some (front, back) := by
  induction front with
  | nil => simp [divide?]
  | cons character front ih =>
      have hpositive := character.utf8Size_pos
      obtain ⟨position, hposition⟩ : ∃ position,
          character.utf8Size + byteLength front = position + 1 :=
        ⟨character.utf8Size + byteLength front - 1, by omega⟩
      have hrest : position + 1 - character.utf8Size = byteLength front := by omega
      have hfits : character.utf8Size ≤ position + 1 := by omega
      rw [byteLength_cons, hposition, List.cons_append, divide?, if_pos hfits, hrest, ih]
      rfl

/-- A part of a text is the slice that starts behind what precedes it. -/
theorem slice?_append (before slice after : Text) :
    slice? (before ++ (slice ++ after)) ⟨byteLength before, byteLength slice⟩ = some slice := by
  simp [slice?]

end Text

end Calculator

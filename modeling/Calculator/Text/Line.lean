import Calculator.Text.Basic

/-!
# Lines of a byte stream

A stream of bytes is cut into lines at every line feed.  A line that ends in a
line feed loses it, and one carriage return before it; the bytes after the last
line feed are a line only if there are any, and they stay as they are.  A line
is a text only if its bytes are valid UTF-8.
-/

namespace Calculator.Text

def lineFeed : UInt8 := 0x0A

def carriageReturn : UInt8 := 0x0D

/-- Drops one carriage return at the end. -/
def dropCarriageReturn (line : List UInt8) : List UInt8 :=
  if line.getLast? = some carriageReturn then line.dropLast else line

/-- The first line of a stream and the bytes behind it; nothing at the end of
the stream. -/
def firstLine? (bytes : List UInt8) : Option (List UInt8 × List UInt8) :=
  match bytes with
  | [] => none
  | _ :: _ =>
      match bytes.dropWhile (· != lineFeed) with
      | [] => some (bytes, [])
      | _ :: rest => some (dropCarriageReturn (bytes.takeWhile (· != lineFeed)), rest)

theorem firstLine?_shorter {bytes line rest : List UInt8}
    (hfirst : firstLine? bytes = some (line, rest)) : rest.length < bytes.length := by
  unfold firstLine? at hfirst
  split at hfirst
  · cases hfirst
  · next head tail =>
      have hdrop : ((head :: tail).dropWhile (· != lineFeed)).length ≤ (head :: tail).length :=
        (List.dropWhile_sublist _).length_le
      split at hfirst
      · cases hfirst
        simp
      · next hrest =>
          cases hfirst
          rw [hrest] at hdrop
          simp only [List.length_cons] at hdrop ⊢
          omega

/-- All lines of a stream, in order. -/
def lines (bytes : List UInt8) : List (List UInt8) :=
  match hfirst : firstLine? bytes with
  | none => []
  | some (line, rest) =>
      have := firstLine?_shorter hfirst
      line :: lines rest
termination_by bytes.length

/-- The text that the bytes encode in UTF-8, if they encode one. -/
def decode? (bytes : List UInt8) : Option Text :=
  (String.fromUTF8? (ByteArray.mk bytes.toArray)).map String.toList

/-- The bytes of the UTF-8 encoding of a text. -/
def encode (text : Text) : List UInt8 :=
  (String.ofList text).toUTF8.data.toList

end Calculator.Text

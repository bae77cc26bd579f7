import Calculator.Fault
import Calculator.Token.Basic

/-!
# Cutting a text into tokens

A cursor stands at a byte position of a text and holds what follows.  One step
takes the longest run of digits and points, or else one character, and moves
the cursor behind it.  A character that is no token is an item of its own, and
the steps go on after it.  Every step shortens the rest, so the items of a text
are a finite list.
-/

namespace Calculator

/-- What one step of a cursor finds. -/
inductive Item
  | token (found : Token)
  | stray (character : Char) (position : Nat)
deriving DecidableEq

namespace Item

/-- The characters that an item covers. -/
def slice : Item → Text
  | .token found => found.literal
  | .stray character _ => [character]

def offset : Item → Nat
  | .token found => found.offset
  | .stray _ position => position

def span (item : Item) : Span :=
  ⟨item.offset, item.slice.byteLength⟩

/-- The token of an item, or the fault that a stray character is. -/
def toToken (source : Text) : Item → Except Fault Token
  | .token found => .ok found
  | .stray character position =>
      .error ⟨.unexpectedCharacter character, ⟨position, character.utf8Size⟩, source⟩

end Item

structure Cursor where
  position : Nat
  rest : Text
deriving DecidableEq

namespace Cursor

def start (text : Text) : Cursor :=
  ⟨0, text⟩

/-- A character that a number may contain. -/
def isNumeral (character : Char) : Bool :=
  character.isDigit || character == '.'

/-- The next item and the cursor behind it; nothing at the end of the text. -/
def next? : Cursor → Option (Item × Cursor)
  | ⟨_, []⟩ => none
  | ⟨position, first :: rest⟩ =>
      if isNumeral first then
        let literal := first :: rest.takeWhile isNumeral
        some (.token ⟨.number, literal, position⟩,
          ⟨position + Text.byteLength literal, rest.dropWhile isNumeral⟩)
      else
        let behind := ⟨position + first.utf8Size, rest⟩
        match Token.Kind.ofChar? first with
        | some kind => some (.token ⟨kind, [first], position⟩, behind)
        | none => some (.stray first position, behind)

theorem next?_shorter {cursor behind : Cursor} {item : Item}
    (hnext : cursor.next? = some (item, behind)) :
    behind.rest.length < cursor.rest.length := by
  rcases cursor with ⟨position, _ | ⟨first, rest⟩⟩
  · cases hnext
  · have hdrop : (rest.dropWhile isNumeral).length ≤ rest.length :=
      (List.dropWhile_sublist _).length_le
    simp only [next?] at hnext
    split at hnext
    · cases hnext
      exact Nat.lt_succ_of_le hdrop
    · split at hnext <;> cases hnext <;> exact Nat.lt_succ_self _

/-- A step takes its item off the rest and moves the cursor behind it. -/
theorem next?_eq_some {cursor behind : Cursor} {item : Item}
    (hnext : cursor.next? = some (item, behind)) :
    cursor.rest = item.slice ++ behind.rest ∧ item.offset = cursor.position ∧
      behind.position = cursor.position + item.slice.byteLength := by
  rcases cursor with ⟨position, _ | ⟨first, rest⟩⟩
  · cases hnext
  · simp only [next?] at hnext
    split at hnext
    · cases hnext
      simp [Item.slice, Item.offset]
    · split at hnext <;> cases hnext <;> simp [Item.slice, Item.offset]

/-- All steps from a cursor to the end: each item with the cursor behind it. -/
def steps (cursor : Cursor) : List (Item × Cursor) :=
  match hnext : cursor.next? with
  | none => []
  | some (item, behind) =>
      have := next?_shorter hnext
      (item, behind) :: steps behind
termination_by cursor.rest.length

theorem steps_of_next? {cursor behind : Cursor} {item : Item}
    (hnext : cursor.next? = some (item, behind)) :
    cursor.steps = (item, behind) :: behind.steps := by
  rw [steps]
  split
  · next hnone => rw [hnext] at hnone; cases hnone
  · next hsome =>
      rw [hnext] at hsome
      cases hsome
      rfl

@[simp]
theorem steps_nil (position : Nat) : steps ⟨position, []⟩ = [] := by
  rw [steps]
  rfl

end Cursor

/-- The items of a text, in order. -/
def Text.items (text : Text) : List Item :=
  (Cursor.start text).steps.map Prod.fst

end Calculator

/-!
# Text and its length in bytes

Expressions are lists of characters.  Every position and length that the
calculator reports counts the bytes of the UTF-8 encoding, so the length of a
text is the sum of the widths of its characters, and it is additive.  Texts are
often cut at their first character of some kind; what stands before it is then
taken as a whole.
-/

namespace Calculator

abbrev Text := List Char

namespace Text

-- A sum starts from the same zero under every import.
attribute [local instance (high)] Zero.ofOfNat0

/-- The characters of a string.  Fixed wording stays folded in definitions and
is opened only where its characters matter. -/
@[irreducible]
def ofString (wording : String) : Text :=
  wording.toList

instance : Coe String Text := ⟨ofString⟩

/-- Number of bytes of the UTF-8 encoding. -/
def byteLength (text : Text) : Nat :=
  (text.map Char.utf8Size).sum

@[simp]
theorem byteLength_nil : byteLength [] = 0 := rfl

@[simp]
theorem byteLength_cons (character : Char) (text : Text) :
    byteLength (character :: text) = character.utf8Size + byteLength text := by
  simp [byteLength]

@[simp]
theorem byteLength_append (left right : Text) :
    byteLength (left ++ right) = byteLength left + byteLength right := by
  simp [byteLength]

theorem byteLength_eq_zero_iff {text : Text} : byteLength text = 0 ↔ text = [] := by
  cases text with
  | nil => simp
  | cons character rest =>
      have := character.utf8Size_pos
      simp
      omega

/-- Joins the parts with `separator` between neighbours. -/
def join (separator : Text) : List Text → Text
  | [] => []
  | [last] => last
  | first :: rest => first ++ separator ++ join separator rest

end Text

section Boundary

variable {α : Type} {keeps : α → Bool} {inside behind : List α}

private theorem takeWhile_of_boundary (hboundary : ∀ value ∈ behind.head?, keeps value = false) :
    behind.takeWhile keeps = [] := by
  cases behind with
  | nil => rfl
  | cons value behind => simp [hboundary value rfl]

/-- A prefix is taken as a whole up to the first value that is not kept. -/
theorem takeWhile_append_of_boundary (hinside : ∀ value ∈ inside, keeps value = true)
    (hboundary : ∀ value ∈ behind.head?, keeps value = false) :
    (inside ++ behind).takeWhile keeps = inside := by
  rw [List.takeWhile_append_of_pos hinside, takeWhile_of_boundary hboundary, List.append_nil]

theorem dropWhile_append_of_boundary (hinside : ∀ value ∈ inside, keeps value = true)
    (hboundary : ∀ value ∈ behind.head?, keeps value = false) :
    (inside ++ behind).dropWhile keeps = behind := by
  have hsplit := List.takeWhile_append_dropWhile (p := keeps) (l := behind)
  rw [takeWhile_of_boundary hboundary, List.nil_append] at hsplit
  rw [List.dropWhile_append_of_pos hinside, hsplit]

end Boundary

end Calculator

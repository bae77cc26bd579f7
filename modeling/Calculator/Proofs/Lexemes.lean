import Calculator.Proofs.Tiling

/-!
# Cutting a text undoes writing it

Lexemes are written one behind the other, without anything between them, and a cursor cuts
the text where they meet.  It stops between two of them unless both are numbers, which it
takes for one, and it finds each at the position behind all that was written before it.
-/

namespace Calculator

/-- A kind and the characters it is written with, apart from any place. -/
structure Lexeme where
  kind : Token.Kind
  literal : Text
deriving DecidableEq

namespace Lexeme

/-- The token that the lexeme is where it starts at this position. -/
def token (lexeme : Lexeme) (position : Nat) : Token :=
  ⟨lexeme.kind, lexeme.literal, position⟩

/-- The literal is one that a token of this kind can have. -/
def IsSpelled (lexeme : Lexeme) : Prop :=
  (lexeme.token 0).IsSpelled

/-- One of the two is no number. -/
def Apart (first second : Lexeme) : Prop :=
  ¬(first.kind = .number ∧ second.kind = .number)

/-- The literals, one behind the other. -/
def written (lexemes : List Lexeme) : Text :=
  lexemes.flatMap literal

/-- The tokens of lexemes that are written from this position on.  Each starts behind the
bytes of all literals before it. -/
def placed (start : Nat) (lexemes : List Lexeme) : List Token :=
  lexemes.mapIdx fun index lexeme =>
    lexeme.token (start + (written (lexemes.take index)).byteLength)

@[simp]
theorem written_nil : written [] = [] := rfl

@[simp]
theorem written_cons (lexeme : Lexeme) (lexemes : List Lexeme) :
    written (lexeme :: lexemes) = lexeme.literal ++ written lexemes :=
  List.flatMap_cons

@[simp]
theorem placed_nil (start : Nat) : placed start [] = [] := rfl

theorem placed_cons (start : Nat) (lexeme : Lexeme) (lexemes : List Lexeme) :
    placed start (lexeme :: lexemes) =
      lexeme.token start :: placed (start + lexeme.literal.byteLength) lexemes := by
  simp [placed, List.mapIdx_cons, Nat.add_assoc]

/-- Where no number starts a sequence of lexemes, no run goes on into it. -/
theorem breaksRun_written {lexemes : List Lexeme}
    (hspelled : ∀ lexeme ∈ lexemes, lexeme.IsSpelled)
    (hhead : ∀ lexeme ∈ lexemes.head?, lexeme.kind ≠ .number) : (written lexemes).BreaksRun := by
  cases lexemes with
  | nil => exact Text.breaksRun_nil
  | cons lexeme lexemes =>
      have hfirst : (lexeme.token 0).IsSpelled := hspelled lexeme List.mem_cons_self
      obtain ⟨character, hliteral, hkind⟩ := hfirst.exists_symbol (hhead lexeme rfl)
      have hwritten : lexeme.literal = [character] := hliteral
      rw [written_cons, hwritten, List.singleton_append, Text.breaksRun_cons]
      exact Cursor.isNumeral_of_ofChar?_eq_some hkind

theorem not_breaksRun_written {lexeme : Lexeme} {lexemes : List Lexeme}
    (hspelled : ∀ lexeme ∈ lexemes, lexeme.IsSpelled) (hhead : lexeme ∈ lexemes.head?)
    (hnumber : lexeme.kind = .number) : ¬(written lexemes).BreaksRun := by
  obtain ⟨rest, rfl⟩ := List.head?_eq_some_iff.1 hhead
  have hfirst : (lexeme.token 0).IsSpelled := hspelled lexeme List.mem_cons_self
  rw [written_cons]
  exact Text.not_breaksRun_run (hfirst.isRun hnumber)

theorem items_written {lexemes : List Lexeme}
    (hspelled : ∀ lexeme ∈ lexemes, lexeme.IsSpelled) (hapart : lexemes.IsChain Apart)
    (start : Nat) :
    Cursor.items ⟨start, written lexemes⟩ = (placed start lexemes).map Item.token := by
  induction lexemes generalizing start with
  | nil => simp
  | cons lexeme lexemes ih =>
      obtain ⟨hfirst, hspelled⟩ := List.forall_mem_cons.1 hspelled
      obtain ⟨hhead, hapart⟩ := List.isChain_cons.1 hapart
      have hplaced : (lexeme.token start).IsSpelled := hfirst
      have hbreaks : lexeme.kind = .number → (written lexemes).BreaksRun := fun hnumber =>
        breaksRun_written hspelled fun next hmem hnext => hhead next hmem ⟨hnumber, hnext⟩
      rw [written_cons, placed_cons, List.map_cons, ← ih hspelled hapart]
      exact hplaced.items_append hbreaks

/-- A cursor that finds lexemes where they are written finds each spelled as a token of its
kind, and stops between two of them. -/
theorem isSpelled_of_items {lexemes : List Lexeme} {start : Nat}
    (hitems : Cursor.items ⟨start, written lexemes⟩ = (placed start lexemes).map Item.token) :
    (∀ lexeme ∈ lexemes, lexeme.IsSpelled) ∧ lexemes.IsChain Apart := by
  induction lexemes generalizing start with
  | nil => exact ⟨by simp, List.isChain_nil⟩
  | cons lexeme lexemes ih =>
      rw [placed_cons, List.map_cons] at hitems
      obtain ⟨behind, hnext, hbehind⟩ := Cursor.next?_of_items_eq_cons hitems
      obtain ⟨hrest, -, hposition⟩ := Cursor.next?_eq_some hnext
      obtain ⟨hitem, hbreaks⟩ := Cursor.isSpelled_of_next? hnext
      have hrest : behind.rest = written lexemes := (List.append_cancel_left hrest).symm
      have hcursor : behind = ⟨start + lexeme.literal.byteLength, written lexemes⟩ := by
        rw [← hrest, show start + lexeme.literal.byteLength = behind.position from hposition.symm]
      rw [hcursor] at hbehind
      obtain ⟨hspelled, hapart⟩ := ih hbehind
      refine ⟨List.forall_mem_cons.2 ⟨hitem.1, hspelled⟩, List.isChain_cons.2 ⟨?_, hapart⟩⟩
      rintro next hhead ⟨hnumber, hnextNumber⟩
      rw [hrest] at hbreaks
      exact not_breaksRun_written hspelled hhead hnextNumber
        (hbreaks (beq_iff_eq.2 hnumber))

end Lexeme

/-- The items of a text that lexemes write are the tokens of these lexemes, none more and
none less, each behind the bytes of all literals before it, exactly if every lexeme is
spelled as a token of its kind and no two numbers are neighbours. -/
theorem items_written_iff (lexemes : List Lexeme) :
    (Lexeme.written lexemes).items = (Lexeme.placed 0 lexemes).map Item.token ↔
      (∀ lexeme ∈ lexemes, lexeme.IsSpelled) ∧ lexemes.IsChain Lexeme.Apart :=
  ⟨Lexeme.isSpelled_of_items, fun ⟨hspelled, hapart⟩ => Lexeme.items_written hspelled hapart 0⟩

end Calculator

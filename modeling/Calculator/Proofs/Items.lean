import Mathlib.Data.List.TakeWhile
import Calculator.Alphabet
import Calculator.Expr

/-!
# Reading a text item by item

A cursor that stands before a run of digits and points takes the whole of it,
provided that the text behind does not go on with a digit or a point; before any
other character it takes that one.  These equations replace the recursion of the
cursor in every later proof, and every text is built up along them.
-/

namespace Calculator

/-- No run of digits and points goes on into the text. -/
def Text.BreaksRun (text : Text) : Prop :=
  ∀ character ∈ text.head?, Cursor.isNumeral character = false

@[simp]
theorem Text.breaksRun_nil : Text.BreaksRun [] := by
  simp [Text.BreaksRun]

@[simp]
theorem Text.breaksRun_cons {character : Char} {rest : Text} :
    Text.BreaksRun (character :: rest) ↔ Cursor.isNumeral character = false := by
  simp [Text.BreaksRun]

theorem Text.IsRun.exists_eq_cons {run : Text} (hrun : run.IsRun) :
    ∃ first more, run = first :: more ∧ Cursor.isNumeral first = true ∧
      ∀ character ∈ more, Cursor.isNumeral character = true := by
  obtain ⟨hne, hall⟩ := hrun
  obtain ⟨first, more, rfl⟩ := List.exists_cons_of_ne_nil hne
  exact ⟨first, more, rfl, hall first (by simp), fun character hmem =>
    hall character (by simp [hmem])⟩

/-- A character of a run with all of the run that follows it. -/
theorem Text.isRun_cons_takeWhile {first : Char} (hfirst : Cursor.isNumeral first = true)
    (rest : Text) : Text.IsRun (first :: rest.takeWhile Cursor.isNumeral) := by
  refine ⟨List.cons_ne_nil _ _, ?_⟩
  intro character hmem
  rcases List.mem_cons.1 hmem with rfl | hmem
  · exact hfirst
  · exact List.mem_takeWhile_imp hmem

theorem Text.breaksRun_dropWhile (rest : Text) :
    Text.BreaksRun (rest.dropWhile Cursor.isNumeral) := by
  intro character hhead
  have hnot := List.head?_dropWhile_not Cursor.isNumeral rest
  rw [hhead] at hnot
  simpa using hnot

namespace Token.Kind

@[simp]
theorem ofChar?_leftParen : ofChar? '(' = some .leftParen := rfl

@[simp]
theorem ofChar?_rightParen : ofChar? ')' = some .rightParen := rfl

@[simp]
theorem ofChar?_symbol (applied : Operator) :
    ofChar? applied.symbol = some (.operator applied) := by
  cases applied <;> rfl

/-- A token of one character is a parenthesis or an operator. -/
theorem eq_of_ofChar?_eq_some {character : Char} {kind : Kind}
    (hkind : ofChar? character = some kind) :
    character = '(' ∧ kind = .leftParen ∨ character = ')' ∧ kind = .rightParen ∨
      ∃ applied : Operator, character = applied.symbol ∧ kind = .operator applied := by
  unfold ofChar? at hkind
  split at hkind
  · next hleft =>
      cases hkind
      exact Or.inl ⟨hleft, rfl⟩
  · split at hkind
    · next hright =>
        cases hkind
        exact Or.inr (Or.inl ⟨hright, rfl⟩)
    · obtain ⟨applied, happlied, rfl⟩ := Option.map_eq_some_iff.1 hkind
      exact Or.inr (Or.inr ⟨applied, Operator.ofChar?_eq_some_iff.1 happlied, rfl⟩)

end Token.Kind

@[simp]
theorem Operator.isNumeral_symbol (applied : Operator) :
    Cursor.isNumeral applied.symbol = false := by
  cases applied <;> decide

namespace Cursor

theorem isNumeral_of_ofChar?_eq_some {character : Char} {kind : Token.Kind}
    (hkind : Token.Kind.ofChar? character = some kind) : isNumeral character = false := by
  rcases Token.Kind.eq_of_ofChar?_eq_some hkind with
    ⟨rfl, -⟩ | ⟨rfl, -⟩ | ⟨applied, rfl, -⟩
  · decide
  · decide
  · exact applied.isNumeral_symbol

/-- The items from a cursor to the end of the text. -/
def items (cursor : Cursor) : List Item :=
  cursor.steps.map Prod.fst

@[simp]
theorem items_nil (position : Nat) : items ⟨position, []⟩ = [] := by
  simp [items]

theorem items_of_next? {cursor behind : Cursor} {item : Item}
    (hnext : cursor.next? = some (item, behind)) :
    cursor.items = item :: behind.items := by
  simp [items, steps_of_next? hnext]

theorem next?_of_items_eq_cons {cursor : Cursor} {item : Item} {more : List Item}
    (hitems : cursor.items = item :: more) :
    ∃ behind, cursor.next? = some (item, behind) ∧ behind.items = more := by
  cases hnext : cursor.next? with
  | none =>
      rw [items, steps] at hitems
      split at hitems
      · cases hitems
      · next hsome =>
          rw [hnext] at hsome
          cases hsome
  | some found =>
      rcases found with ⟨first, behind⟩
      rw [items_of_next? hnext] at hitems
      obtain ⟨rfl, hmore⟩ := List.cons.inj hitems
      exact ⟨behind, rfl, hmore⟩

theorem items_run (position : Nat) {run rest : Text} (hrun : run.IsRun)
    (hrest : rest.BreaksRun) :
    items ⟨position, run ++ rest⟩ =
      .token ⟨.number, run, position⟩ :: items ⟨position + run.byteLength, rest⟩ := by
  obtain ⟨first, more, rfl, hfirst, hmore⟩ := hrun.exists_eq_cons
  apply items_of_next?
  simp [next?, hfirst, takeWhile_append_of_boundary hmore hrest,
    dropWhile_append_of_boundary hmore hrest]

theorem items_symbol (position : Nat) {character : Char} {kind : Token.Kind}
    (hkind : Token.Kind.ofChar? character = some kind) (rest : Text) :
    items ⟨position, character :: rest⟩ =
      .token ⟨kind, [character], position⟩ :: items ⟨position + character.utf8Size, rest⟩ := by
  apply items_of_next?
  simp [next?, isNumeral_of_ofChar?_eq_some hkind, hkind]

theorem items_stray (position : Nat) {character : Char} (hnumeral : isNumeral character = false)
    (hkind : Token.Kind.ofChar? character = none) (rest : Text) :
    items ⟨position, character :: rest⟩ =
      .stray character position :: items ⟨position + character.utf8Size, rest⟩ := by
  apply items_of_next?
  simp [next?, hnumeral, hkind]

end Cursor

/-- The token of an item, unless it is a stray character. -/
def Item.token? : Item → Option Token
  | .token found => some found
  | .stray _ _ => none

@[simp]
theorem Item.filterMap_token?_map (tokens : List Token) :
    (tokens.map Item.token).filterMap Item.token? = tokens := by
  rw [List.filterMap_map]
  exact List.filterMap_some

namespace Cursor

/-- The tokens from a cursor to the end of the text. -/
def tokens (cursor : Cursor) : List Token :=
  cursor.items.filterMap Item.token?

theorem mem_tokens_iff {cursor : Cursor} {token : Token} :
    token ∈ cursor.tokens ↔ Item.token token ∈ cursor.items := by
  rw [tokens, List.mem_filterMap]
  constructor
  · rintro ⟨item, hmem, htoken⟩
    cases item with
    | token found =>
        cases htoken
        exact hmem
    | stray character position => cases htoken
  · exact fun hmem => ⟨_, hmem, rfl⟩

@[simp]
theorem tokens_nil (position : Nat) : tokens ⟨position, []⟩ = [] := by
  simp [tokens]

theorem tokens_run (position : Nat) {run rest : Text} (hrun : run.IsRun)
    (hrest : rest.BreaksRun) :
    tokens ⟨position, run ++ rest⟩ =
      ⟨.number, run, position⟩ :: tokens ⟨position + run.byteLength, rest⟩ := by
  rw [tokens, items_run position hrun hrest]
  rfl

theorem tokens_symbol (position : Nat) {character : Char} {kind : Token.Kind}
    (hkind : Token.Kind.ofChar? character = some kind) (rest : Text) :
    tokens ⟨position, character :: rest⟩ =
      ⟨kind, [character], position⟩ :: tokens ⟨position + character.utf8Size, rest⟩ := by
  rw [tokens, items_symbol position hkind]
  rfl

end Cursor

/-- The alphabet holds exactly the characters that some token is written with. -/
theorem isAllowed_iff {character : Char} :
    isAllowed character = true ↔
      Cursor.isNumeral character = true ∨ (Token.Kind.ofChar? character).isSome = true := by
  constructor
  · intro hallowed
    simp only [isAllowed, symbols, List.contains_eq_mem, List.mem_cons, List.not_mem_nil,
      or_false, Bool.or_eq_true, decide_eq_true_eq] at hallowed
    rcases hallowed with hdigit | rfl | rfl | rfl | rfl | rfl | rfl | rfl | rfl | rfl
    · exact Or.inl (by simp [Cursor.isNumeral, hdigit])
    all_goals decide
  · rintro (hnumeral | hkind)
    · rcases Bool.or_eq_true_iff.1 hnumeral with hdigit | hpoint
      · simp [isAllowed, hdigit]
      · rw [beq_iff_eq.1 hpoint]
        decide
    · obtain ⟨kind, hkind⟩ := Option.isSome_iff_exists.1 hkind
      rcases Token.Kind.eq_of_ofChar?_eq_some hkind with
        ⟨rfl, -⟩ | ⟨rfl, -⟩ | ⟨applied, rfl, -⟩
      · decide
      · decide
      · cases applied <;> decide

theorem isAllowed_eq_false {character : Char} (hnumeral : Cursor.isNumeral character = false)
    (hkind : Token.Kind.ofChar? character = none) : isAllowed character = false := by
  rw [Bool.eq_false_iff, ne_eq, isAllowed_iff, hnumeral, hkind]
  simp

theorem stray_of_isAllowed_eq_false {character : Char} (hforeign : isAllowed character = false) :
    Cursor.isNumeral character = false ∧ Token.Kind.ofChar? character = none := by
  rw [Bool.eq_false_iff, ne_eq, isAllowed_iff, not_or] at hforeign
  simpa using hforeign

theorem Text.validate_eq_ok_iff {text : Text} :
    text.validate = .ok () ↔ ∀ character ∈ text, isAllowed character = true := by
  rw [← List.dropWhile_eq_nil_iff]
  unfold Text.validate
  cases text.dropWhile isAllowed with
  | nil => simp
  | cons character rest => simp

/-- A text up to its first foreign character, and the rest. -/
theorem Text.exists_allowed_front (text : Text) :
    ∃ front rest : Text, text = front ++ rest ∧
      (∀ character ∈ front, isAllowed character = true) ∧
      ∀ character ∈ rest.head?, isAllowed character = false := by
  refine ⟨text.takeWhile isAllowed, text.dropWhile isAllowed,
    List.takeWhile_append_dropWhile.symm, fun _ hmem => List.mem_takeWhile_imp hmem, ?_⟩
  intro character hhead
  have hnot := List.head?_dropWhile_not isAllowed text
  rw [hhead] at hnot
  simpa using hnot

/-- Every text is empty or starts with an item of one of three forms, followed by
a shorter text. -/
theorem Text.item_induction {motive : Text → Prop} (nil : motive [])
    (run : ∀ run rest : Text, run.IsRun → rest.BreaksRun → motive rest → motive (run ++ rest))
    (symbol : ∀ (character : Char) (kind : Token.Kind) (rest : Text),
      Token.Kind.ofChar? character = some kind → motive rest → motive (character :: rest))
    (stray : ∀ (character : Char) (rest : Text), Cursor.isNumeral character = false →
      Token.Kind.ofChar? character = none → motive rest → motive (character :: rest))
    (text : Text) : motive text := by
  induction hlength : text.length using Nat.strongRecOn generalizing text with
  | ind length ih =>
      subst hlength
      cases text with
      | nil => exact nil
      | cons first rest =>
          by_cases hfirst : Cursor.isNumeral first = true
          · have hsplit : (first :: rest.takeWhile Cursor.isNumeral) ++
                rest.dropWhile Cursor.isNumeral = first :: rest := by
              rw [List.cons_append, List.takeWhile_append_dropWhile]
            rw [← hsplit]
            apply run
            · exact Text.isRun_cons_takeWhile hfirst rest
            · exact Text.breaksRun_dropWhile rest
            · exact ih _ (Nat.lt_succ_of_le (List.dropWhile_sublist _).length_le) _ rfl
          · have hnumeral : Cursor.isNumeral first = false := by simpa using hfirst
            have htail : motive rest := ih _ (Nat.lt_succ_self _) rest rfl
            cases hkind : Token.Kind.ofChar? first with
            | none => exact stray first rest hnumeral hkind htail
            | some kind => exact symbol first kind rest hkind htail

namespace Cursor

/-- A text of the alphabet has tokens only. -/
theorem items_of_isAllowed {text : Text}
    (hallowed : ∀ character ∈ text, isAllowed character = true) (position : Nat) :
    items ⟨position, text⟩ = (tokens ⟨position, text⟩).map Item.token := by
  induction text using Text.item_induction generalizing position with
  | nil => simp
  | run run rest hrun hrest ih =>
      rw [items_run position hrun hrest, tokens_run position hrun hrest, List.map_cons,
        ih (List.forall_mem_append.1 hallowed).2]
  | symbol character kind rest hkind ih =>
      rw [items_symbol position hkind, tokens_symbol position hkind, List.map_cons,
        ih (List.forall_mem_cons.1 hallowed).2]
  | stray character rest hnumeral hkind ih =>
      have hfirst := hallowed character List.mem_cons_self
      rw [isAllowed_eq_false hnumeral hkind] at hfirst
      cases hfirst

end Cursor

/-- A text without stray characters, built up from the right by its tokens. -/
inductive Text.Tokenized : Text → Prop
  | nil : Tokenized []
  | number {run rest : Text} (hrun : run.IsRun) (hbreaks : rest.BreaksRun)
      (hrest : Tokenized rest) : Tokenized (run ++ rest)
  | leftParen {rest : Text} (hrest : Tokenized rest) : Tokenized ('(' :: rest)
  | rightParen {rest : Text} (hrest : Tokenized rest) : Tokenized (')' :: rest)
  | operator (applied : Operator) {rest : Text} (hrest : Tokenized rest) :
      Tokenized (applied.symbol :: rest)

theorem Text.tokenized_of_isAllowed {text : Text}
    (hallowed : ∀ character ∈ text, isAllowed character = true) : text.Tokenized := by
  induction text using Text.item_induction with
  | nil => exact .nil
  | run run rest hrun hbreaks ih =>
      exact .number hrun hbreaks (ih (List.forall_mem_append.1 hallowed).2)
  | symbol character kind rest hkind ih =>
      have hrest := ih (List.forall_mem_cons.1 hallowed).2
      rcases Token.Kind.eq_of_ofChar?_eq_some hkind with
        ⟨rfl, -⟩ | ⟨rfl, -⟩ | ⟨applied, rfl, -⟩
      · exact .leftParen hrest
      · exact .rightParen hrest
      · exact .operator applied hrest
  | stray character rest hnumeral hkind ih =>
      have hfirst := hallowed character List.mem_cons_self
      rw [isAllowed_eq_false hnumeral hkind] at hfirst
      cases hfirst

end Calculator

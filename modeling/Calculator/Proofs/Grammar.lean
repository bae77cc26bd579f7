import Calculator.Proofs.Items
import Mathlib.Data.List.Chain

/-!
# Texts of the grammar

Facts about written trees that mention no program.  An expression can be extended
on its right by an operator and an operand, whatever their precedence: the new
operator takes its place on the right edge of the tree.  In a written tree two
operands never stand side by side.
-/

namespace Calculator

namespace Text

/-- An operand ends with the first character and another one begins with the
second.  Two characters of one number are no such place. -/
def Abuts (first second : Char) : Prop :=
  Cursor.isNumeral first = true ∧ second = '(' ∨
    first = ')' ∧ (second = '(' ∨ Cursor.isNumeral second = true)

instance (first second : Char) : Decidable (Abuts first second) :=
  inferInstanceAs (Decidable (_ ∧ _ ∨ _ ∧ (_ ∨ _)))

/-- Nowhere do two operands stand side by side. -/
def Separated (text : Text) : Prop :=
  text.IsChain fun first second => ¬Abuts first second

instance (text : Text) : Decidable text.Separated :=
  inferInstanceAs (Decidable (List.IsChain _ _))

/-- No operand begins with the text. -/
def StartsNoOperand (text : Text) : Prop :=
  ∀ character ∈ text.head?, Cursor.isNumeral character = false ∧ character ≠ '('

theorem separated_cons {character : Char} {rest : Text} :
    Separated (character :: rest) ↔
      (∀ next ∈ rest.head?, ¬Abuts character next) ∧ rest.Separated :=
  List.isChain_cons

theorem separated_append {left right : Text} :
    Separated (left ++ right) ↔ left.Separated ∧ right.Separated ∧
      ∀ last ∈ left.getLast?, ∀ next ∈ right.head?, ¬Abuts last next :=
  List.isChain_append

theorem not_abuts_of_isNumeral {first second : Char} (hfirst : first ≠ ')')
    (hsecond : Cursor.isNumeral second = true) : ¬Abuts first second := by
  rintro (⟨-, rfl⟩ | ⟨rfl, -⟩)
  · exact absurd hsecond (by decide)
  · exact hfirst rfl

theorem not_abuts_leftParen (next : Char) : ¬Abuts '(' next := by
  simp [Abuts, Cursor.isNumeral]

theorem not_abuts_rightParen (last : Char) : ¬Abuts last ')' := by
  simp [Abuts, Cursor.isNumeral]

theorem not_abuts_symbol (applied : Operator) (next : Char) : ¬Abuts applied.symbol next := by
  cases applied <;> simp [Abuts, Operator.symbol, Cursor.isNumeral]

theorem not_symbol_abuts (last : Char) (applied : Operator) : ¬Abuts last applied.symbol := by
  cases applied <;> simp [Abuts, Operator.symbol, Cursor.isNumeral]

theorem separated_of_isNumeral {run : Text}
    (hrun : ∀ character ∈ run, Cursor.isNumeral character = true) : run.Separated := by
  induction run with
  | nil => exact List.isChain_nil
  | cons first more ih =>
      have hmore := fun character hmem => hrun character (List.mem_cons_of_mem first hmem)
      refine separated_cons.2 ⟨fun next hnext => ?_, ih hmore⟩
      apply not_abuts_of_isNumeral
      · rintro rfl
        exact absurd (hrun ')' List.mem_cons_self) (by decide)
      · exact hmore next (List.mem_of_mem_head? hnext)

end Text

namespace Expr

/-- The text is an expression of the grammar with this tree, and its numbers are
literals. -/
def Grammatical (text : Text) (tree : Expr) : Prop :=
  Parses text tree ∧ ∀ literal ∈ tree.literals, literal.IsLiteral

theorem Written.isAllowed {level offset : Nat} {text : Text} {tree : Expr}
    (hwritten : Written level offset text tree) :
    ∀ character ∈ text, Calculator.isAllowed character = true := by
  induction hwritten with
  | number hrun =>
      intro character hmem
      exact isAllowed_iff.2 (Or.inl (hrun.2 character hmem))
  | group _ ih =>
      intro character hmem
      simp only [List.cons_append, List.mem_cons, List.mem_append, List.not_mem_nil,
        or_false] at hmem
      obtain rfl | hmem | rfl := hmem
      · decide
      · exact ih character hmem
      · decide
  | @binary _ _ applied _ _ _ _ _ _ _ ihLeft ihRight =>
      intro character hmem
      simp only [List.mem_append, List.mem_cons] at hmem
      obtain hmem | rfl | hmem := hmem
      · exact ihLeft character hmem
      · exact isAllowed_iff.2 (Or.inr (by simp))
      · exact ihRight character hmem

theorem Written.isRun_of_mem_literals {level offset : Nat} {text : Text} {tree : Expr}
    (hwritten : Written level offset text tree) : ∀ literal ∈ tree.literals, literal.IsRun := by
  induction hwritten with
  | number hrun =>
      intro literal hmem
      rwa [List.mem_singleton.1 hmem]
  | group _ ih => exact ih
  | binary _ _ _ ihLeft ihRight => exact List.forall_mem_append.2 ⟨ihLeft, ihRight⟩

theorem Written.separated {level offset : Nat} {text : Text} {tree : Expr}
    (hwritten : Written level offset text tree) : text.Separated := by
  induction hwritten with
  | number hrun => exact Text.separated_of_isNumeral hrun.2
  | group _ ih =>
      rw [List.cons_append, Text.separated_cons, Text.separated_append]
      refine ⟨fun next _ => Text.not_abuts_leftParen next, ih, List.isChain_singleton _, ?_⟩
      intro last _ next hnext
      cases hnext
      exact Text.not_abuts_rightParen last
  | @binary _ _ applied _ _ _ _ _ _ _ ihLeft ihRight =>
      rw [Text.separated_append, Text.separated_cons]
      refine ⟨ihLeft, ⟨fun next _ => Text.not_abuts_symbol applied next, ihRight⟩, ?_⟩
      intro last _ next hnext
      cases hnext
      exact Text.not_symbol_abuts last applied

/-- An operator and its right operand behind a text take their place on the right
edge of its tree. -/
theorem Written.extend {level offset : Nat} {text operand : Text} {tree operandTree : Expr}
    {applied : Operator} (hwritten : Written level offset text tree)
    (hlevel : level ≤ applied.level)
    (hoperand : Written (applied.level + 1)
      (offset + text.byteLength + applied.symbol.utf8Size) operand operandTree) :
    ∃ extended, Written level offset (text ++ applied.symbol :: operand) extended ∧
      extended.literals = tree.literals ++ operandTree.literals := by
  induction hwritten with
  | number hrun => exact ⟨_, .binary hlevel (.number hrun) hoperand, rfl⟩
  | group hinside => exact ⟨_, .binary hlevel (.group hinside) hoperand, rfl⟩
  | @binary level offset top left right leftTree rightTree htop hleft hright _ ihRight =>
      by_cases hbinds : applied.level ≤ top.level
      · exact ⟨_, .binary hlevel (.binary hbinds hleft hright) hoperand, rfl⟩
      · -- The new operator binds more tightly, so only the right operand is extended.
        have hposition : offset + Text.byteLength (left ++ top.symbol :: right) =
            offset + left.byteLength + top.symbol.utf8Size + right.byteLength := by
          simp only [Text.byteLength_append, Text.byteLength_cons]
          omega
        rw [hposition] at hoperand
        obtain ⟨extended, hextended, hliterals⟩ := ihRight (by omega) hoperand
        refine ⟨.binary top (offset + left.byteLength) leftTree extended, ?_, ?_⟩
        · rw [List.append_assoc, List.cons_append]
          exact .binary htop hleft hextended
        · simp [literals, hliterals]

end Expr

namespace Text

/-- Wherever it starts, the text writes a tree of this level with literals only. -/
def IsExpression (level : Nat) (text : Text) : Prop :=
  ∀ offset, ∃ tree, Expr.Written level offset text tree ∧
    ∀ literal ∈ tree.literals, literal.IsLiteral

theorem IsLiteral.isExpression {text : Text} (hliteral : text.IsLiteral) (level : Nat) :
    text.IsExpression level := by
  intro offset
  refine ⟨.number text offset, .number hliteral.1, ?_⟩
  simpa [Expr.literals] using hliteral

theorem IsExpression.group {text : Text} (hinside : text.IsExpression 1) (level : Nat) :
    IsExpression level ('(' :: text ++ [')']) := by
  intro offset
  obtain ⟨tree, hwritten, hliterals⟩ := hinside (offset + 1)
  exact ⟨tree, .group hwritten, hliterals⟩

theorem IsExpression.extend {level : Nat} {text operand : Text} {applied : Operator}
    (htext : text.IsExpression level) (hlevel : level ≤ applied.level)
    (hoperand : operand.IsExpression (applied.level + 1)) :
    IsExpression level (text ++ applied.symbol :: operand) := by
  intro offset
  obtain ⟨tree, hwritten, hliterals⟩ := htext offset
  obtain ⟨operandTree, hwrittenOperand, hliteralsOperand⟩ :=
    hoperand (offset + text.byteLength + applied.symbol.utf8Size)
  obtain ⟨extended, hextended, heq⟩ := hwritten.extend hlevel hwrittenOperand
  refine ⟨extended, hextended, fun literal hmem => ?_⟩
  rw [heq] at hmem
  exact (List.mem_append.1 hmem).elim (hliterals literal) (hliteralsOperand literal)

end Text

end Calculator

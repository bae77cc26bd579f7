import Calculator.Proofs.Grammar
import Calculator.Proofs.Parentheses
import Calculator.Proofs.Stack

/-!
# Which texts have a value

The calculator looks neither at what stands beside an operator nor at what a group
holds; it only counts values while it runs the postfix form.  Where no two operands
stand side by side that is enough: between two numbers there is an operator, so the
count comes out right only if there is exactly one in every place, and the text is
then an expression of the grammar.  Side by side, two operands leave a value over
that an operator out of place can take later, and the text has a value although it
is no expression.
-/

namespace Calculator

namespace Text

/-- Nothing, or an expression and an operator: an operand is to follow. -/
def IsLead (text : Text) : Prop :=
  text = [] ∨ ∃ (left : Text) (applied : Operator),
    text = left ++ [applied.symbol] ∧ left.IsExpression 1

/-- The text ends where the innermost of so many open groups begins. -/
inductive Opens : Nat → Text → Prop
  | start : Opens 0 []
  | group {depth : Nat} {outer lead : Text} (houter : Opens depth outer) (hlead : lead.IsLead) :
      Opens (depth + 1) (outer ++ lead ++ ['('])

/-- In so many open groups, an operand is to follow. -/
def Awaits (depth : Nat) (text : Text) : Prop :=
  ∃ outer lead, text = outer ++ lead ∧ Opens depth outer ∧ lead.IsLead

/-- In so many open groups, an expression is complete. -/
def Completes (depth : Nat) (text : Text) : Prop :=
  ∃ outer inner, text = outer ++ inner ∧ Opens depth outer ∧ inner.IsExpression 1

theorem awaits_nil : Awaits 0 [] :=
  ⟨[], [], rfl, .start, Or.inl rfl⟩

theorem Awaits.operand {depth : Nat} {text operand : Text} (hawaits : Awaits depth text)
    (hoperand : ∀ level, operand.IsExpression level) : Completes depth (text ++ operand) := by
  obtain ⟨outer, lead, rfl, hopens, hlead⟩ := hawaits
  refine ⟨outer, lead ++ operand, List.append_assoc _ _ _, hopens, ?_⟩
  obtain rfl | ⟨left, applied, rfl, hleft⟩ := hlead
  · exact hoperand 1
  · rw [List.append_assoc, List.singleton_append]
    apply hleft.extend _ (hoperand _)
    cases applied <;> decide

theorem Awaits.leftParen {depth : Nat} {text : Text} (hawaits : Awaits depth text) :
    Awaits (depth + 1) (text ++ ['(']) := by
  obtain ⟨outer, lead, rfl, hopens, hlead⟩ := hawaits
  exact ⟨_, [], (List.append_nil _).symm, .group hopens hlead, Or.inl rfl⟩

theorem Completes.symbol {depth : Nat} {text : Text} (hcompletes : Completes depth text)
    (applied : Operator) : Awaits depth (text ++ [applied.symbol]) := by
  obtain ⟨outer, inner, rfl, hopens, hinner⟩ := hcompletes
  exact ⟨outer, _, List.append_assoc _ _ _, hopens, Or.inr ⟨inner, applied, rfl, hinner⟩⟩

theorem Completes.rightParen {depth : Nat} {text : Text}
    (hcompletes : Completes (depth + 1) text) : Completes depth (text ++ [')']) := by
  obtain ⟨_, inner, rfl, hopens, hinner⟩ := hcompletes
  cases hopens with
  | @group _ outer lead houter hlead =>
      have hawaits : Awaits depth (outer ++ lead) := ⟨outer, lead, rfl, houter, hlead⟩
      have hgroup := hawaits.operand hinner.group
      simpa using hgroup

theorem Completes.isExpression {text : Text} (hcompletes : Completes 0 text) :
    text.IsExpression 1 := by
  obtain ⟨_, inner, rfl, hopens, hinner⟩ := hcompletes
  cases hopens
  exact hinner

theorem startsNoOperand_of_rightParen {rest : Text} (hseparated : Separated (')' :: rest)) :
    rest.StartsNoOperand := by
  intro next hnext
  have hnot := (separated_cons.1 hseparated).1 next hnext
  constructor
  · rw [Bool.eq_false_iff]
    exact fun hnumeral => hnot (Or.inr ⟨rfl, Or.inr hnumeral⟩)
  · exact fun hleft => hnot (Or.inr ⟨rfl, Or.inl hleft⟩)

theorem startsNoOperand_of_run {run rest : Text} (hrun : run.IsRun) (hrest : rest.BreaksRun)
    (hseparated : Separated (run ++ rest)) : rest.StartsNoOperand := by
  intro next hnext
  refine ⟨hrest next hnext, ?_⟩
  rintro rfl
  have hlast := List.getLast_mem hrun.1
  exact (separated_append.1 hseparated).2.2 _ (List.getLast?_eq_some_getLast hrun.1) _ hnext
    (Or.inl ⟨hrun.2 _ hlast, rfl⟩)

theorem not_startsNoOperand_run {run rest : Text} (hrun : run.IsRun) :
    ¬StartsNoOperand (run ++ rest) := by
  obtain ⟨first, more, rfl, hfirst, -⟩ := hrun.exists_eq_cons
  intro hstarts
  simpa [hfirst] using (hstarts first rfl).1

end Text

namespace Cursor

/-- How many numbers follow. -/
def numbers (cursor : Cursor) : Nat :=
  cursor.tokens.countP Token.isNumber

/-- How many operators follow. -/
def operators (cursor : Cursor) : Nat :=
  cursor.tokens.countP Token.isOperator

theorem counts_nil (position : Nat) :
    numbers ⟨position, []⟩ = 0 ∧ operators ⟨position, []⟩ = 0 := by
  simp [numbers, operators]

theorem counts_run (position : Nat) {run rest : Text} (hrun : run.IsRun)
    (hrest : rest.BreaksRun) :
    numbers ⟨position, run ++ rest⟩ = numbers ⟨position + run.byteLength, rest⟩ + 1 ∧
      operators ⟨position, run ++ rest⟩ = operators ⟨position + run.byteLength, rest⟩ := by
  simp [numbers, operators, tokens_run position hrun hrest, Token.isNumber, Token.isOperator]

theorem counts_paren (position : Nat) {paren : Char} (hparen : paren = '(' ∨ paren = ')')
    (rest : Text) :
    numbers ⟨position, paren :: rest⟩ = numbers ⟨position + paren.utf8Size, rest⟩ ∧
      operators ⟨position, paren :: rest⟩ = operators ⟨position + paren.utf8Size, rest⟩ := by
  obtain rfl | rfl := hparen
  · simp [numbers, operators, tokens_symbol position Token.Kind.ofChar?_leftParen,
      Token.isNumber, Token.isOperator]
  · simp [numbers, operators, tokens_symbol position Token.Kind.ofChar?_rightParen,
      Token.isNumber, Token.isOperator]

theorem counts_symbol (position : Nat) (applied : Operator) (rest : Text) :
    numbers ⟨position, applied.symbol :: rest⟩ =
        numbers ⟨position + applied.symbol.utf8Size, rest⟩ ∧
      operators ⟨position, applied.symbol :: rest⟩ =
        operators ⟨position + applied.symbol.utf8Size, rest⟩ + 1 := by
  simp [numbers, operators, tokens_symbol position (Token.Kind.ofChar?_symbol applied),
    List.countP_cons, Token.isNumber, Token.isOperator]

/-- Where no two operands stand side by side, a text has at most one number more
than operators, and no more at all if no operand begins it. -/
theorem numbers_le_operators {text : Text} (htokens : text.Tokenized)
    (hseparated : text.Separated) (position : Nat) :
    numbers ⟨position, text⟩ ≤ operators ⟨position, text⟩ + 1 ∧
      (text.StartsNoOperand → numbers ⟨position, text⟩ ≤ operators ⟨position, text⟩) := by
  induction htokens generalizing position with
  | nil => simp [counts_nil]
  | @number run rest hrun hbreaks _ ih =>
      obtain ⟨hnumbers, hoperators⟩ := counts_run position hrun hbreaks
      rw [hnumbers, hoperators]
      have hbound := (ih (Text.separated_append.1 hseparated).2.1
        (position + run.byteLength)).2 (Text.startsNoOperand_of_run hrun hbreaks hseparated)
      exact ⟨by omega, fun hstarts => absurd hstarts (Text.not_startsNoOperand_run hrun)⟩
  | @leftParen rest _ ih =>
      obtain ⟨hnumbers, hoperators⟩ := counts_paren position (Or.inl rfl) rest
      rw [hnumbers, hoperators]
      have hbound := (ih (Text.separated_cons.1 hseparated).2 (position + Char.utf8Size '(')).1
      exact ⟨hbound, fun hstarts => absurd rfl (hstarts '(' rfl).2⟩
  | @rightParen rest _ ih =>
      obtain ⟨hnumbers, hoperators⟩ := counts_paren position (Or.inr rfl) rest
      rw [hnumbers, hoperators]
      have hbound := (ih (Text.separated_cons.1 hseparated).2 (position + Char.utf8Size ')')).2
        (Text.startsNoOperand_of_rightParen hseparated)
      exact ⟨by omega, fun _ => hbound⟩
  | @operator applied rest _ ih =>
      obtain ⟨hnumbers, hoperators⟩ := counts_symbol position applied rest
      rw [hnumbers, hoperators]
      have hbound := (ih (Text.separated_cons.1 hseparated).2
        (position + applied.symbol.utf8Size)).1
      exact ⟨by omega, fun _ => hbound⟩

end Cursor

namespace Text

/-- Read in so many open groups, the rest makes an expression of what stands before
it: where an operand is to follow, if it has one number more than operators, and
behind an operand, if it has as many. -/
def Finishes (depth position : Nat) (rest : Text) : Prop :=
  ∀ read : Text,
    (Awaits depth read →
      Cursor.numbers ⟨position, rest⟩ = Cursor.operators ⟨position, rest⟩ + 1 →
        IsExpression 1 (read ++ rest)) ∧
    (Completes depth read → rest.StartsNoOperand →
      Cursor.numbers ⟨position, rest⟩ = Cursor.operators ⟨position, rest⟩ →
        IsExpression 1 (read ++ rest))

theorem finishes_nil (position : Nat) : Finishes 0 position [] := by
  intro read
  obtain ⟨hnumbers, hoperators⟩ := Cursor.counts_nil position
  rw [hnumbers, hoperators, List.append_nil]
  exact ⟨fun _ hcount => by omega, fun hcompletes _ _ => hcompletes.isExpression⟩

section Steps

variable {depth position : Nat} {rest : Text}

theorem Finishes.number {run : Text} (hliteral : run.IsLiteral) (hbreaks : rest.BreaksRun)
    (hseparated : Separated (run ++ rest))
    (hrest : Finishes depth (position + run.byteLength) rest) :
    Finishes depth position (run ++ rest) := by
  intro read
  obtain ⟨hnumbers, hoperators⟩ := Cursor.counts_run position hliteral.1 hbreaks
  constructor
  · intro hawaits hcount
    have hexpression := (hrest (read ++ run)).2 (hawaits.operand hliteral.isExpression)
      (startsNoOperand_of_run hliteral.1 hbreaks hseparated) (by omega)
    rwa [List.append_assoc] at hexpression
  · intro _ hnone
    exact absurd hnone (not_startsNoOperand_run hliteral.1)

theorem Finishes.leftParen
    (hrest : Finishes (depth + 1) (position + Char.utf8Size '(') rest) :
    Finishes depth position ('(' :: rest) := by
  intro read
  obtain ⟨hnumbers, hoperators⟩ := Cursor.counts_paren position (Or.inl rfl) rest
  constructor
  · intro hawaits hcount
    have hexpression := (hrest (read ++ ['('])).1 hawaits.leftParen (by omega)
    rwa [List.append_assoc] at hexpression
  · intro _ hnone
    exact absurd rfl (hnone '(' rfl).2

/-- In the place of an operand, a closing parenthesis would need one number more than
operators behind it, where there are no more. -/
theorem Finishes.rightParen (htokens : rest.Tokenized) (hseparated : Separated (')' :: rest))
    (hrest : Finishes depth (position + Char.utf8Size ')') rest) :
    Finishes (depth + 1) position (')' :: rest) := by
  intro read
  obtain ⟨hnumbers, hoperators⟩ := Cursor.counts_paren position (Or.inr rfl) rest
  have hstarts := startsNoOperand_of_rightParen hseparated
  constructor
  · intro _ hcount
    have hbound := (Cursor.numbers_le_operators htokens (separated_cons.1 hseparated).2
      (position + Char.utf8Size ')')).2 hstarts
    omega
  · intro hcompletes _ hcount
    have hexpression := (hrest (read ++ [')'])).2 hcompletes.rightParen hstarts (by omega)
    rwa [List.append_assoc] at hexpression

/-- In the place of an operand, an operator would need two numbers more than operators
behind it, where there is one more at most. -/
theorem Finishes.operator (applied : Operator) (htokens : rest.Tokenized)
    (hseparated : rest.Separated)
    (hrest : Finishes depth (position + applied.symbol.utf8Size) rest) :
    Finishes depth position (applied.symbol :: rest) := by
  intro read
  obtain ⟨hnumbers, hoperators⟩ := Cursor.counts_symbol position applied rest
  constructor
  · intro _ hcount
    have hbound := (Cursor.numbers_le_operators htokens hseparated
      (position + applied.symbol.utf8Size)).1
    omega
  · intro hcompletes _ hcount
    have hexpression := (hrest (read ++ [applied.symbol])).1 (hcompletes.symbol applied)
      (by omega)
    rwa [List.append_assoc] at hexpression

end Steps

/-- A rest that closes the open groups, holds only literals and has no two operands
side by side can have nothing out of place. -/
theorem Tokenized.finishes {rest : Text} (htokens : rest.Tokenized)
    (hseparated : rest.Separated) {depth position : Nat} (hdepth : rest.depth? depth = some 0)
    (hliterals : ∀ token ∈ Cursor.tokens ⟨position, rest⟩,
      token.isNumber = true → token.literal.IsLiteral) :
    Finishes depth position rest := by
  induction htokens generalizing depth position with
  | nil =>
      cases hdepth
      exact finishes_nil position
  | @number run rest hrun hbreaks _ ih =>
      rw [Cursor.tokens_run position hrun hbreaks, List.forall_mem_cons] at hliterals
      rw [depth?_run hrun.2] at hdepth
      exact .number (hliterals.1 rfl) hbreaks hseparated
        (ih (separated_append.1 hseparated).2.1 hdepth hliterals.2)
  | @leftParen rest _ ih =>
      rw [Cursor.tokens_symbol position Token.Kind.ofChar?_leftParen,
        List.forall_mem_cons] at hliterals
      exact .leftParen (ih (separated_cons.1 hseparated).2 hdepth hliterals.2)
  | @rightParen rest htokens ih =>
      rw [Cursor.tokens_symbol position Token.Kind.ofChar?_rightParen,
        List.forall_mem_cons] at hliterals
      cases depth with
      | zero => cases hdepth
      | succ outer =>
          exact .rightParen htokens hseparated
            (ih (separated_cons.1 hseparated).2 hdepth hliterals.2)
  | @operator applied rest htokens ih =>
      have htail := (separated_cons.1 hseparated).2
      rw [Cursor.tokens_symbol position (Token.Kind.ofChar?_symbol applied),
        List.forall_mem_cons] at hliterals
      rw [depth?_cons, nest?_symbol] at hdepth
      exact .operator applied htokens htail (ih htail hdepth hliterals.2)

end Text

theorem countP_withoutParens {counted : Token → Bool}
    (hcounted : ∀ token, counted token = true → token.isParen = false) (tokens : List Token) :
    (withoutParens tokens).countP counted = tokens.countP counted := by
  rw [withoutParens, List.countP_filter]
  apply List.countP_congr
  intro token _
  simp only [Bool.and_eq_true, Bool.not_eq_true']
  exact ⟨And.left, fun htoken => ⟨htoken, hcounted token htoken⟩⟩

theorem Token.isParen_of_isNumber {token : Token} (hnumber : token.isNumber = true) :
    token.isParen = false := by
  rw [Token.isNumber, beq_iff_eq] at hnumber
  simp [Token.isParen, hnumber]

theorem Token.isParen_of_isOperator {token : Token} (hoperator : token.isOperator = true) :
    token.isParen = false := by
  unfold Token.isOperator at hoperator
  split at hoperator
  · next applied hkind => simp [Token.isParen, hkind]
  · cases hoperator

/-- The postfix form has as many numbers and operators as the text. -/
theorem Rpn.countP_of_ofText {text : Text} {rpn : Rpn} (hconverts : Rpn.ofText text = .ok rpn) :
    rpn.tokens.countP Token.isNumber = Cursor.numbers ⟨0, text⟩ ∧
      rpn.tokens.countP Token.isOperator = Cursor.operators ⟨0, text⟩ := by
  have hperm := Rpn.perm_of_ofText hconverts
  have hkeeps : ∀ {counted : Token → Bool}, (∀ token, counted token = true →
      token.isParen = false) → rpn.tokens.countP counted =
        (Cursor.tokens ⟨0, text⟩).countP counted := by
    intro counted hcounted
    rw [← countP_withoutParens hcounted, hperm.countP_eq, countP_withoutParens hcounted]
    rfl
  exact ⟨hkeeps fun _ => Token.isParen_of_isNumber, hkeeps fun _ => Token.isParen_of_isOperator⟩

/-- A text that has a value has one number more than operators, and its numbers
are literals. -/
theorem counts_of_calculate {text : Text} {value : Binary64}
    (hvalue : calculate text = .ok value) :
    Cursor.numbers ⟨0, text⟩ = Cursor.operators ⟨0, text⟩ + 1 ∧
      ∀ token ∈ Cursor.tokens ⟨0, text⟩,
        token.isNumber = true → token.literal.IsLiteral := by
  obtain ⟨-, rpn, hconverts, hevaluate⟩ := calculate_eq_ok_iff.1 hvalue
  obtain ⟨hcount, htokens⟩ := Rpn.countP_of_evaluate hevaluate
  obtain ⟨hnumbers, hoperators⟩ := Rpn.countP_of_ofText hconverts
  rw [hnumbers, hoperators] at hcount
  refine ⟨hcount, fun token hmem hnumber => (htokens token ?_).2 hnumber⟩
  have hkept : token ∈ withoutParens (Cursor.start text).tokens := by
    rw [withoutParens, List.mem_filter]
    exact ⟨hmem, by simp [Token.isParen_of_isNumber hnumber]⟩
  exact List.mem_of_mem_filter ((Rpn.perm_of_ofText hconverts).mem_iff.2 hkept)

theorem grammatical_of_separated {text : Text} {value : Binary64}
    (hvalue : calculate text = .ok value) (hseparated : text.Separated) :
    ∃ tree, Expr.Grammatical text tree := by
  obtain ⟨hallowed, rpn, hconverts, -⟩ := calculate_eq_ok_iff.1 hvalue
  obtain ⟨hcount, hliterals⟩ := counts_of_calculate hvalue
  have htokens := Text.tokenized_of_isAllowed hallowed
  have hfinishes := htokens.finishes hseparated (Rpn.balanced_of_ofText hconverts) hliterals
  exact (hfinishes []).1 Text.awaits_nil hcount 0

/-- A text that has a value is an expression of the grammar exactly if nowhere two
operands stand side by side. -/
theorem grammatical_iff_separated {text : Text} {value : Binary64}
    (hvalue : calculate text = .ok value) :
    (∃ tree, Expr.Grammatical text tree) ↔ text.Separated := by
  constructor
  · rintro ⟨tree, hparses, -⟩
    exact hparses.separated
  · exact grammatical_of_separated hvalue

/-- A group and an operator have a place in the grammar. -/
theorem exists_grammatical_product :
    calculate ['(', '1', '+', '2', ')', '*', '3'] = .ok (Decimal.toBinary64 ⟨9, 0⟩) ∧
      ∃ tree, Expr.Grammatical ['(', '1', '+', '2', ')', '*', '3'] tree := by
  have hvalue : calculate ['(', '1', '+', '2', ')', '*', '3'] =
      .ok (Decimal.toBinary64 ⟨9, 0⟩) := by
    decide +kernel
  exact ⟨hvalue, (grammatical_iff_separated hvalue).2 (by decide)⟩

/-- One and two without an operator between them, and an operator without a right
operand behind: the text has the value three and is no expression. -/
theorem calculate_side_by_side :
    calculate ['1', '(', '2', ')', '+'] = .ok (Decimal.toBinary64 ⟨3, 0⟩) ∧
      ¬∃ tree, Expr.Grammatical ['1', '(', '2', ')', '+'] tree := by
  refine ⟨by decide +kernel, ?_⟩
  rintro ⟨tree, hparses, -⟩
  exact absurd hparses.separated (by decide)

end Calculator

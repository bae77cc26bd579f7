import Calculator.Proofs.Acceptance
import Calculator.Proofs.Places
import Calculator.Proofs.Refusal
import Calculator.Proofs.Shortage
import Calculator.Proofs.TreeValue

/-!
# Texts without parentheses

In a text of literals and operators without parentheses, an operator is out of place if it comes
first or last or next to another one.  If none is, numbers and operators take turns, and the text
is an expression.  If one is, there are at least as many operators as numbers, for two numbers
never stand side by side.  The postfix form has the same tokens in another order; it cannot be
run to its end with so few numbers, so there is a first operator that lacks an operand, and the
run fails there or at an operator before it.
-/

namespace Calculator

theorem Operator.exists_symbol_iff {character : Char} :
    (∃ applied : Operator, character = applied.symbol) ↔
      (Operator.ofChar? character).isSome = true := by
  simp only [Option.isSome_iff_exists, Operator.ofChar?_eq_some_iff]

namespace Text

/-- Digits, points and operators. -/
def IsPlain (text : Text) : Prop :=
  ∀ character ∈ text, Cursor.isNumeral character = true ∨
    ∃ applied : Operator, character = applied.symbol

instance (text : Text) : Decidable text.IsPlain :=
  haveI : ∀ character : Char, Decidable (∃ applied : Operator, character = applied.symbol) :=
    fun _ => decidable_of_iff' _ Operator.exists_symbol_iff
  List.decidableBAll _ text

/-- Every longest run of digits and points reads as a number. -/
def RunsAreLiterals (text : Text) : Prop :=
  ∀ before run after : Text, text = before ++ (run ++ after) → run.IsRun → before.EndsNoRun →
    after.BreaksRun → run.IsLiteral

/-- A number, and any number of times an operator and a number. -/
inductive Alternates : Text → Prop
  | number {literal : Text} (hliteral : literal.IsLiteral) : Alternates literal
  | operator {literal rest : Text} (hliteral : literal.IsLiteral) (applied : Operator)
      (hrest : Alternates rest) : Alternates (literal ++ applied.symbol :: rest)

/-- An operator comes first or last or next to another one. -/
def MisplacesOperator (text : Text) : Prop :=
  ∃ (before : Text) (applied : Operator) (after : Text), text = before ++ applied.symbol :: after ∧
    (before = [] ∨ after = [] ∨ ∃ (next : Operator) (rest : Text), after = next.symbol :: rest)

section Plain

variable {text : Text}

theorem IsPlain.isAllowed (hplain : text.IsPlain) :
    ∀ character ∈ text, isAllowed character = true := by
  intro character hmem
  rw [isAllowed_iff]
  refine (hplain character hmem).imp_right ?_
  rintro ⟨applied, rfl⟩
  simp

theorem IsPlain.not_paren (hplain : text.IsPlain) :
    ∀ character ∈ text, character ≠ '(' ∧ character ≠ ')' := by
  intro character hmem
  rcases hplain character hmem with hnumeral | ⟨applied, rfl⟩
  · constructor
    · rintro rfl
      cases hnumeral
    · rintro rfl
      cases hnumeral
  · cases applied <;> decide

theorem IsPlain.balanced (hplain : text.IsPlain) : text.Balanced := by
  have hparens := hplain.not_paren
  unfold Balanced
  induction text with
  | nil => rfl
  | cons character rest ih =>
      obtain ⟨hfirst, hrest⟩ := List.forall_mem_cons.1 hparens
      rw [depth?_cons, nest?_of_ne hfirst.1 hfirst.2, Option.bind_some]
      exact ih (List.forall_mem_cons.1 hplain).2 hrest

theorem IsPlain.separated (hplain : text.IsPlain) : text.Separated := by
  refine List.isChain_iff_forall_rel_of_append_cons_cons.2 ?_
  rintro first second before after rfl (⟨-, hsecond⟩ | ⟨hfirst, -⟩)
  · exact (hplain.not_paren second (by simp)).1 hsecond
  · exact (hplain.not_paren first (by simp)).2 hfirst

theorem IsPlain.parts {before after : Text} {character : Char}
    (hplain : IsPlain (before ++ character :: after)) : before.IsPlain ∧ after.IsPlain := by
  obtain ⟨hbefore, hbehind⟩ := List.forall_mem_append.1 hplain
  exact ⟨hbefore, (List.forall_mem_cons.1 hbehind).2⟩

theorem startsNoOperand_symbol (applied : Operator) (rest : Text) :
    StartsNoOperand (applied.symbol :: rest) := by
  rintro character hhead
  cases hhead
  cases applied <;> decide

end Plain

/-- The number tokens of a text are its longest runs of digits and points. -/
theorem runsAreLiterals_iff {text : Text} :
    text.RunsAreLiterals ↔ ∀ token ∈ (Cursor.start text).tokens,
      token.isNumber = true → token.literal.IsLiteral := by
  constructor
  · intro hruns token hmem hnumber
    obtain ⟨before, after, hstands⟩ := Cursor.exists_standsBetween_start hmem
    have hkind : token.kind = .number := beq_iff_eq.1 hnumber
    obtain ⟨hbefore, hafter⟩ := hstands.isWhole hkind
    exact hruns before token.literal after hstands.source_eq (hstands.isSpelled.isRun hkind)
      hbefore hafter
  · rintro hliterals before run after rfl hrun hbefore hafter
    rw [Cursor.start, Cursor.tokens_append_of_seam 0 before (Or.inl hbefore),
      Cursor.tokens_run _ hrun hafter] at hliterals
    exact hliterals _ (List.mem_append_right _ List.mem_cons_self) rfl

instance (text : Text) : Decidable text.RunsAreLiterals :=
  haveI : Decidable (∀ token ∈ (Cursor.start text).tokens,
      token.isNumber = true → token.literal.IsLiteral) := List.decidableBAll _ _
  decidable_of_iff' _ runsAreLiterals_iff

theorem RunsAreLiterals.behind {front text : Text} (hruns : RunsAreLiterals (front ++ text))
    (hfront : front.EndsNoRun) : text.RunsAreLiterals := by
  rintro before run after rfl hrun hbefore hafter
  exact hruns (front ++ before) run after (List.append_assoc _ _ _).symm hrun
    (hfront.append hbefore) hafter

theorem MisplacesOperator.behind {text : Text} (hmisplaces : text.MisplacesOperator)
    (front : Text) (applied : Operator) : MisplacesOperator (front ++ applied.symbol :: text) := by
  obtain ⟨before, misplaced, after, rfl, rfl | hplace⟩ := hmisplaces
  · exact ⟨front, applied, _, rfl, Or.inr (Or.inr ⟨misplaced, after, rfl⟩)⟩
  · exact ⟨front ++ applied.symbol :: before, misplaced, after, by simp, Or.inr hplace⟩

/-- Without an operator out of place, numbers and operators take turns. -/
theorem alternates_of_not_misplacesOperator {text : Text} (hne : text ≠ [])
    (hplain : text.IsPlain) (hruns : text.RunsAreLiterals)
    (hplaces : ¬text.MisplacesOperator) : text.Alternates := by
  -- Behind a number and an operator the same is asked of a shorter text.
  induction hlength : text.length using Nat.strongRecOn generalizing text with
  | ind length ih =>
      subst hlength
      have hparens := hplain.not_paren
      cases tokenized_of_isAllowed hplain.isAllowed with
      | nil => exact absurd rfl hne
      | leftParen => exact absurd rfl (hparens _ List.mem_cons_self).1
      | rightParen => exact absurd rfl (hparens _ List.mem_cons_self).2
      | operator applied => exact absurd ⟨[], applied, _, rfl, Or.inl rfl⟩ hplaces
      | @number run rest hrun hbreaks =>
          have hliteral : run.IsLiteral := hruns [] run rest rfl hrun endsNoRun_nil hbreaks
          cases rest with
          | nil =>
              rw [List.append_nil]
              exact .number hliteral
          | cons character tail =>
              have hbehind := List.forall_mem_cons.1 (List.forall_mem_append.1 hplain).2
              obtain ⟨applied, rfl⟩ : ∃ applied : Operator, character = applied.symbol :=
                hbehind.1.resolve_left (by simp [breaksRun_cons.1 hbreaks])
              refine .operator hliteral applied (ih _ ?_ ?_ hbehind.2 ?_ ?_ rfl)
              · simp only [List.length_append, List.length_cons]
                omega
              · rintro rfl
                exact hplaces ⟨run, applied, [], rfl, Or.inr (Or.inl rfl)⟩
              · rw [List.append_cons] at hruns
                exact hruns.behind (endsNoRun_concat.2 applied.isNumeral_symbol)
              · exact fun hmisplaces => hplaces (hmisplaces.behind run applied)

section Counts

variable {text : Text}

theorem Alternates.counts (halternates : text.Alternates) (position : Nat) :
    Cursor.numbers ⟨position, text⟩ = Cursor.operators ⟨position, text⟩ + 1 := by
  induction halternates generalizing position with
  | @number literal hliteral =>
      obtain ⟨hnumbers, hoperators⟩ := Cursor.counts_run position hliteral.1 breaksRun_nil
      obtain ⟨hnone, hnoOperator⟩ := Cursor.counts_nil (position + literal.byteLength)
      rw [List.append_nil] at hnumbers hoperators
      omega
  | @operator literal rest hliteral applied _ ih =>
      obtain ⟨hnumbers, hoperators⟩ := Cursor.counts_run position hliteral.1
        (breaksRun_cons.2 applied.isNumeral_symbol : BreaksRun (applied.symbol :: rest))
      obtain ⟨hrestNumbers, hrestOperators⟩ :=
        Cursor.counts_symbol (position + literal.byteLength) applied rest
      have hrest := ih (position + literal.byteLength + applied.symbol.utf8Size)
      omega

/-- What stands on the two sides of an operator is counted apart. -/
theorem counts_around (before : Text) (applied : Operator) (after : Text) :
    ∃ position, Cursor.numbers ⟨0, before ++ applied.symbol :: after⟩ =
        Cursor.numbers ⟨0, before⟩ + Cursor.numbers ⟨position, after⟩ ∧
      Cursor.operators ⟨0, before ++ applied.symbol :: after⟩ =
        Cursor.operators ⟨0, before⟩ + (Cursor.operators ⟨position, after⟩ + 1) := by
  have hseam : BreaksRun (applied.symbol :: after) := breaksRun_cons.2 applied.isNumeral_symbol
  have htokens := Cursor.tokens_append_of_seam 0 before (Or.inr hseam)
  obtain ⟨hnumbers, hoperators⟩ := Cursor.counts_symbol (0 + before.byteLength) applied after
  refine ⟨0 + before.byteLength + applied.symbol.utf8Size, ?_, ?_⟩
  · rw [← hnumbers, Cursor.numbers, htokens, List.countP_append]
    rfl
  · rw [← hoperators, Cursor.operators, htokens, List.countP_append]
    rfl

/-- An operator out of place leaves no more numbers than operators. -/
theorem MisplacesOperator.counts (hmisplaces : text.MisplacesOperator) (hplain : text.IsPlain) :
    Cursor.numbers ⟨0, text⟩ ≤ Cursor.operators ⟨0, text⟩ ∧
      0 < Cursor.operators ⟨0, text⟩ := by
  obtain ⟨before, applied, after, rfl, hplace⟩ := hmisplaces
  obtain ⟨hbefore, hafter⟩ := hplain.parts
  obtain ⟨position, hnumbers, hoperators⟩ := counts_around before applied after
  have hleft := (Cursor.numbers_le_operators (tokenized_of_isAllowed hbefore.isAllowed)
    hbefore.separated 0).1
  have hright := Cursor.numbers_le_operators (tokenized_of_isAllowed hafter.isAllowed)
    hafter.separated position
  rw [hnumbers, hoperators]
  refine ⟨?_, by omega⟩
  rcases hplace with rfl | rfl | ⟨next, rest, rfl⟩
  · obtain ⟨hnone, -⟩ := Cursor.counts_nil 0
    omega
  · obtain ⟨hnone, -⟩ := Cursor.counts_nil position
    omega
  · have hbound := hright.2 (startsNoOperand_symbol next rest)
    omega

theorem alternates_iff (hne : text ≠ []) (hplain : text.IsPlain) (hruns : text.RunsAreLiterals) :
    text.Alternates ↔ ¬text.MisplacesOperator := by
  constructor
  · intro halternates hmisplaces
    have hcounts := halternates.counts 0
    have hbound := (hmisplaces.counts hplain).1
    omega
  · exact alternates_of_not_misplacesOperator hne hplain hruns

theorem IsLead.isExpression_append {lead literal : Text} (hlead : lead.IsLead)
    (hliteral : literal.IsLiteral) : IsExpression 1 (lead ++ literal) := by
  have hawaits : Awaits 0 lead := ⟨[], lead, rfl, .start, hlead⟩
  exact (hawaits.operand hliteral.isExpression).isExpression

/-- Where an operand is to follow, numbers and operators in turn complete an expression. -/
theorem Alternates.isExpression_append (halternates : text.Alternates) {lead : Text}
    (hlead : lead.IsLead) : IsExpression 1 (lead ++ text) := by
  induction halternates generalizing lead with
  | number hliteral => exact hlead.isExpression_append hliteral
  | @operator literal rest hliteral applied _ ih =>
      have hleft := hlead.isExpression_append hliteral
      have hexpression := ih (Or.inr ⟨lead ++ literal, applied, rfl, hleft⟩)
      simpa using hexpression

end Counts

end Text

theorem Rpn.sound_of_ofText {text : Text} {rpn : Rpn} (hconverts : Rpn.ofText text = .ok rpn)
    (hruns : text.RunsAreLiterals) : Rpn.Sound rpn.tokens := by
  intro token hmem
  have hfound := (Rpn.perm_tokens_of_ofText hconverts).subset hmem
  rw [withoutParens, List.mem_filter, Bool.not_eq_true'] at hfound
  exact ⟨hfound.2, Text.runsAreLiterals_iff.1 hruns token hfound.1⟩

/-- An expression fails at a division or a root, if at all. -/
theorem Text.IsExpression.isArithmetic_of_calculate {text : Text}
    (hexpression : text.IsExpression 1) {fault : Fault} (hfails : calculate text = .error fault) :
    fault.cause.IsArithmetic := by
  obtain ⟨tree, hwritten, hliterals⟩ := hexpression 0
  have hparses : Expr.Parses text tree := hwritten
  rw [calculate_of_convert hparses.convert, Rpn.evaluate,
    Rpn.foldlM_postorder text hliterals] at hfails
  cases hvalue : tree.evaluate text with
  | ok value =>
      rw [hvalue] at hfails
      cases hfails
  | error found =>
      rw [hvalue] at hfails
      cases hfails
      obtain hcause | ⟨radicand, hnegative, hcause⟩ :=
        Expr.cause_of_evaluate_eq_error hliterals hvalue
      · rw [hcause]
        exact .divisionByZero
      · rw [hcause]
        exact .negativeRoot hnegative

theorem Text.Alternates.isArithmetic_of_calculate {text : Text} (halternates : text.Alternates)
    {fault : Fault} (hfails : calculate text = .error fault) : fault.cause.IsArithmetic := by
  have hexpression : text.IsExpression 1 := halternates.isExpression_append (Or.inl rfl)
  exact hexpression.isArithmetic_of_calculate hfails

theorem Text.MisplacesOperator.exists_lacksOperand {text : Text}
    (hmisplaces : text.MisplacesOperator) (hplain : text.IsPlain) (hruns : text.RunsAreLiterals) :
    ∃ rpn front token, Rpn.ofText text = .ok rpn ∧ Rpn.LacksOperand rpn.tokens front token ∧
      (calculate text = .error (token.fault text (.missingOperands token.literal)) ∨
        ∃ before earlier cause, before ++ [earlier] <+: front ∧
          Rpn.Offends text before earlier cause ∧
          calculate text = .error (earlier.fault text cause)) := by
  obtain ⟨rpn, hconverts⟩ := Rpn.exists_ofText_of_balanced hplain.isAllowed hplain.balanced
  have hcalculate := calculate_of_convert (convert_eq_ok_iff.2 ⟨hplain.isAllowed, hconverts⟩)
  obtain ⟨hshort, hpositive⟩ := hmisplaces.counts hplain
  obtain ⟨hnumbers, hoperators⟩ := Rpn.countP_of_ofText hconverts
  rw [← hnumbers, ← hoperators] at hshort
  rw [← hoperators] at hpositive
  have hsound := Rpn.sound_of_ofText hconverts hruns
  obtain ⟨front, token, hlacks, hfails⟩ := hsound.exists_lacksOperand hpositive hshort
  rw [← hcalculate, Rpn.source_of_ofText hconverts] at hfails
  exact ⟨rpn, front, token, hconverts, hlacks, hfails⟩

theorem Text.IsPlain.cause_of_calculate {text : Text} (hplain : text.IsPlain) (hne : text ≠ [])
    (hruns : text.RunsAreLiterals) {fault : Fault} (hfails : calculate text = .error fault) :
    (∃ literal, fault.cause = .missingOperands literal) ∨ fault.cause.IsArithmetic := by
  by_cases hmisplaces : text.MisplacesOperator
  · obtain ⟨-, -, token, -, -, hmissing | ⟨before, earlier, cause, -, hoffends, hearlier⟩⟩ :=
      hmisplaces.exists_lacksOperand hplain hruns
    · cases hfails.symm.trans hmissing
      exact Or.inl ⟨_, rfl⟩
    · cases hfails.symm.trans hearlier
      exact Or.inr hoffends.isArithmetic
  · have halternates := Text.alternates_of_not_misplacesOperator hne hplain hruns hmisplaces
    exact Or.inr (halternates.isArithmetic_of_calculate hfails)

/-- In a text of literals and operators, numbers and operators take turns, or an operator is out
of place.  In the first case the text has a value or fails at a division or a root.  In the second
it has none: the postfix form has a first operator that lacks an operand, and the run fails there,
or before it at a division or a root.  It never fails at a token that is no operator, nor at the
end for the number of values. -/
theorem calculate_of_isPlain {text : Text} (hne : text ≠ []) (hplain : text.IsPlain)
    (hruns : text.RunsAreLiterals) :
    (text.Alternates ↔ ¬text.MisplacesOperator) ∧
      (text.Alternates → (∃ value, calculate text = .ok value) ∨
        ∃ fault, calculate text = .error fault ∧ fault.cause.IsArithmetic) ∧
      (text.MisplacesOperator → ∃ rpn front token, Rpn.ofText text = .ok rpn ∧
        Rpn.LacksOperand rpn.tokens front token ∧
        (calculate text = .error (token.fault text (.missingOperands token.literal)) ∨
          ∃ before earlier cause, before ++ [earlier] <+: front ∧
            Rpn.Offends text before earlier cause ∧ cause.IsArithmetic ∧
            calculate text = .error (earlier.fault text cause))) ∧
      ∀ fault, calculate text = .error fault →
        (∀ literal, fault.cause ≠ .unknownOperator literal) ∧
          ∀ count, fault.cause ≠ .leftoverValues count := by
  have hplaces := Text.alternates_iff hne hplain hruns
  refine ⟨hplaces, fun halternates => ?_, fun hmisplaces => ?_, fun fault hfails => ?_⟩
  · cases houtcome : calculate text with
    | ok value => exact Or.inl ⟨value, rfl⟩
    | error fault =>
        exact Or.inr ⟨fault, rfl, halternates.isArithmetic_of_calculate houtcome⟩
  · obtain ⟨rpn, front, token, hconverts, hlacks, hfails⟩ :=
      hmisplaces.exists_lacksOperand hplain hruns
    refine ⟨rpn, front, token, hconverts, hlacks, hfails.imp_right ?_⟩
    rintro ⟨before, earlier, cause, hearlier, hoffends, hfault⟩
    exact ⟨before, earlier, cause, hearlier, hoffends, hoffends.isArithmetic, hfault⟩
  · obtain ⟨literal, hcause⟩ | hcause := hplain.cause_of_calculate hne hruns hfails
    · rw [hcause]
      exact ⟨fun _ => Cause.noConfusion, fun _ => Cause.noConfusion⟩
    · generalize fault.cause = cause at hcause
      cases hcause with
      | divisionByZero => exact ⟨fun _ => Cause.noConfusion, fun _ => Cause.noConfusion⟩
      | negativeRoot => exact ⟨fun _ => Cause.noConfusion, fun _ => Cause.noConfusion⟩

/-- The product lacks an operand, but the quotient comes before it and divides by zero. -/
theorem calculate_of_isPlain_quotient :
    ∃ rpn front token before earlier,
      Rpn.ofText ['1', '/', '0', '+', '*', '2'] = .ok rpn ∧
        Rpn.LacksOperand rpn.tokens front token ∧ before ++ [earlier] <+: front ∧
        Rpn.Offends ['1', '/', '0', '+', '*', '2'] before earlier .divisionByZero ∧
        calculate ['1', '/', '0', '+', '*', '2'] =
          .error (earlier.fault ['1', '/', '0', '+', '*', '2'] .divisionByZero) := by
  have hdivision : calculate ['1', '/', '0', '+', '*', '2'] =
      .error ⟨.divisionByZero, ⟨1, 1⟩, ['1', '/', '0', '+', '*', '2']⟩ := by
    decide +kernel
  have hmisplaces : Text.MisplacesOperator ['1', '/', '0', '+', '*', '2'] :=
    ⟨['1', '/', '0'], .plus, ['*', '2'], rfl, Or.inr (Or.inr ⟨.star, ['2'], rfl⟩)⟩
  obtain ⟨rpn, front, token, hconverts, hlacks, hmissing | ⟨before, earlier, cause, hearlier,
    hoffends, -, hfails⟩⟩ := (calculate_of_isPlain (List.cons_ne_nil _ _) (by decide)
      (by decide +kernel)).2.2.1 hmisplaces
  · rw [hdivision] at hmissing
    cases hmissing
  · have hcause : cause = .divisionByZero := by
      have hsame := Except.error.inj (hdivision.symm.trans hfails)
      exact (congrArg Fault.cause hsame).symm
    subst hcause
    exact ⟨rpn, front, token, before, earlier, hconverts, hlacks, hearlier, hoffends, hfails⟩

end Calculator

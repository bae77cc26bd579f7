import Calculator.Proofs.OutputOrder
import Calculator.Proofs.TreeValue
import Calculator.Proofs.Words

/-!
# What a postfix sequence comes to

How many values there are behind each token can be counted on the tokens alone: a literal
adds one, and an operator puts one in the place of two.  The first token that this count or
its own literal forbids ends a run, unless an operator before it divides by zero or takes
the root of a negative value; the operands of an operator are the last two trees that the
tokens before it grow.  A run that is not ended has a value exactly if the count comes to
one.
-/

namespace Calculator

namespace Token

/-- What a token adds to the number of values. -/
def gain (token : Token) : Int :=
  match token.kind with
  | .number => if token.literal.IsLiteral then 1 else 0
  | .operator _ => -1
  | _ => 0

/-- Behind so many values the token cannot be run, whatever they are: it is an operator that
lacks an operand, or it is none and does not read as a number. -/
def IsBlocked (count : Int) (token : Token) : Prop :=
  match token.kind with
  | .number => ¬token.literal.IsLiteral
  | .operator _ => count < 2
  | _ => True

theorem IsBlocked.value?_eq_none {count : Int} {token : Token} (hblocked : token.IsBlocked count) :
    token.value? = none := by
  rw [Option.eq_none_iff_forall_ne_some]
  intro value hvalue
  obtain ⟨hkind, hliteral⟩ := isLiteral_of_value? hvalue
  rw [IsBlocked, hkind] at hblocked
  exact hblocked hliteral

end Token

namespace Rpn

/-- The number of values behind these tokens. -/
def count (tokens : List Token) : Int :=
  tokens.foldl (fun count token => count + token.gain) 0

/-- The trees that these tokens grow, the last one first. -/
def trees (tokens : List Token) : List Expr :=
  tokens.foldl Expr.regrow []

/-- The operator behind `front` divides by zero, or takes the root of a negative value. -/
inductive Offends (source : Text) (front : List Token) (token : Token) : Cause → Prop
  | divisionByZero {left right : Expr} {below : List Expr} {divisor : Binary64}
      (hkind : token.kind = .operator .slash) (htrees : trees front = right :: left :: below)
      (hdivisor : right.evaluate source = .ok divisor) (hzero : divisor.isZero = true) :
      Offends source front token .divisionByZero
  | negativeRoot {left right : Expr} {below : List Expr} {radicand : Binary64}
      (hkind : token.kind = .operator .root) (htrees : trees front = right :: left :: below)
      (hradicand : left.evaluate source = .ok radicand)
      (hnegative : radicand.isNegative = true) :
      Offends source front token (.negativeRoot radicand)

/-- The property holds of every token, together with those before it. -/
def Throughout (property : List Token → Token → Prop) (tokens : List Token) : Prop :=
  ∀ front token, front ++ [token] <+: tokens → property front token

def Unblocked (tokens : List Token) : Prop :=
  Throughout (fun front token => ¬token.IsBlocked (count front)) tokens

def Inoffensive (source : Text) (tokens : List Token) : Prop :=
  Throughout (fun front token => ∀ cause, ¬Offends source front token cause) tokens

/-- The outcome that the tokens of a sequence determine. -/
inductive Verdict (source : Text) (tokens : List Token) : Except Fault Binary64 → Prop
  /-- The first operator that offends comes before every token that is blocked. -/
  | offence {front : List Token} {token : Token} {cause : Cause}
      (hplace : front ++ [token] <+: tokens) (hunblocked : Unblocked (front ++ [token]))
      (hinoffensive : Inoffensive source front) (hoffends : Offends source front token cause) :
      Verdict source tokens (.error (token.fault source cause))
  /-- No operator offends before the first token that is blocked, and there are fewer than
  two values for it. -/
  | missingOperands {front : List Token} {token : Token} (hplace : front ++ [token] <+: tokens)
      (hunblocked : Unblocked front) (hinoffensive : Inoffensive source front)
      (hblocked : token.IsBlocked (count front)) (hcount : count front < 2) :
      Verdict source tokens (.error (token.fault source (.missingOperands token.literal)))
  /-- No operator offends before the first token that is blocked, and there are two values for
  it, so it is none. -/
  | unknownOperator {front : List Token} {token : Token} (hplace : front ++ [token] <+: tokens)
      (hunblocked : Unblocked front) (hinoffensive : Inoffensive source front)
      (hblocked : token.IsBlocked (count front)) (hcount : 2 ≤ count front) :
      Verdict source tokens (.error (token.fault source (.unknownOperator token.literal)))
  /-- One value is left, that of the only tree. -/
  | value {tree : Expr} {value : Binary64} (hunblocked : Unblocked tokens)
      (hinoffensive : Inoffensive source tokens) (hcount : count tokens = 1)
      (htrees : trees tokens = [tree]) (hvalue : tree.evaluate source = .ok value) :
      Verdict source tokens (.ok value)
  | leftoverValues {remaining : Nat} (hunblocked : Unblocked tokens)
      (hinoffensive : Inoffensive source tokens) (hcount : count tokens = remaining)
      (hremaining : remaining ≠ 1) :
      Verdict source tokens
        (.error ⟨.leftoverValues remaining, ⟨0, source.byteLength⟩, source⟩)

theorem count_concat (front : List Token) (token : Token) :
    count (front ++ [token]) = count front + token.gain := by
  simp [count]

theorem trees_concat (front : List Token) (token : Token) :
    trees (front ++ [token]) = Expr.regrow (trees front) token := by
  simp [trees]

section Throughout

variable {property : List Token → Token → Prop}

@[simp]
theorem throughout_nil : Throughout property [] := by
  intro front token hplace
  simp at hplace

theorem throughout_concat {front : List Token} {token : Token} :
    Throughout property (front ++ [token]) ↔ Throughout property front ∧ property front token := by
  constructor
  · intro hholds
    refine ⟨fun before earlier hplace => ?_, hholds front token (List.prefix_refl _)⟩
    exact hholds before earlier (hplace.trans (List.prefix_append front [token]))
  · rintro ⟨hfront, hlast⟩ before earlier hplace
    rcases List.prefix_concat_iff.1 hplace with heq | hplace
    · obtain ⟨rfl, hsame⟩ := List.append_inj' heq rfl
      rwa [List.singleton_inj.1 hsame]
    · exact hfront before earlier hplace

end Throughout

section Values

variable {source : Text} {front tokens : List Token} {token : Token} {stack : List Binary64}

/-- The values are those of the trees, in the same order. -/
def Holds (source : Text) (trees : List Expr) (stack : List Binary64) : Prop :=
  List.Forall₂ (fun tree value => tree.evaluate source = .ok value) trees stack

theorem Holds.exists_operands (hholds : Holds source (trees front) stack)
    (hlength : 2 ≤ stack.length) :
    ∃ leftTree rightTree treesBelow left right below,
      trees front = rightTree :: leftTree :: treesBelow ∧ stack = right :: left :: below ∧
        leftTree.evaluate source = .ok left ∧ rightTree.evaluate source = .ok right ∧
        Holds source treesBelow below := by
  match stack, hlength with
  | right :: left :: below, _ =>
      obtain ⟨rightTree, rest, hright, hrest, htrees⟩ := List.forall₂_cons_right_iff.1 hholds
      obtain ⟨leftTree, treesBelow, hleft, hbelow, rfl⟩ := List.forall₂_cons_right_iff.1 hrest
      exact ⟨leftTree, rightTree, treesBelow, left, right, below, htrees, rfl, hleft, hright,
        hbelow⟩

/-- A token that is not blocked and does not offend goes from the values of the trees before
it to those of the trees behind it. -/
theorem exists_step (hholds : Holds source (trees front) stack)
    (hcount : count front = stack.length) (hblocked : ¬token.IsBlocked (count front))
    (hoffends : ∀ cause, ¬Offends source front token cause) :
    ∃ next, step source stack token = .ok next ∧
      count (front ++ [token]) = next.length ∧
      Holds source (trees (front ++ [token])) next := by
  rcases token with ⟨kind, literal, offset⟩
  rw [count_concat, trees_concat, hcount]
  cases kind with
  | number =>
      have hliteral : literal.IsLiteral := not_not.1 hblocked
      obtain ⟨decimal, hread⟩ := Decimal.exists_ofText?_eq_some hliteral
      refine ⟨_, step_number source stack hread offset, ?_, .cons ?_ hholds⟩
      · simp [Token.gain, hliteral]
      · simp [Expr.evaluate, hread]
  | operator applied =>
      have hlength : 2 ≤ stack.length := by
        have : ¬count front < 2 := hblocked
        omega
      obtain ⟨leftTree, rightTree, treesBelow, left, right, below, htrees, rfl, hleft, hright,
        hbelow⟩ := hholds.exists_operands hlength
      obtain ⟨value, hvalue⟩ : ∃ value, applied.apply left right = .ok value := by
        cases happly : applied.apply left right with
        | ok value => exact ⟨value, rfl⟩
        | error cause =>
            obtain ⟨rfl, hzero, rfl⟩ | ⟨rfl, hnegative, rfl⟩ :=
              Operator.apply_eq_error_iff.1 happly
            · exact absurd (.divisionByZero rfl htrees hright hzero) (hoffends _)
            · exact absurd (.negativeRoot rfl htrees hleft hnegative) (hoffends _)
      refine ⟨value :: below, ?_, ?_, ?_⟩
      · rw [step_operator, hvalue]
      · simp only [Token.gain, List.length_cons]
        omega
      · rw [htrees]
        refine .cons ?_ hbelow
        rw [Expr.evaluate_binary hleft hright, hvalue]
        rfl
  | leftParen => exact absurd trivial hblocked
  | rightParen => exact absurd trivial hblocked

/-- A run takes in tokens of which none is blocked and none offends.  It holds as many values
as the count says, and they are the values of the trees. -/
theorem exists_run (hunblocked : Unblocked tokens) (hinoffensive : Inoffensive source tokens) :
    ∃ stack, tokens.foldlM (step source) [] = .ok stack ∧ count tokens = stack.length ∧
      Holds source (trees tokens) stack := by
  induction tokens using List.reverseRecOn with
  | nil => exact ⟨[], rfl, rfl, .nil⟩
  | append_singleton front token ih =>
      obtain ⟨hunblocked, hblocked⟩ := throughout_concat.1 hunblocked
      obtain ⟨hinoffensive, hoffends⟩ := throughout_concat.1 hinoffensive
      obtain ⟨stack, hrun, hcount, hholds⟩ := ih hunblocked hinoffensive
      obtain ⟨next, hstep, hnext⟩ := exists_step hholds hcount hblocked hoffends
      refine ⟨next, ?_, hnext⟩
      exact foldlM_append_eq_ok_iff.2
        ⟨stack, hrun, foldlM_cons_eq_ok_iff.2 ⟨next, hstep, rfl⟩⟩

theorem Holds.exists_values {left right : Expr} {below : List Expr}
    (hholds : Holds source (right :: left :: below) stack) :
    ∃ leftValue rightValue valuesBelow, stack = rightValue :: leftValue :: valuesBelow ∧
      left.evaluate source = .ok leftValue ∧ right.evaluate source = .ok rightValue := by
  obtain ⟨rightValue, rest, hright, hrest, rfl⟩ := List.forall₂_cons_left_iff.1 hholds
  obtain ⟨leftValue, valuesBelow, hleft, -, rfl⟩ := List.forall₂_cons_left_iff.1 hrest
  exact ⟨leftValue, rightValue, valuesBelow, rfl, hleft, hright⟩

/-- On the values of the trees before it, an operator that offends fails for its cause. -/
theorem Offends.step_eq {cause : Cause} (hoffends : Offends source front token cause)
    (hholds : Holds source (trees front) stack) :
    step source stack token = .error (token.fault source cause) := by
  rcases token with ⟨kind, literal, offset⟩
  cases hoffends with
  | divisionByZero hkind htrees hdivisor hzero =>
      cases hkind
      rw [htrees] at hholds
      obtain ⟨left, right, below, rfl, -, hright⟩ := hholds.exists_values
      rw [hdivisor, Except.ok.injEq] at hright
      subst hright
      have happly : Operator.slash.apply left _ = .error .divisionByZero :=
        Operator.apply_eq_error_iff.2 (Or.inl ⟨rfl, hzero, rfl⟩)
      rw [step_operator, happly]
      rfl
  | @negativeRoot _ _ _ radicand hkind htrees hradicand hnegative =>
      cases hkind
      rw [htrees] at hholds
      obtain ⟨left, right, below, rfl, hleft, -⟩ := hholds.exists_values
      rw [hradicand, Except.ok.injEq] at hleft
      subst hleft
      have happly : Operator.root.apply radicand right = .error (.negativeRoot radicand) :=
        Operator.apply_eq_error_iff.2 (Or.inr ⟨rfl, hnegative, rfl⟩)
      rw [step_operator, happly]
      rfl

/-- A token that is blocked fails before its operands are looked at. -/
theorem step_of_isBlocked (source : Text) (hblocked : token.IsBlocked stack.length) :
    step source stack token = .error (token.fault source
      (if stack.length < 2 then .missingOperands token.literal
        else .unknownOperator token.literal)) := by
  have hvalue : token.value? = none := hblocked.value?_eq_none
  unfold step
  match stack with
  | [] => simp [hvalue]
  | [_] => simp [hvalue]
  | right :: left :: below =>
      have hcombine : token.combine left right = .error (.unknownOperator token.literal) := by
        unfold Token.combine
        split
        · next applied hkind =>
            -- An operator is blocked only while an operand is missing.
            rw [Token.IsBlocked, hkind] at hblocked
            simp only [List.length_cons] at hblocked
            omega
        · rfl
      have hlength : ¬below.length + 1 + 1 < 2 := by omega
      simp [hvalue, hcombine, hlength]

/-- A run goes on to the first token that is blocked or offends, and fails there. -/
theorem evaluate_eq_error_of_place {rpn : Rpn} {fault : Fault}
    (hplace : front ++ [token] <+: rpn.tokens) (hunblocked : Unblocked front)
    (hinoffensive : Inoffensive rpn.source front)
    (hfails : ∀ stack, count front = stack.length → Holds rpn.source (trees front) stack →
      step rpn.source stack token = .error fault) :
    rpn.evaluate = .error fault := by
  obtain ⟨back, htokens⟩ := hplace
  obtain ⟨stack, hrun, hcount, hholds⟩ := exists_run hunblocked hinoffensive
  rw [List.append_assoc, List.singleton_append] at htokens
  exact evaluate_eq_error_of_step htokens.symm hrun (hfails stack hcount hholds)

theorem result_of_length_ne_one (source : Text) (hlength : stack.length ≠ 1) :
    result source stack =
      .error ⟨.leftoverValues stack.length, ⟨0, source.byteLength⟩, source⟩ := by
  match stack with
  | [] => rfl
  | [_] => exact absurd rfl hlength
  | _ :: _ :: _ => rfl

end Values

theorem evaluate_of_run {rpn : Rpn} {stack : List Binary64}
    (hrun : rpn.tokens.foldlM (step rpn.source) [] = .ok stack) :
    rpn.evaluate = result rpn.source stack := by
  rw [evaluate, hrun]
  rfl

/-- A run has the outcome that its tokens determine. -/
theorem evaluate_of_verdict {rpn : Rpn} {outcome : Except Fault Binary64}
    (hverdict : Verdict rpn.source rpn.tokens outcome) : rpn.evaluate = outcome := by
  cases hverdict with
  | offence hplace hunblocked hinoffensive hoffends =>
      have hfront := (throughout_concat.1 hunblocked).1
      exact evaluate_eq_error_of_place hplace hfront hinoffensive
        fun stack _ hholds => hoffends.step_eq hholds
  | missingOperands hplace hunblocked hinoffensive hblocked hcount =>
      refine evaluate_eq_error_of_place hplace hunblocked hinoffensive fun stack hlength _ => ?_
      rw [step_of_isBlocked rpn.source (hlength ▸ hblocked), if_pos (by omega)]
  | unknownOperator hplace hunblocked hinoffensive hblocked hcount =>
      refine evaluate_eq_error_of_place hplace hunblocked hinoffensive fun stack hlength _ => ?_
      rw [step_of_isBlocked rpn.source (hlength ▸ hblocked), if_neg (by omega)]
  | value hunblocked hinoffensive hcount htrees hvalue =>
      obtain ⟨stack, hrun, -, hholds⟩ := exists_run hunblocked hinoffensive
      rw [htrees] at hholds
      obtain ⟨last, rest, hlast, hrest, rfl⟩ := List.forall₂_cons_left_iff.1 hholds
      rw [hvalue, Except.ok.injEq] at hlast
      rw [List.forall₂_nil_left_iff.1 hrest] at hrun
      rw [evaluate_of_run hrun, hlast]
      rfl
  | @leftoverValues remaining hunblocked hinoffensive hcount hremaining =>
      obtain ⟨stack, hrun, hlength, -⟩ := exists_run hunblocked hinoffensive
      have hsame : stack.length = remaining := by omega
      rw [evaluate_of_run hrun, result_of_length_ne_one _ (by omega), hsame]

/-- Either some token ends the run, whatever comes behind it, or none does. -/
theorem exists_verdict_or (source : Text) (tokens : List Token) :
    (∃ fault, ∀ more, Verdict source (tokens ++ more) (.error fault)) ∨
      Unblocked tokens ∧ Inoffensive source tokens := by
  induction tokens using List.reverseRecOn with
  | nil => exact Or.inr ⟨throughout_nil, throughout_nil⟩
  | append_singleton front token ih =>
      rcases ih with ⟨fault, hfault⟩ | ⟨hunblocked, hinoffensive⟩
      · refine Or.inl ⟨fault, fun more => ?_⟩
        rw [List.append_assoc]
        exact hfault _
      have hplace : ∀ more, front ++ [token] <+: front ++ [token] ++ more :=
        List.prefix_append _
      -- What the operands are counts only for a token that is not blocked.
      by_cases hblocked : token.IsBlocked (count front)
      · by_cases hcount : count front < 2
        · exact Or.inl ⟨_, fun more =>
            .missingOperands (hplace more) hunblocked hinoffensive hblocked hcount⟩
        · exact Or.inl ⟨_, fun more =>
            .unknownOperator (hplace more) hunblocked hinoffensive hblocked (by omega)⟩
      · have hextended : Unblocked (front ++ [token]) :=
          throughout_concat.2 ⟨hunblocked, hblocked⟩
        by_cases hoffends : ∃ cause, Offends source front token cause
        · obtain ⟨cause, hoffends⟩ := hoffends
          exact Or.inl ⟨_, fun more =>
            .offence (hplace more) hextended hinoffensive hoffends⟩
        · exact Or.inr ⟨hextended,
            throughout_concat.2 ⟨hinoffensive, not_exists.1 hoffends⟩⟩

/-- The tokens of every sequence determine an outcome. -/
theorem exists_verdict (source : Text) (tokens : List Token) :
    ∃ outcome, Verdict source tokens outcome := by
  rcases exists_verdict_or source tokens with ⟨fault, hfault⟩ | ⟨hunblocked, hinoffensive⟩
  · have hverdict := hfault []
    rw [List.append_nil] at hverdict
    exact ⟨_, hverdict⟩
  · obtain ⟨stack, -, hcount, hholds⟩ := exists_run hunblocked hinoffensive
    by_cases hlength : stack.length = 1
    · obtain ⟨value, rfl⟩ := List.length_eq_one_iff.1 hlength
      obtain ⟨tree, rest, hvalue, hrest, htrees⟩ := List.forall₂_cons_right_iff.1 hholds
      rw [List.forall₂_nil_right_iff.1 hrest] at htrees
      exact ⟨_, .value hunblocked hinoffensive hcount htrees hvalue⟩
    · exact ⟨_, .leftoverValues hunblocked hinoffensive hcount hlength⟩

theorem evaluate_eq_iff (rpn : Rpn) (outcome : Except Fault Binary64) :
    rpn.evaluate = outcome ↔ Verdict rpn.source rpn.tokens outcome := by
  constructor
  · rintro rfl
    obtain ⟨outcome, hverdict⟩ := exists_verdict rpn.source rpn.tokens
    rwa [evaluate_of_verdict hverdict]
  · exact evaluate_of_verdict

/-- The token that an unknown operator names is one of the sequence, and not an operator. -/
theorem Verdict.exists_unknownOperator {source literal : Text} {tokens : List Token}
    {fault : Fault} (hverdict : Verdict source tokens (.error fault))
    (hcause : fault.cause = .unknownOperator literal) :
    ∃ token ∈ tokens, token.literal = literal ∧ fault.span = token.span ∧
      (∀ applied, token.kind ≠ .operator applied) ∧
      (token.kind = .number → ¬token.literal.IsLiteral) := by
  cases hverdict with
  | offence hplace hunblocked hinoffensive hoffends => cases hoffends <;> cases hcause
  | missingOperands hplace hunblocked hinoffensive hblocked hcount => cases hcause
  | @unknownOperator front token hplace hunblocked hinoffensive hblocked hcount =>
      cases hcause
      refine ⟨token, hplace.subset (by simp), rfl, rfl, fun applied hkind => ?_, fun hkind => ?_⟩
      · rw [Token.IsBlocked, hkind] at hblocked
        simp only at hblocked
        omega
      · rwa [Token.IsBlocked, hkind] at hblocked
  | leftoverValues hunblocked hinoffensive hcount hremaining => cases hcause

theorem not_unblocked_of_mem {tokens : List Token} {token : Token} (hmem : token ∈ tokens)
    (hkind : token.kind = .number) (hliteral : ¬token.literal.IsLiteral) :
    ¬Unblocked tokens := by
  intro hunblocked
  obtain ⟨front, back, rfl⟩ := List.append_of_mem hmem
  refine hunblocked front token ⟨back, by simp⟩ ?_
  rwa [Token.IsBlocked, hkind]

/-- A sequence of which some token is blocked fails at one of its tokens. -/
theorem Verdict.exists_error_of_blocked {source : Text} {tokens : List Token}
    {outcome : Except Fault Binary64} (hverdict : Verdict source tokens outcome)
    (hblocked : ¬Unblocked tokens) :
    ∃ fault, outcome = .error fault ∧ ∀ count, fault.cause ≠ .leftoverValues count := by
  cases hverdict with
  | offence hplace hunblocked hinoffensive hoffends =>
      cases hoffends <;> exact ⟨_, rfl, fun count => Cause.noConfusion⟩
  | missingOperands => exact ⟨_, rfl, fun count => Cause.noConfusion⟩
  | unknownOperator => exact ⟨_, rfl, fun count => Cause.noConfusion⟩
  | value hunblocked => exact absurd hunblocked hblocked
  | leftoverValues hunblocked => exact absurd hunblocked hblocked

end Rpn

/-- What the postfix form of a text comes to is read off its tokens: from how many values
there are behind each of them, which literals are numbers, and which operators offend.  An
unknown operator is always a run of digits and points that is no number, and a text with
such a run fails at a token, whatever else it is made of. -/
theorem evaluate_eq_iff_verdict {text : Text} {rpn : Rpn} (hconverts : Rpn.ofText text = .ok rpn) :
    (∀ outcome, rpn.evaluate = outcome ↔ Rpn.Verdict text rpn.tokens outcome) ∧
      (∀ fault literal, rpn.evaluate = .error fault → fault.cause = .unknownOperator literal →
        literal.IsRun ∧ ¬literal.IsLiteral ∧
          ∃ token ∈ rpn.tokens, token.kind = .number ∧ token.literal = literal ∧
            fault.span = token.span) ∧
      ∀ token ∈ (Cursor.start text).tokens, token.kind = .number → ¬token.literal.IsLiteral →
        ∃ fault, rpn.evaluate = .error fault ∧ ∀ count, fault.cause ≠ .leftoverValues count := by
  have hverdict : ∀ outcome, rpn.evaluate = outcome ↔ Rpn.Verdict text rpn.tokens outcome := by
    intro outcome
    rw [Rpn.evaluate_eq_iff, Rpn.source_of_ofText hconverts]
  have hperm := Rpn.perm_tokens_of_ofText hconverts
  refine ⟨hverdict, ?_, ?_⟩
  · intro fault literal hfault hcause
    obtain ⟨token, hmem, rfl, hspan, hoperator, hnumber⟩ :=
      ((hverdict _).1 hfault).exists_unknownOperator hcause
    have hparen : token.isParen = false := by
      simpa using (List.mem_filter.1 (hperm.subset hmem)).2
    have hkind : token.kind = .number := by
      unfold Token.isParen at hparen
      cases hkind : token.kind with
      | number => rfl
      | operator applied => exact absurd hkind (hoperator applied)
      | leftParen => simp [hkind] at hparen
      | rightParen => simp [hkind] at hparen
    have hspelled := Rpn.isSpelled_of_mem hconverts token hmem
    rw [Token.IsSpelled, hkind] at hspelled
    exact ⟨hspelled, hnumber hkind, token, hmem, hkind, rfl, hspan⟩
  · intro token hmem hkind hliteral
    have hparen : token.isParen = false := by simp [Token.isParen, hkind]
    have hplace : token ∈ rpn.tokens :=
      hperm.symm.subset (List.mem_filter.2 ⟨hmem, by simp [hparen]⟩)
    exact ((hverdict _).1 rfl).exists_error_of_blocked
      (Rpn.not_unblocked_of_mem hplace hkind hliteral)

/-- A number with two points behind two values. -/
theorem evaluate_eq_iff_verdict_points :
    ∃ rpn, Rpn.ofText ['(', '1', ')', '(', '2', ')', '.', '3', '.'] = .ok rpn ∧
      Rpn.Verdict ['(', '1', ')', '(', '2', ')', '.', '3', '.'] rpn.tokens
        (.error ⟨.unknownOperator ['.', '3', '.'], ⟨6, 3⟩,
          ['(', '1', ')', '(', '2', ')', '.', '3', '.']⟩) ∧
      (∃ token ∈ rpn.tokens, token.kind = .number ∧ token.literal = ['.', '3', '.'] ∧
        (⟨6, 3⟩ : Span) = token.span) ∧
      ∃ fault, rpn.evaluate = .error fault ∧ ∀ count, fault.cause ≠ .leftoverValues count := by
  have hconverts : Rpn.ofText ['(', '1', ')', '(', '2', ')', '.', '3', '.'] =
      .ok ⟨['(', '1', ')', '(', '2', ')', '.', '3', '.'],
        [⟨.number, ['1'], 1⟩, ⟨.number, ['2'], 4⟩, ⟨.number, ['.', '3', '.'], 6⟩]⟩ := by
    decide +kernel
  have hfault : Rpn.evaluate ⟨['(', '1', ')', '(', '2', ')', '.', '3', '.'],
      [⟨.number, ['1'], 1⟩, ⟨.number, ['2'], 4⟩, ⟨.number, ['.', '3', '.'], 6⟩]⟩ =
      .error ⟨.unknownOperator ['.', '3', '.'], ⟨6, 3⟩,
        ['(', '1', ')', '(', '2', ')', '.', '3', '.']⟩ := by
    decide +kernel
  have hmalformed : (⟨.number, ['.', '3', '.'], 6⟩ : Token) ∈
      (Cursor.start ['(', '1', ')', '(', '2', ')', '.', '3', '.']).tokens := by
    decide +kernel
  obtain ⟨hverdict, hnamed, hfails⟩ := evaluate_eq_iff_verdict hconverts
  exact ⟨_, hconverts, (hverdict _).1 hfault, (hnamed _ _ hfault rfl).2.2,
    hfails _ hmalformed rfl (by decide)⟩

end Calculator

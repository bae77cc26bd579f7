import Calculator.Proofs.Fallible
import Calculator.Proofs.Literal
import Calculator.Rpn.Evaluation

/-!
# What one token does to the stack

A literal pushes its value and an operator puts one value in the place of two;
nothing else succeeds.  So a run that succeeds has read every number, and each
operator of it has made the stack one value shorter.  A run that fails does so at
one token, or at the end.
-/

namespace Calculator

/-- Only a quotient and a root can fail, each for a cause of its own. -/
theorem Operator.apply_eq_error_iff {applied : Operator} {left right : Binary64} {cause : Cause} :
    applied.apply left right = .error cause ↔
      applied = .slash ∧ right.isZero = true ∧ cause = .divisionByZero ∨
        applied = .root ∧ left.isNegative = true ∧ cause = .negativeRoot left := by
  cases applied with
  | plus => simp [apply]
  | minus => simp [apply]
  | star => simp [apply]
  | slash =>
      by_cases hzero : right.isZero = true
      · simp only [apply, hzero, if_true, Except.error.injEq, true_and, reduceCtorEq,
          false_and, or_false]
        exact eq_comm
      · simp [apply, hzero]
  | caret => simp [apply]
  | root =>
      by_cases hnegative : left.isNegative = true
      · simp only [apply, hnegative, if_true, Except.error.injEq, true_and, reduceCtorEq,
          false_and, false_or]
        exact eq_comm
      · simp [apply, hnegative]

namespace Token

def isNumber (token : Token) : Bool :=
  token.kind == .number

def isOperator (token : Token) : Bool :=
  match token.kind with
  | .operator _ => true
  | _ => false

theorem isLiteral_of_value? {token : Token} {value : Binary64}
    (hvalue : token.value? = some value) :
    token.kind = .number ∧ token.literal.IsLiteral := by
  unfold value? at hvalue
  split at hvalue
  · next hkind =>
      obtain ⟨decimal, hread, -⟩ := Option.map_eq_some_iff.1 hvalue
      exact ⟨hkind, Decimal.isSome_ofText?_iff.1 (Option.isSome_of_eq_some hread)⟩
  · cases hvalue

end Token

namespace Rpn

theorem step_number (source : Text) (stack : List Binary64) {literal : Text} {decimal : Decimal}
    (hread : Decimal.ofText? literal = some decimal) (offset : Nat) :
    step source stack ⟨.number, literal, offset⟩ = .ok (decimal.toBinary64 :: stack) := by
  simp [step, Token.value?, hread]

theorem step_operator (source : Text) (below : List Binary64) (left right : Binary64)
    (applied : Operator) (literal : Text) (offset : Nat) :
    step source (right :: left :: below) ⟨.operator applied, literal, offset⟩ =
      match applied.apply left right with
      | .ok value => .ok (value :: below)
      | .error cause => .error ⟨cause, ⟨offset, literal.byteLength⟩, source⟩ := by
  rfl

/-- What the stack can become when a token is run. -/
inductive Reduces (stack : List Binary64) (token : Token) : List Binary64 → Prop
  | push {value : Binary64} (hvalue : token.value? = some value) :
      Reduces stack token (value :: stack)
  | combine {applied : Operator} {left right value : Binary64} {below : List Binary64}
      (hkind : token.kind = .operator applied) (hstack : stack = right :: left :: below)
      (happly : applied.apply left right = .ok value) :
      Reduces stack token (value :: below)

theorem reduces_of_step {source : Text} {stack next : List Binary64} {token : Token}
    (hstep : step source stack token = .ok next) : Reduces stack token next := by
  unfold step at hstep
  split at hstep
  · next value hvalue =>
      cases hstep
      exact .push hvalue
  · split at hstep
    · next right left below =>
        split at hstep
        · next value hcombine =>
            cases hstep
            unfold Token.combine at hcombine
            split at hcombine
            · next applied hkind => exact .combine hkind rfl hcombine
            · cases hcombine
        · cases hstep
    · cases hstep

theorem step_of_reduces {stack next : List Binary64} {token : Token}
    (hreduces : Reduces stack token next) (source : Text) :
    step source stack token = .ok next := by
  cases hreduces with
  | push hvalue =>
      unfold step
      rw [hvalue]
  | combine hkind hstack happly =>
      subst hstack
      have hnone : token.value? = none := by rw [Token.value?, hkind]
      unfold step
      simp only [hnone, Token.combine, hkind, happly]

/-- Why a token can fail on a stack. -/
inductive Fails (stack : List Binary64) (token : Token) : Cause → Prop
  | missingOperands (hvalue : token.value? = none) (hstack : stack.length < 2) :
      Fails stack token (.missingOperands token.literal)
  | unknownOperator (hvalue : token.value? = none)
      (hkind : ∀ applied, token.kind ≠ .operator applied) :
      Fails stack token (.unknownOperator token.literal)
  | divisionByZero {right : Binary64} {below : List Binary64}
      (hkind : token.kind = .operator .slash) (hstack : stack = right :: below)
      (hzero : right.isZero = true) : Fails stack token .divisionByZero
  | negativeRoot {right left : Binary64} {below : List Binary64}
      (hkind : token.kind = .operator .root) (hstack : stack = right :: left :: below)
      (hnegative : left.isNegative = true) : Fails stack token (.negativeRoot left)

theorem fails_of_combine {stack below : List Binary64} {left right : Binary64} {token : Token}
    {cause : Cause} (hvalue : token.value? = none) (hstack : stack = right :: left :: below)
    (hcombine : token.combine left right = .error cause) : Fails stack token cause := by
  unfold Token.combine at hcombine
  split at hcombine
  · next applied hkind =>
      obtain ⟨rfl, hzero, rfl⟩ | ⟨rfl, hnegative, rfl⟩ := Operator.apply_eq_error_iff.1 hcombine
      · exact .divisionByZero hkind hstack hzero
      · exact .negativeRoot hkind hstack hnegative
  · next hkind =>
      cases hcombine
      exact .unknownOperator hvalue hkind

/-- A token that fails is the one that its fault points at. -/
theorem fails_of_step {source : Text} {stack : List Binary64} {token : Token} {fault : Fault}
    (hstep : step source stack token = .error fault) :
    ∃ cause, Fails stack token cause ∧ fault = token.fault source cause := by
  unfold step at hstep
  split at hstep
  · cases hstep
  · next hvalue =>
      split at hstep
      · split at hstep
        · cases hstep
        · next cause hcombine =>
            cases hstep
            exact ⟨cause, fails_of_combine hvalue rfl hcombine, rfl⟩
      · next hshort =>
          cases hstep
          refine ⟨_, .missingOperands hvalue ?_, rfl⟩
          match stack with
          | [] => exact Nat.zero_lt_two
          | [_] => exact Nat.one_lt_two
          | right :: left :: below => exact absurd rfl (hshort right left below)

/-- What lies below the values that a token takes is left alone. -/
theorem Reduces.append {stack next : List Binary64} {token : Token}
    (hreduces : Reduces stack token next) (below : List Binary64) :
    Reduces (stack ++ below) token (next ++ below) := by
  cases hreduces with
  | push hvalue => exact .push hvalue
  | combine hkind hstack happly =>
      refine .combine hkind ?_ happly
      rw [hstack]
      rfl

/-- A run that succeeds goes the same way on top of other values. -/
theorem foldlM_step_append {source : Text} {tokens : List Token} {stack final : List Binary64}
    (hrun : tokens.foldlM (step source) stack = .ok final) (below : List Binary64) :
    tokens.foldlM (step source) (stack ++ below) = .ok (final ++ below) := by
  refine foldlM_induction (motive := fun stack tokens final =>
    tokens.foldlM (step source) (stack ++ below) = .ok (final ++ below)) ?_ ?_ hrun
  · intro stack
    rfl
  · intro stack next final token tokens hstep ih
    have hreduces := (reduces_of_step hstep).append below
    exact foldlM_cons_eq_ok_iff.2 ⟨_, step_of_reduces hreduces source, ih⟩

theorem result_eq_ok_iff {source : Text} {stack : List Binary64} {value : Binary64} :
    result source stack = .ok value ↔ stack = [value] := by
  match stack with
  | [] => simp [result]
  | [only] => simp [result]
  | _ :: _ :: _ => simp [result]

/-- A sequence has no value because one of its tokens fails, or because the values left are
not one. -/
theorem fails_of_evaluate {rpn : Rpn} {fault : Fault} (hfails : rpn.evaluate = .error fault) :
    (∃ token ∈ rpn.tokens, ∃ stack cause, Fails stack token cause ∧
        fault = token.fault rpn.source cause) ∨
      ∃ count, fault = ⟨.leftoverValues count, ⟨0, rpn.source.byteLength⟩, rpn.source⟩ := by
  obtain hrun | ⟨stack, -, hresult⟩ := bind_eq_error_iff.1 hfails
  · obtain ⟨front, token, back, stack, htokens, -, hstep⟩ := foldlM_eq_error hrun
    obtain ⟨cause, htoken, hfault⟩ := fails_of_step hstep
    refine Or.inl ⟨token, ?_, stack, cause, htoken, hfault⟩
    simp [htokens]
  · unfold result at hresult
    split at hresult
    · cases hresult
    · cases hresult
      exact Or.inr ⟨_, rfl⟩

/-- A run fails at its first token that fails. -/
theorem evaluate_eq_error_of_step {rpn : Rpn} {front back : List Token} {token : Token}
    {stack : List Binary64} {fault : Fault} (htokens : rpn.tokens = front ++ token :: back)
    (hfront : front.foldlM (step rpn.source) [] = .ok stack)
    (hstep : step rpn.source stack token = .error fault) : rpn.evaluate = .error fault := by
  rw [evaluate, htokens, List.foldlM_append, hfront]
  simp [bind, Except.bind, hstep]

/-- A run that succeeds adds one value for each number and takes one for each
operator, and its numbers are literals. -/
theorem length_of_foldlM_step {source : Text} {tokens : List Token}
    {stack final : List Binary64} (hrun : tokens.foldlM (step source) stack = .ok final) :
    final.length + tokens.countP Token.isOperator =
        stack.length + tokens.countP Token.isNumber ∧
      ∀ token ∈ tokens, token.isParen = false ∧
        (token.isNumber = true → token.literal.IsLiteral) := by
  refine foldlM_induction (motive := fun stack tokens final =>
    final.length + tokens.countP Token.isOperator =
        stack.length + tokens.countP Token.isNumber ∧
      ∀ token ∈ tokens, token.isParen = false ∧
        (token.isNumber = true → token.literal.IsLiteral)) ?_ ?_ hrun
  · intro stack
    simp
  · rintro stack next final token tokens hstep ⟨hlength, htokens⟩
    cases reduces_of_step hstep with
    | @push value hvalue =>
        obtain ⟨hkind, hliteral⟩ := Token.isLiteral_of_value? hvalue
        constructor
        · simp only [List.length_cons] at hlength
          simp only [List.countP_cons, Token.isOperator, Token.isNumber, hkind, beq_self_eq_true,
            if_true, Bool.false_eq_true, if_false]
          omega
        · intro member hmem
          rcases List.mem_cons.1 hmem with rfl | hmem
          · simp [Token.isParen, hkind, hliteral]
          · exact htokens member hmem
    | @combine applied left right value below hkind hstack happly =>
        constructor
        · simp only [List.length_cons] at hlength
          simp only [hstack, List.length_cons, List.countP_cons, Token.isOperator, Token.isNumber,
            hkind]
          simp
          omega
        · intro member hmem
          rcases List.mem_cons.1 hmem with rfl | hmem
          · simp [Token.isParen, Token.isNumber, hkind]
          · exact htokens member hmem

/-- A sequence that has a value has one number more than operators, all numbers
are literals, and there is no parenthesis. -/
theorem countP_of_evaluate {rpn : Rpn} {value : Binary64} (hvalue : rpn.evaluate = .ok value) :
    rpn.tokens.countP Token.isNumber = rpn.tokens.countP Token.isOperator + 1 ∧
      ∀ token ∈ rpn.tokens, token.isParen = false ∧
        (token.isNumber = true → token.literal.IsLiteral) := by
  obtain ⟨stack, hrun, hresult⟩ := bind_eq_ok_iff.1 hvalue
  obtain ⟨hlength, htokens⟩ := length_of_foldlM_step hrun
  have hone : stack.length = 1 := by
    unfold result at hresult
    split at hresult
    · rfl
    · cases hresult
  refine ⟨?_, htokens⟩
  simp only [List.length_nil] at hlength
  omega

end Rpn

end Calculator

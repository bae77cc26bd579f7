import Calculator.Proofs.Integers
import Calculator.Proofs.TreeValue

/-!
# Integer arithmetic

A tree whose numbers are runs of digits, and whose operators are sums, differences, products and
powers, has an integer as its exact value.  When the exact values of all its parts have a
magnitude of at most `2 ^ 53`, no operator rounds, so the calculator finds the same integer and
shows its digits.
-/

namespace Calculator

/-- The exact value on integers.  A power by a negative integer is one, like the power by zero;
a quotient and a root have no such value. -/
def Operator.integer? : Operator → Int → Int → Option Int
  | .plus, left, right => some (left + right)
  | .minus, left, right => some (left - right)
  | .star, left, right => some (left * right)
  | .caret, left, right => some (left ^ right.toNat)
  | .slash, _, _ => none
  | .root, _, _ => none

namespace Expr

/-- The exact value of a tree of integers. -/
def integer? : Expr → Option Int
  | .number literal _ =>
      if literal.all Char.isDigit then some (Nat.ofDigitChars 10 literal 0) else none
  | .binary applied _ left right => do
      let leftInteger ← left.integer?
      let rightInteger ← right.integer?
      applied.integer? leftInteger rightInteger

/-- The tree and every tree inside it. -/
def parts : Expr → List Expr
  | .number literal offset => [.number literal offset]
  | .binary applied offset left right =>
      .binary applied offset left right :: (left.parts ++ right.parts)

/-- The operators of a tree from left to right. -/
def operators : Expr → List Operator
  | .number _ _ => []
  | .binary applied _ left right => left.operators ++ applied :: right.operators

theorem mem_parts (tree : Expr) : tree ∈ tree.parts := by
  cases tree with
  | number literal offset => exact List.mem_singleton.2 rfl
  | binary applied offset left right => exact List.mem_cons_self

end Expr

theorem Operator.isInteger_apply {applied : Operator} {left right : Binary64}
    {first second number : Int} (hleft : left.IsInteger first) (hright : right.IsInteger second)
    (hsecond : second.natAbs ≤ 2 ^ 53) (hinteger : applied.integer? first second = some number)
    (hbound : number.natAbs ≤ 2 ^ 53) :
    ∃ value, applied.apply left right = .ok value ∧ value.IsInteger number := by
  cases applied with
  | plus =>
      cases hinteger
      exact ⟨_, rfl, hleft.add hright hbound⟩
  | minus =>
      cases hinteger
      exact ⟨_, rfl, hleft.sub hright hbound⟩
  | star =>
      cases hinteger
      exact ⟨_, rfl, hleft.mul hright hbound⟩
  | caret =>
      cases hinteger
      exact ⟨_, rfl, hleft.power hright hsecond hbound⟩
  | slash => cases hinteger
  | root => cases hinteger

/-- The exact value of the tree exists, and the tree's own evaluation finds it. -/
theorem Expr.exists_isInteger (source : Text) {tree : Expr}
    (hliterals : ∀ literal ∈ tree.literals,
      literal ≠ [] ∧ ∀ character ∈ literal, character.isDigit = true)
    (hoperators : ∀ applied ∈ tree.operators, applied ≠ .slash ∧ applied ≠ .root)
    (hbound : ∀ part ∈ tree.parts, ∀ number ∈ part.integer?, number.natAbs ≤ 2 ^ 53) :
    ∃ number value, tree.integer? = some number ∧ tree.evaluate source = .ok value ∧
      value.IsInteger number := by
  induction tree with
  | number literal offset =>
      obtain ⟨hne, hdigits⟩ := hliterals literal List.mem_cons_self
      have hall : literal.all Char.isDigit = true := List.all_eq_true.2 hdigits
      have hinteger : (Expr.number literal offset).integer? =
          some (Nat.ofDigitChars 10 literal 0) := if_pos hall
      have hsmall := hbound _ (mem_parts _) _ hinteger
      refine ⟨_, _, hinteger, ?_, Decimal.isInteger_toBinary64 hsmall⟩
      rw [evaluate, Decimal.ofText?_of_isDigit hne hdigits]
  | binary applied offset left right ihLeft ihRight =>
      obtain ⟨hleftLiterals, hrightLiterals⟩ := List.forall_mem_append.1 hliterals
      obtain ⟨hleftOperators, hoperators⟩ := List.forall_mem_append.1 hoperators
      obtain ⟨happlied, hrightOperators⟩ := List.forall_mem_cons.1 hoperators
      obtain ⟨hself, hparts⟩ := List.forall_mem_cons.1 hbound
      obtain ⟨hleftParts, hrightParts⟩ := List.forall_mem_append.1 hparts
      obtain ⟨first, leftValue, hfirst, hleftValue, hleft⟩ :=
        ihLeft hleftLiterals hleftOperators hleftParts
      obtain ⟨second, rightValue, hsecond, hrightValue, hright⟩ :=
        ihRight hrightLiterals hrightOperators hrightParts
      have hsmall := hrightParts right right.mem_parts second hsecond
      obtain ⟨number, hnumber⟩ : ∃ number, applied.integer? first second = some number := by
        cases applied <;> simp [Operator.integer?] at happlied ⊢
      have hinteger : (Expr.binary applied offset left right).integer? = some number := by
        simp [integer?, hfirst, hsecond, hnumber]
      obtain ⟨value, hvalue, hexact⟩ :=
        Operator.isInteger_apply hleft hright hsmall hnumber (hself number hinteger)
      refine ⟨number, value, hinteger, ?_, hexact⟩
      rw [evaluate_binary hleftValue hrightValue, hvalue]
      rfl

/-- Integer arithmetic is exact up to `2 ^ 53`, and shown without a fraction. -/
theorem calculate_isInteger {text : Text} {tree : Expr} (hparses : Expr.Parses text tree)
    (hdigits : ∀ literal ∈ tree.literals, ∀ character ∈ literal, character.isDigit = true)
    (hoperators : ∀ applied ∈ tree.operators, applied ≠ .slash ∧ applied ≠ .root)
    (hbound : ∀ part ∈ tree.parts, ∀ number ∈ part.integer?, number.natAbs ≤ 2 ^ 53) :
    ∃ number value, tree.integer? = some number ∧ calculate text = .ok value ∧
      value.IsInteger number ∧
      ∃ negative, (evaluate text).1 =
          Binary64.signText negative ++ Nat.toDigits 10 number.natAbs ++ ['.', '0', '0'] ∧
        (number ≠ 0 → negative = decide (number < 0)) := by
  have hwritten : ∀ literal ∈ tree.literals,
      literal ≠ [] ∧ ∀ character ∈ literal, character.isDigit = true := fun literal hmem =>
    ⟨(hparses.isRun_of_mem_literals literal hmem).1, hdigits literal hmem⟩
  obtain ⟨number, value, hinteger, hvalue, hexact⟩ :=
    Expr.exists_isInteger text hwritten hoperators hbound
  have hliterals : ∀ literal ∈ tree.literals, literal.IsLiteral := fun literal hmem =>
    Decimal.isSome_ofText?_iff.1 (Option.isSome_of_eq_some
      (Decimal.ofText?_of_isDigit (hwritten literal hmem).1 (hwritten literal hmem).2))
  have hrun : Rpn.evaluate ⟨text, tree.postorder⟩ = .ok value := by
    rw [Rpn.evaluate, Rpn.foldlM_postorder text hliterals, hvalue]
    rfl
  have hcalculate : calculate text = .ok value :=
    calculate_eq_ok_iff.2 ⟨hparses.isAllowed, ⟨text, tree.postorder⟩, hparses.ofText, hrun⟩
  have hshown : (evaluate text).1 = value.fixedText := by
    rw [evaluate, Evaluation.ofText, Text.strip_of_isAllowed hparses.isAllowed]
    simp [Evaluation.resultText, hcalculate]
  obtain ⟨negative, htext, hsign⟩ := hexact.exists_fixedText_eq
  exact ⟨number, value, hinteger, hcalculate, hexact, negative, hshown.trans htext, hsign⟩

/-- The power of a negative base is the largest magnitude that is covered. -/
theorem calculate_isInteger_power :
    Expr.Parses ['(', '1', '-', '3', ')', '^', '5', '3', '+', '0', '0', '7']
        (.binary .plus 8
          (.binary .caret 5 (.binary .minus 2 (.number ['1'] 1) (.number ['3'] 3))
            (.number ['5', '3'] 6))
          (.number ['0', '0', '7'] 9)) ∧
      (∃ value, calculate ['(', '1', '-', '3', ')', '^', '5', '3', '+', '0', '0', '7'] =
        .ok value ∧ value.IsInteger (-(2 ^ 53) + 7)) ∧
      (evaluate ['(', '1', '-', '3', ')', '^', '5', '3', '+', '0', '0', '7']).1 =
        ['-', '9', '0', '0', '7', '1', '9', '9', '2', '5', '4', '7', '4', '0', '9', '8', '5',
          '.', '0', '0'] := by
  have hbase : Expr.Written 1 1 ['1', '-', '3']
      (.binary .minus 2 (.number ['1'] 1) (.number ['3'] 3)) :=
    @Expr.Written.binary 1 1 .minus ['1'] ['3'] _ _ (by decide) (.number (by decide))
      (.number (by decide))
  have hpower : Expr.Written 1 0 ['(', '1', '-', '3', ')', '^', '5', '3']
      (.binary .caret 5 (.binary .minus 2 (.number ['1'] 1) (.number ['3'] 3))
        (.number ['5', '3'] 6)) :=
    @Expr.Written.binary 1 0 .caret ['(', '1', '-', '3', ')'] ['5', '3'] _ _ (by decide)
      (.group hbase) (.number (by decide))
  have hparses : Expr.Parses ['(', '1', '-', '3', ')', '^', '5', '3', '+', '0', '0', '7']
      (.binary .plus 8
        (.binary .caret 5 (.binary .minus 2 (.number ['1'] 1) (.number ['3'] 3))
          (.number ['5', '3'] 6))
        (.number ['0', '0', '7'] 9)) :=
    @Expr.Written.binary 1 0 .plus ['(', '1', '-', '3', ')', '^', '5', '3'] ['0', '0', '7'] _ _
      (by decide) hpower (.number (by decide))
  obtain ⟨number, value, hinteger, hcalculate, hexact, negative, hshown, hsign⟩ :=
    calculate_isInteger hparses (by simp [Expr.literals]) (by decide) (by decide +kernel)
  have hnumber : number = -(2 ^ 53) + 7 := by
    rw [← Option.some.injEq, ← hinteger]
    decide +kernel
  subst hnumber
  obtain rfl := hsign (by decide)
  refine ⟨hparses, ⟨value, hcalculate, hexact⟩, hshown.trans ?_⟩
  decide +kernel

end Calculator

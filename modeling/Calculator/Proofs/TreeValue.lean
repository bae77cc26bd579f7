import Calculator.Proofs.Grammar
import Calculator.Proofs.Postorder
import Calculator.Proofs.Stack
import Calculator.Proofs.Stages

/-!
# Calculating an expression gives the value of its tree

A tree gives its operators a meaning of its own, which agrees with what they do
on a stack.  Running the postorder of a tree on any stack pushes the value of the
tree, or stops with the fault that its evaluation finds first.  Together with
the conversion this makes the calculator agree with recursive evaluation on the
whole grammar, provided that every number of the expression reads as one.
-/

namespace Calculator

namespace Expr

theorem Parses.convert {text : Text} {tree : Expr} (hparses : Parses text tree) :
    Calculator.convert text = .ok ⟨text, tree.postorder⟩ := by
  rw [convert_of_isAllowed hparses.isAllowed]
  exact hparses.ofText

/-- On the values of its operands, the operator of a tree does what it does on a stack. -/
theorem evaluate_binary {source : Text} {left right : Expr} {leftValue rightValue : Binary64}
    (hleft : left.evaluate source = .ok leftValue)
    (hright : right.evaluate source = .ok rightValue) (applied : Operator) (offset : Nat) :
    (binary applied offset left right).evaluate source =
      (applied.apply leftValue rightValue).mapError
        (⟨·, ⟨offset, applied.symbol.utf8Size⟩, source⟩) := by
  simp only [evaluate, hleft, hright, bind, Except.bind]
  cases applied with
  | plus => rfl
  | minus => rfl
  | star => rfl
  | slash =>
      rw [Operator.apply]
      cases rightValue.isZero with
      | true => rfl
      | false => rfl
  | caret => rfl
  | root =>
      rw [Operator.apply]
      cases leftValue.isNegative with
      | true => rfl
      | false => rfl

end Expr

namespace Rpn

/-- Running the postorder of a tree pushes its value or stops with its fault. -/
theorem foldlM_postorder (source : Text) {tree : Expr}
    (hliterals : ∀ literal ∈ tree.literals, literal.IsLiteral) (stack : List Binary64) :
    tree.postorder.foldlM (step source) stack = (tree.evaluate source).map (· :: stack) := by
  induction tree generalizing stack with
  | number literal offset =>
      obtain ⟨decimal, hread⟩ :=
        Decimal.exists_ofText?_eq_some (hliterals literal List.mem_cons_self)
      rw [Expr.postorder, List.foldlM_cons, step_number source stack hread]
      simp [Expr.evaluate, hread, bind, Except.bind, Except.map, pure, Except.pure]
  | binary applied offset left right ihLeft ihRight =>
      obtain ⟨hleft, hright⟩ := List.forall_mem_append.1 hliterals
      rw [Expr.postorder, List.foldlM_append, List.foldlM_append, ihLeft hleft]
      cases hleftValue : left.evaluate source with
      | error fault =>
          rw [Expr.evaluate, hleftValue]
          rfl
      | ok leftValue =>
          simp only [Except.map, bind, Except.bind]
          rw [ihRight hright]
          cases hrightValue : right.evaluate source with
          | error fault =>
              rw [Expr.evaluate, hleftValue, hrightValue]
              rfl
          | ok rightValue =>
              rw [Expr.evaluate_binary hleftValue hrightValue]
              simp only [Except.map, List.foldlM_cons, List.foldlM_nil]
              rw [step_operator]
              cases applied.apply leftValue rightValue with
              | error cause => simp [bind, Except.bind, Except.mapError]
              | ok value => rfl

end Rpn

theorem Expr.cause_of_evaluate_eq_error {source : Text} {tree : Expr}
    (hliterals : ∀ literal ∈ tree.literals, literal.IsLiteral) {fault : Fault}
    (hfault : tree.evaluate source = .error fault) :
    fault.cause = .divisionByZero ∨
      ∃ value, value.isNegative = true ∧ fault.cause = .negativeRoot value := by
  induction tree with
  | number literal offset =>
      obtain ⟨decimal, hread⟩ :=
        Decimal.exists_ofText?_eq_some (hliterals literal List.mem_cons_self)
      simp [evaluate, hread] at hfault
  | binary applied offset left right ihLeft ihRight =>
      obtain ⟨hleft, hright⟩ := List.forall_mem_append.1 hliterals
      cases hleftValue : left.evaluate source with
      | error leftFault =>
          rw [evaluate, hleftValue] at hfault
          exact ihLeft hleft (hleftValue.trans hfault)
      | ok leftValue =>
          cases hrightValue : right.evaluate source with
          | error rightFault =>
              rw [evaluate, hleftValue, hrightValue] at hfault
              exact ihRight hright (hrightValue.trans hfault)
          | ok rightValue =>
              rw [evaluate_binary hleftValue hrightValue] at hfault
              cases happly : applied.apply leftValue rightValue with
              | ok value =>
                  rw [happly] at hfault
                  cases hfault
              | error cause =>
                  rw [happly] at hfault
                  cases hfault
                  obtain ⟨-, -, hcause⟩ | ⟨-, hnegative, hcause⟩ :=
                    Operator.apply_eq_error_iff.1 happly
                  · exact Or.inl hcause
                  · exact Or.inr ⟨leftValue, hnegative, hcause⟩

/-- An expression of the grammar has the value of its tree, or fails with the
first fault of the tree's evaluation; this is a division by zero or the root of
a negative value. -/
theorem calculate_eq_evaluate {text : Text} {tree : Expr} (hgrammar : Expr.Grammatical text tree) :
    calculate text = tree.evaluate text ∧
      ∀ fault, calculate text = .error fault →
        fault.cause = .divisionByZero ∨
          ∃ value, value.isNegative = true ∧ fault.cause = .negativeRoot value := by
  obtain ⟨hparses, hliterals⟩ := hgrammar
  have hvalue : calculate text = tree.evaluate text := by
    rw [calculate, hparses.convert]
    change Rpn.evaluate ⟨text, tree.postorder⟩ = _
    rw [Rpn.evaluate, Rpn.foldlM_postorder text hliterals]
    cases tree.evaluate text with
    | error fault => rfl
    | ok value => rfl
  refine ⟨hvalue, fun fault hfault => ?_⟩
  rw [hvalue] at hfault
  exact Expr.cause_of_evaluate_eq_error hliterals hfault

/-- A root that groups with its neighbour on the left comes before a quotient, and
so does its fault: the division by zero behind it is never reached. -/
theorem calculate_root_before_quotient :
    Expr.Grammatical ['(', '0', '-', '4', ')', '√', '2', '/', '0']
        (.binary .slash 9
          (.binary .root 5 (.binary .minus 2 (.number ['0'] 1) (.number ['4'] 3))
            (.number ['2'] 8))
          (.number ['0'] 10)) ∧
      calculate ['(', '0', '-', '4', ')', '√', '2', '/', '0'] =
        .error ⟨.negativeRoot (-Decimal.toBinary64 ⟨4, 0⟩), ⟨5, 3⟩,
          ['(', '0', '-', '4', ')', '√', '2', '/', '0']⟩ := by
  have hdifference : Expr.Written 1 1 ['0', '-', '4']
      (.binary .minus 2 (.number ['0'] 1) (.number ['4'] 3)) :=
    @Expr.Written.binary 1 1 .minus ['0'] ['4'] _ _ (by decide) (.number (by decide))
      (.number (by decide))
  have hroot : Expr.Written 2 0 ['(', '0', '-', '4', ')', '√', '2']
      (.binary .root 5 (.binary .minus 2 (.number ['0'] 1) (.number ['4'] 3))
        (.number ['2'] 8)) :=
    @Expr.Written.binary 2 0 .root ['(', '0', '-', '4', ')'] ['2'] _ _ (by decide)
      (.group hdifference) (.number (by decide))
  have hgrammar : Expr.Grammatical ['(', '0', '-', '4', ')', '√', '2', '/', '0']
      (.binary .slash 9
        (.binary .root 5 (.binary .minus 2 (.number ['0'] 1) (.number ['4'] 3))
          (.number ['2'] 8))
        (.number ['0'] 10)) :=
    ⟨@Expr.Written.binary 1 0 .slash ['(', '0', '-', '4', ')', '√', '2'] ['0'] _ _
      (by decide) hroot (.number (by decide)), by decide⟩
  refine ⟨hgrammar, ?_⟩
  rw [(calculate_eq_evaluate hgrammar).1]
  decide +kernel

end Calculator

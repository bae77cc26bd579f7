import Calculator.Proofs.Stack
import Calculator.Proofs.Stages
import Calculator.Proofs.Yard

/-!
# Where a value that is not a number comes from

An operator that is applied to finite values gives a finite value or an infinity: a quotient
by zero and a root of a negative value are refused, and a power stops as soon as its product
is infinite, before that meets a zero.  So the first value of a run that is not finite is an
infinity, and without one no value of the run fails to be a number.
-/

namespace Calculator

namespace Binary64

theorem exists_eq_finite {value : Binary64} (hfinite : value.isFinite = true) :
    ∃ negative magnitude, value = .finite negative magnitude := by
  cases value with
  | nan => cases hfinite
  | infinity negative => cases hfinite
  | finite negative magnitude => exact ⟨negative, magnitude, rfl⟩

theorem isNan_eq_false_of_isFinite {value : Binary64} (hfinite : value.isFinite = true) :
    value.isNan = false := by
  obtain ⟨negative, magnitude, rfl⟩ := exists_eq_finite hfinite
  rfl

theorem isNan_neg (value : Binary64) : (neg value).isNan = value.isNan := by
  cases value with
  | nan => rfl
  | infinity negative => rfl
  | finite negative magnitude => rfl

theorem isFinite_neg (value : Binary64) : (neg value).isFinite = value.isFinite := by
  cases value with
  | nan => rfl
  | infinity negative => rfl
  | finite negative magnitude => rfl

/-- Rounding gives a finite value or overflows. -/
theorem isNan_ofQuotient (negative : Bool) (numerator denominator : Nat) :
    (ofQuotient negative numerator denominator).isNan = false := by
  unfold ofQuotient ofUnits
  split
  · rfl
  · rfl

section Finite

variable {left right : Binary64}

theorem isNan_add (hleft : left.isFinite = true) (hright : right.isFinite = true) :
    (add left right).isNan = false := by
  obtain ⟨_, _, rfl⟩ := exists_eq_finite hleft
  obtain ⟨_, _, rfl⟩ := exists_eq_finite hright
  exact isNan_ofQuotient _ _ _

theorem isNan_sub (hleft : left.isFinite = true) (hright : right.isFinite = true) :
    (sub left right).isNan = false :=
  isNan_add hleft ((isFinite_neg right).trans hright)

theorem isNan_mul (hleft : left.isFinite = true) (hright : right.isFinite = true) :
    (mul left right).isNan = false := by
  obtain ⟨_, _, rfl⟩ := exists_eq_finite hleft
  obtain ⟨_, _, rfl⟩ := exists_eq_finite hright
  exact isNan_ofQuotient _ _ _

theorem isNan_div (hleft : left.isFinite = true) (hright : right.isFinite = true)
    (hzero : right.isZero = false) : (div left right).isNan = false := by
  obtain ⟨_, _, rfl⟩ := exists_eq_finite hleft
  obtain ⟨_, _, rfl⟩ := exists_eq_finite hright
  have hunits := ne_of_beq_false hzero
  rw [div, if_neg hunits]
  exact isNan_ofQuotient _ _ _

theorem isNan_sqrt (hleft : left.isFinite = true) (hnegative : left.isNegative = false) :
    (sqrt left).isNan = false := by
  obtain ⟨negative, magnitude, rfl⟩ := exists_eq_finite hleft
  rw [sqrt]
  split
  · rfl
  · next hunits =>
      have hpositive : negative = false := by simpa [isNegative, hunits] using hnegative
      rw [hpositive, if_neg Bool.false_ne_true]
      exact isNan_ofQuotient _ _ _

/-- A product that is not settled is finite, so the next one multiplies finite values. -/
theorem isNan_powerFrom {base value : Binary64} (hbase : base.isFinite = true)
    (hvalue : value.isFinite = true) (remaining done : Nat) :
    (powerFrom base remaining value done).value.isNan = false := by
  induction remaining generalizing value done with
  | zero => exact isNan_eq_false_of_isFinite hvalue
  | succ remaining ih =>
      have hnext := isNan_mul hvalue hbase
      rw [powerFrom]
      by_cases hsettled : isSettled base (mul value base) = true
      · simp only [hsettled, if_true]
        split
        · rw [isNan_neg]
          exact hnext
        · exact hnext
      · simp only [hsettled]
        apply ih
        simp only [isSettled, Bool.or_eq_true, not_or, Bool.not_eq_true,
          Bool.not_eq_false'] at hsettled
        exact hsettled.1.2

end Finite

end Binary64

/-- What an operator makes of finite operands is a number. -/
theorem Operator.isNan_apply {applied : Operator} {left right value : Binary64}
    (hleft : left.isFinite = true) (hright : right.isFinite = true)
    (happly : applied.apply left right = .ok value) : value.isNan = false := by
  cases applied with
  | plus =>
      cases happly
      exact Binary64.isNan_add hleft hright
  | minus =>
      cases happly
      exact Binary64.isNan_sub hleft hright
  | star =>
      cases happly
      exact Binary64.isNan_mul hleft hright
  | slash =>
      rw [apply] at happly
      split at happly
      · cases happly
      · next hzero =>
          cases happly
          exact Binary64.isNan_div hleft hright (by simpa using hzero)
  | caret =>
      cases happly
      exact Binary64.isNan_powerFrom hleft rfl _ _
  | root =>
      rw [apply] at happly
      split at happly
      · cases happly
      · next hnegative =>
          cases happly
          exact Binary64.isNan_sqrt hleft (by simpa using hnegative)

namespace Rpn

/-- The values that a run pushes, each with the token that it comes from, as far as the run
goes. -/
def pushes (source : Text) : List Binary64 → List Token → List (Token × Binary64)
  | _, [] => []
  | stack, token :: tokens =>
      match step source stack token with
      | .ok (value :: below) => (token, value) :: pushes source (value :: below) tokens
      | _ => []

section Runs

theorem mem_dropLast_append_cons {α : Type} {value : α} {front back : List α} (hback : back ≠ []) :
    value ∈ (front ++ value :: back).dropLast := by
  rw [List.dropLast_append_of_ne_nil (List.cons_ne_nil _ _), List.dropLast_cons_of_ne_nil hback]
  exact List.mem_append_right _ List.mem_cons_self

variable {source : Text} {stack final : List Binary64} {tokens : List Token}

/-- A token pushes one value, on a part of what was there. -/
theorem Reduces.exists_cons {next : List Binary64} {token : Token}
    (hreduces : Reduces stack token next) :
    ∃ value below, next = value :: below ∧ below ⊆ stack := by
  cases hreduces with
  | push => exact ⟨_, _, rfl, List.Subset.refl _⟩
  | combine _ hstack =>
      subst hstack
      exact ⟨_, _, rfl, fun value hmem => List.mem_cons_of_mem _ (List.mem_cons_of_mem _ hmem)⟩

/-- On finite values a token pushes no NaN. -/
theorem Reduces.isNan {value : Binary64} {below : List Binary64} {token : Token}
    (hreduces : Reduces stack token (value :: below))
    (hstack : ∀ other ∈ stack, other.isFinite = true) : value.isNan = false := by
  cases hreduces with
  | push hvalue =>
      unfold Token.value? at hvalue
      split at hvalue
      · obtain ⟨decimal, -, rfl⟩ := Option.map_eq_some_iff.1 hvalue
        exact Binary64.isNan_ofQuotient _ _ _
      · cases hvalue
  | combine _ hoperands happly =>
      subst hoperands
      exact Operator.isNan_apply (hstack _ (by simp)) (hstack _ (by simp)) happly

/-- What lies on the stack at the end lay there at the start or was pushed. -/
theorem mem_pushes_of_foldlM (hrun : tokens.foldlM (step source) stack = .ok final) :
    ∀ value ∈ final, value ∈ stack ∨ ∃ push ∈ pushes source stack tokens, push.2 = value := by
  refine foldlM_induction (motive := fun stack tokens final =>
    ∀ value ∈ final, value ∈ stack ∨
      ∃ push ∈ pushes source stack tokens, push.2 = value) ?_ ?_ hrun
  · intro stack value hmem
    exact Or.inl hmem
  · intro stack next final token tokens hstep ih value hmem
    obtain ⟨top, below, rfl, hbelow⟩ := (reduces_of_step hstep).exists_cons
    rw [pushes, hstep]
    obtain hmem | ⟨push, hpush, hvalue⟩ := ih value hmem
    · obtain rfl | hmem := List.mem_cons.1 hmem
      · exact Or.inr ⟨_, List.mem_cons_self, rfl⟩
      · exact Or.inl (hbelow hmem)
    · exact Or.inr ⟨push, List.mem_cons_of_mem _ hpush, hvalue⟩

theorem exists_push_of_mem (hrun : tokens.foldlM (step source) [] = .ok final) {value : Binary64}
    (hmem : value ∈ final) : ∃ push ∈ pushes source [] tokens, push.2 = value :=
  (mem_pushes_of_foldlM hrun value hmem).resolve_left List.not_mem_nil

/-- As long as all values are finite, the next one is no NaN. -/
theorem isNan_of_pushes (hstack : ∀ other ∈ stack, other.isFinite = true)
    {before after : List (Token × Binary64)} {token : Token} {value : Binary64}
    (hpushes : pushes source stack tokens = before ++ (token, value) :: after)
    (hbefore : ∀ push ∈ before, push.2.isFinite = true) : value.isNan = false := by
  induction tokens generalizing stack before with
  | nil => simp [pushes] at hpushes
  | cons first tokens ih =>
      rw [pushes] at hpushes
      split at hpushes
      · next top below hstep =>
          have hreduces := reduces_of_step hstep
          cases before with
          | nil =>
              cases hpushes
              exact hreduces.isNan hstack
          | cons push before =>
              obtain ⟨rfl, hrest⟩ := List.cons.inj hpushes
              obtain ⟨htop, hbefore⟩ := List.forall_mem_cons.1 hbefore
              obtain ⟨_, _, heq, hbelow⟩ := hreduces.exists_cons
              cases heq
              refine ih (List.forall_mem_cons.2 ⟨htop, fun other hmem => ?_⟩) hrest hbefore
              exact hstack other (hbelow hmem)
      · simp at hpushes

/-- The first value of a run that is not finite is an infinity, so a NaN comes after one. -/
theorem exists_infinity_of_nan_mem {nan : Token × Binary64}
    (hstack : ∀ other ∈ stack, other.isFinite = true) (hnan : nan.2 = .nan)
    (hmem : nan ∈ pushes source stack tokens) :
    ∃ before token negative after,
      pushes source stack tokens = before ++ (token, .infinity negative) :: after ∧
        (∀ push ∈ before, push.2.isFinite = true) ∧ nan ∈ after := by
  have hfound : ((pushes source stack tokens).find? fun push => !push.2.isFinite).isSome := by
    rw [List.find?_isSome]
    exact ⟨nan, hmem, by rw [hnan]; rfl⟩
  obtain ⟨⟨token, value⟩, hfind⟩ := Option.isSome_iff_exists.1 hfound
  obtain ⟨hvalue, before, after, hpushes, hbefore⟩ := List.find?_eq_some_iff_append.1 hfind
  have hfinite : ∀ push ∈ before, push.2.isFinite = true := by simpa using hbefore
  have hnumber := isNan_of_pushes hstack hpushes hfinite
  cases value with
  | nan => cases hnumber
  | finite => cases hvalue
  | infinity negative =>
      refine ⟨before, token, negative, after, hpushes, hfinite, ?_⟩
      rw [hpushes] at hmem
      rcases List.mem_append.1 hmem with hmem | hmem
      · have hcontra := hfinite nan hmem
        rw [hnan] at hcontra
        cases hcontra
      · rcases List.mem_cons.1 hmem with rfl | hmem
        · cases hnan
        · exact hmem

theorem isNumber_or_isOperator_of_mem_pushes {push : Token × Binary64}
    (hmem : push ∈ pushes source stack tokens) :
    push.1.isNumber = true ∨ push.1.isOperator = true := by
  induction tokens generalizing stack with
  | nil => cases hmem
  | cons first tokens ih =>
      rw [pushes] at hmem
      split at hmem
      · next top below hstep =>
          rcases List.mem_cons.1 hmem with rfl | hmem
          · cases reduces_of_step hstep with
            | push hvalue =>
                have hkind := (Token.isLiteral_of_value? hvalue).1
                exact Or.inl (by simp [Token.isNumber, hkind])
            | combine hkind => exact Or.inr (by simp [Token.isOperator, hkind])
          · exact ih hmem
      · cases hmem

/-- If the numbers are finite and so is what each operator but the last one gives, then no
value is a NaN. -/
theorem nan_not_mem_pushes (hstack : ∀ other ∈ stack, other.isFinite = true)
    (hnumbers : ∀ push ∈ pushes source stack tokens,
      push.1.isNumber = true → push.2.isFinite = true)
    (hoperators : ∀ push ∈ ((pushes source stack tokens).filter (·.1.isOperator)).dropLast,
      push.2.isFinite = true) :
    ∀ push ∈ pushes source stack tokens, push.2 ≠ .nan := by
  intro nan hmem hnan
  obtain ⟨before, token, negative, after, hpushes, -, hafter⟩ :=
    exists_infinity_of_nan_mem hstack hnan hmem
  have hoperator : ∀ push ∈ pushes source stack tokens, push.2.isFinite = false →
      push.1.isOperator = true := by
    intro push hpush hvalue
    refine (isNumber_or_isOperator_of_mem_pushes hpush).resolve_left fun hnumber => ?_
    rw [hnumbers push hpush hnumber] at hvalue
    cases hvalue
  have htoken : token.isOperator = true :=
    hoperator (token, .infinity negative) (by rw [hpushes]; simp) rfl
  have hlast : after.filter (·.1.isOperator) ≠ [] := by
    have hnanOperator := hoperator nan hmem (by rw [hnan]; rfl)
    exact List.ne_nil_of_mem (List.mem_filter.2 ⟨hafter, hnanOperator⟩)
  -- The infinity comes from an operator, and the operator of the NaN comes later.
  have hinfinity : (token, Binary64.infinity negative) ∈
      ((pushes source stack tokens).filter (·.1.isOperator)).dropLast := by
    have hsplit : (pushes source stack tokens).filter (·.1.isOperator) =
        before.filter (·.1.isOperator) ++
          (token, .infinity negative) :: after.filter (·.1.isOperator) := by
      simp [hpushes, htoken]
    rw [hsplit]
    exact mem_dropLast_append_cons hlast
  exact Bool.noConfusion (hoperators _ hinfinity)

end Runs

end Rpn

/-- A NaN on the stack of a run comes after an infinity, and before that all values were
finite.  So the result is a number if the literals are finite and every operator but the last
gives a finite value.  A division by zero of either sign and a root of a negative value, an
infinite one included, end the run. -/
theorem infinity_before_nan {text : Text} {rpn : Rpn} (hconvert : convert text = .ok rpn) :
    (∀ front back stack, rpn.tokens = front ++ back →
      front.foldlM (Rpn.step text) [] = .ok stack → .nan ∈ stack →
        ∃ before token negative after,
          Rpn.pushes text [] front = before ++ (token, .infinity negative) :: after ∧
            (∀ push ∈ before, push.2.isFinite = true) ∧ ∃ push ∈ after, push.2 = .nan) ∧
    (∀ value, calculate text = .ok value →
      (∀ push ∈ Rpn.pushes text [] rpn.tokens,
        push.1.isNumber = true → push.2.isFinite = true) →
      (∀ push ∈ ((Rpn.pushes text [] rpn.tokens).filter (·.1.isOperator)).dropLast,
        push.2.isFinite = true) →
      value.isNan = false) ∧
    ∀ front token back right left below, rpn.tokens = front ++ token :: back →
      front.foldlM (Rpn.step text) [] = .ok (right :: left :: below) →
        (∀ negative, token.kind = .operator .slash → right = .zero negative →
          calculate text = .error (token.fault text .divisionByZero)) ∧
        (token.kind = .operator .root → left.isNegative = true →
          calculate text = .error (token.fault text (.negativeRoot left))) := by
  have hcalculate := calculate_of_convert hconvert
  obtain rfl := Rpn.source_of_ofText (convert_eq_ok_iff.1 hconvert).2
  have hnone : ∀ other ∈ ([] : List Binary64), other.isFinite = true := by simp
  refine ⟨?_, ?_, ?_⟩
  · intro front back stack _ hrun hnan
    obtain ⟨push, hpush, hvalue⟩ := Rpn.exists_push_of_mem hrun hnan
    obtain ⟨before, token, negative, after, hpushes, hfinite, hafter⟩ :=
      Rpn.exists_infinity_of_nan_mem hnone hvalue hpush
    exact ⟨before, token, negative, after, hpushes, hfinite, push, hafter, hvalue⟩
  · intro value hvalue hnumbers hoperators
    rw [hcalculate] at hvalue
    obtain ⟨stack, hrun, hresult⟩ := bind_eq_ok_iff.1 hvalue
    rw [Rpn.result_eq_ok_iff] at hresult
    subst hresult
    obtain ⟨push, hpush, rfl⟩ := Rpn.exists_push_of_mem hrun List.mem_cons_self
    have hnumber := Rpn.nan_not_mem_pushes hnone hnumbers hoperators push hpush
    cases hpushed : push.2 with
    | nan => exact absurd hpushed hnumber
    | infinity => rfl
    | finite => rfl
  · intro front token back right left below htokens hrun
    refine ⟨fun negative hkind hzero => ?_, fun hkind hnegative => ?_⟩
    · rw [hcalculate]
      apply Rpn.evaluate_eq_error_of_step htokens hrun
      simp [Rpn.step, Token.value?, Token.combine, hkind, Operator.apply, hzero, Binary64.zero,
        Binary64.isZero]
    · rw [hcalculate]
      apply Rpn.evaluate_eq_error_of_step htokens hrun
      simp [Rpn.step, Token.value?, Token.combine, hkind, Operator.apply, hnegative]

/-- The difference of two powers that overflow is a NaN, and the power of a negative number
that overflows is none. -/
theorem calculate_powers_overflow :
    (∃ rpn, convert (List.replicate 20 '9' ++ ['^', '1', '6', '-'] ++ List.replicate 20 '9' ++
          ['^', '1', '6']) = .ok rpn ∧ rpn.evaluate = .ok .nan ∧
        ∃ before token negative after,
          Rpn.pushes rpn.source [] rpn.tokens =
              before ++ (token, .infinity negative) :: after ∧
            (∀ push ∈ before, push.2.isFinite = true) ∧ ∃ push ∈ after, push.2 = .nan) ∧
      ∃ value, calculate (['(', '0', '-'] ++ List.replicate 20 '9' ++ [')', '^', '1', '7']) =
          .ok value ∧ value.isFinite = false ∧ value.isNan = false := by
  constructor
  · have hnan : calculate (List.replicate 20 '9' ++ ['^', '1', '6', '-'] ++
        List.replicate 20 '9' ++ ['^', '1', '6']) = .ok .nan := by
      decide +kernel
    obtain ⟨rpn, hconvert, hevaluate⟩ := bind_eq_ok_iff.1 hnan
    have hsource := Rpn.source_of_ofText (convert_eq_ok_iff.1 hconvert).2
    obtain ⟨stack, hrun, hresult⟩ := bind_eq_ok_iff.1 hevaluate
    have hstack := Rpn.result_eq_ok_iff.1 hresult
    refine ⟨rpn, hconvert, hevaluate, ?_⟩
    rw [hsource] at hrun ⊢
    refine (infinity_before_nan hconvert).1 rpn.tokens [] stack (by simp) hrun ?_
    rw [hstack]
    exact List.mem_cons_self
  · have hvalue : calculate (['(', '0', '-'] ++ List.replicate 20 '9' ++ [')', '^', '1', '7']) =
        .ok (.infinity true) := by
      decide +kernel
    have hconvert : convert (['(', '0', '-'] ++ List.replicate 20 '9' ++ [')', '^', '1', '7']) =
        .ok ⟨['(', '0', '-'] ++ List.replicate 20 '9' ++ [')', '^', '1', '7'],
          [⟨.number, ['0'], 1⟩, ⟨.number, List.replicate 20 '9', 3⟩, ⟨.operator .minus, ['-'], 2⟩,
            ⟨.number, ['1', '7'], 25⟩, ⟨.operator .caret, ['^'], 24⟩]⟩ := by
      decide +kernel
    refine ⟨_, hvalue, rfl, (infinity_before_nan hconvert).2.1 _ hvalue ?_ ?_⟩
    · decide +kernel
    · decide +kernel

end Calculator

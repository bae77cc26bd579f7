import Calculator.Proofs.Verdict

/-!
# Sequences with too few numbers

A sequence of literals and operators has as many values behind it as it has numbers more than
operators, if it can be run to its end at all, and then there is at least one.  With too few
numbers some operator lacks an operand.  The run fails at the first one that does, or at a
division or a root before it.
-/

namespace Calculator

/-- The causes that an operator finds in its operands. -/
inductive Cause.IsArithmetic : Cause → Prop
  | divisionByZero : IsArithmetic .divisionByZero
  | negativeRoot {radicand : Binary64} (hnegative : radicand.isNegative = true) :
      IsArithmetic (.negativeRoot radicand)

namespace Token

/-- A literal adds one value and an operator takes one away. -/
theorem gain_eq_sub {token : Token} (hparen : token.isParen = false)
    (hliteral : token.isNumber = true → token.literal.IsLiteral) :
    token.gain = [token].countP isNumber - [token].countP isOperator := by
  rcases token with ⟨kind, literal, offset⟩
  cases kind with
  | number => exact if_pos (hliteral rfl)
  | operator applied => rfl
  | leftParen => cases hparen
  | rightParen => cases hparen

theorem IsBlocked.isOperator {token : Token} {count : Int} (hblocked : token.IsBlocked count)
    (hparen : token.isParen = false)
    (hliteral : token.isNumber = true → token.literal.IsLiteral) :
    token.isOperator = true ∧ count < 2 := by
  rcases token with ⟨kind, literal, offset⟩
  cases kind with
  | number => exact absurd (hliteral rfl) hblocked
  | operator applied => exact ⟨rfl, hblocked⟩
  | leftParen => cases hparen
  | rightParen => cases hparen

end Token

namespace Rpn

/-- The first operator of a sequence with fewer than two values before it. -/
structure LacksOperand (tokens front : List Token) (token : Token) : Prop where
  place : front ++ [token] <+: tokens
  isOperator : token.isOperator = true
  unblocked : Unblocked front
  count_lt : count front < 2

/-- Literals and operators only. -/
def Sound (tokens : List Token) : Prop :=
  ∀ token ∈ tokens, token.isParen = false ∧ (token.isNumber = true → token.literal.IsLiteral)

section Throughout

variable {property : List Token → Token → Prop} {tokens front before : List Token} {token : Token}

/-- A property that does not hold throughout fails at a first token. -/
theorem exists_of_not_throughout (hnot : ¬Throughout property tokens) :
    ∃ front token, front ++ [token] <+: tokens ∧ Throughout property front ∧
      ¬property front token := by
  induction tokens using List.reverseRecOn with
  | nil => exact absurd throughout_nil hnot
  | append_singleton init last ih =>
      by_cases hinit : Throughout property init
      · refine ⟨init, last, List.prefix_refl _, hinit, fun hlast => hnot ?_⟩
        exact throughout_concat.2 ⟨hinit, hlast⟩
      · obtain ⟨front, token, hplace, hfront, hfails⟩ := ih hinit
        exact ⟨front, token, hplace.trans (List.prefix_append _ _), hfront, hfails⟩

/-- Up to where the property holds throughout, no token fails. -/
theorem Throughout.prefix_of_not (hbefore : Throughout property before)
    (hreach : before <+: tokens) (hplace : front ++ [token] <+: tokens)
    (hfails : ¬property front token) : before <+: front := by
  rcases List.prefix_or_prefix_of_prefix hreach hplace with hshort | hlong
  · rcases List.prefix_concat_iff.1 hshort with rfl | hfront
    · exact absurd (hbefore front token (List.prefix_refl _)) hfails
    · exact hfront
  · exact absurd (hbefore front token hlong) hfails

end Throughout

section Counting

variable {tokens : List Token}

theorem Sound.count_eq (hsound : Sound tokens) :
    count tokens = tokens.countP Token.isNumber - tokens.countP Token.isOperator := by
  induction tokens using List.reverseRecOn with
  | nil => rfl
  | append_singleton front token ih =>
      obtain ⟨hfront, hlast⟩ := List.forall_mem_append.1 hsound
      obtain ⟨hparen, hliteral⟩ := List.forall_mem_singleton.1 hlast
      rw [count_concat, ih hfront, Token.gain_eq_sub hparen hliteral, List.countP_append,
        List.countP_append]
      omega

/-- Behind tokens of which none is blocked there is a value. -/
theorem one_le_count_of_unblocked (hunblocked : Unblocked tokens) (hne : tokens ≠ []) :
    1 ≤ count tokens := by
  induction tokens using List.reverseRecOn with
  | nil => exact absurd rfl hne
  | append_singleton front token ih =>
      obtain ⟨hfront, hblocked⟩ := throughout_concat.1 hunblocked
      rw [count_concat]
      rcases token with ⟨kind, literal, offset⟩
      cases kind with
      | number =>
          have hliteral : literal.IsLiteral := not_not.1 hblocked
          have hcount : 0 ≤ count front := by
            by_cases hempty : front = []
            · rw [hempty]
              exact Int.le_refl 0
            · exact Int.le_of_lt (ih hfront hempty)
          have hgain : Token.gain ⟨.number, literal, offset⟩ = 1 := if_pos hliteral
          omega
      | operator applied =>
          have hcount : ¬count front < 2 := hblocked
          have hgain : Token.gain ⟨.operator applied, literal, offset⟩ = -1 := rfl
          omega
      | leftParen => exact absurd trivial hblocked
      | rightParen => exact absurd trivial hblocked

theorem Sound.not_unblocked (hsound : Sound tokens)
    (hpositive : 0 < tokens.countP Token.isOperator)
    (hshort : tokens.countP Token.isNumber ≤ tokens.countP Token.isOperator) :
    ¬Unblocked tokens := by
  intro hunblocked
  have hne : tokens ≠ [] := by
    rintro rfl
    cases hpositive
  have hcount := one_le_count_of_unblocked hunblocked hne
  rw [hsound.count_eq] at hcount
  omega

theorem Sound.lacksOperand (hsound : Sound tokens) {front : List Token} {token : Token}
    (hplace : front ++ [token] <+: tokens) (hunblocked : Unblocked front)
    (hblocked : token.IsBlocked (count front)) : LacksOperand tokens front token := by
  obtain ⟨hparen, hliteral⟩ := hsound token (hplace.subset (by simp))
  obtain ⟨hoperator, hcount⟩ := hblocked.isOperator hparen hliteral
  exact ⟨hplace, hoperator, hunblocked, hcount⟩

/-- Where some token of the sequence is blocked, the run fails at the first operator that lacks
an operand, or at an operator before it. -/
theorem Verdict.exists_lacksOperand {source : Text} {outcome : Except Fault Binary64}
    (hverdict : Verdict source tokens outcome) (hsound : Sound tokens)
    (hblocked : ¬Unblocked tokens) :
    ∃ front token, LacksOperand tokens front token ∧
      (outcome = .error (token.fault source (.missingOperands token.literal)) ∨
        ∃ before earlier cause, before ++ [earlier] <+: front ∧
          Offends source before earlier cause ∧
          outcome = .error (earlier.fault source cause)) := by
  cases hverdict with
  | @offence before earlier cause hearlier hunblocked hinoffensive hoffends =>
      obtain ⟨front, token, hplace, hfront, hfails⟩ := exists_of_not_throughout hblocked
      refine ⟨front, token, hsound.lacksOperand hplace hfront (not_not.1 hfails), Or.inr ?_⟩
      exact ⟨before, earlier, cause, hunblocked.prefix_of_not hearlier hplace hfails, hoffends, rfl⟩
  | missingOperands hplace hunblocked hinoffensive hfails hcount =>
      exact ⟨_, _, hsound.lacksOperand hplace hunblocked hfails, Or.inl rfl⟩
  | unknownOperator hplace hunblocked hinoffensive hfails hcount =>
      have hlacks := hsound.lacksOperand hplace hunblocked hfails
      exact absurd hlacks.count_lt (by omega)
  | value hunblocked => exact absurd hunblocked hblocked
  | leftoverValues hunblocked => exact absurd hunblocked hblocked

/-- A sequence of literals and operators with too few numbers has no value. -/
theorem Sound.exists_lacksOperand {rpn : Rpn} (hsound : Sound rpn.tokens)
    (hpositive : 0 < rpn.tokens.countP Token.isOperator)
    (hshort : rpn.tokens.countP Token.isNumber ≤ rpn.tokens.countP Token.isOperator) :
    ∃ front token, LacksOperand rpn.tokens front token ∧
      (rpn.evaluate = .error (token.fault rpn.source (.missingOperands token.literal)) ∨
        ∃ before earlier cause, before ++ [earlier] <+: front ∧
          Offends rpn.source before earlier cause ∧
          rpn.evaluate = .error (earlier.fault rpn.source cause)) := by
  have hverdict := (evaluate_eq_iff rpn _).1 rfl
  exact hverdict.exists_lacksOperand hsound (hsound.not_unblocked hpositive hshort)

theorem Offends.isArithmetic {source : Text} {front : List Token} {token : Token} {cause : Cause}
    (hoffends : Offends source front token cause) : cause.IsArithmetic := by
  cases hoffends with
  | divisionByZero => exact .divisionByZero
  | negativeRoot hkind htrees hradicand hnegative => exact .negativeRoot hnegative

end Counting

end Rpn

end Calculator

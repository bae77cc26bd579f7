import Calculator.Proofs.Stages
import Calculator.Proofs.Yard

/-!
# Parentheses of converted texts

The opening parentheses that wait in the yard are the groups that are open in the
text read so far.  So a text that converts is balanced, and has as many closing
parentheses as opening ones.  Without its opening parentheses such a text keeps
its closing ones, none of which has a partner any more: unless there were none at
all, the second run of an evaluation must fail.
-/

namespace Calculator

namespace Text

/-- The number of open groups behind a character, if it closes no more than one
that is open. -/
def nest? (depth : Nat) (character : Char) : Option Nat :=
  if character = '(' then some (depth + 1)
  else if character = ')' then
    match depth with
    | 0 => none
    | outer + 1 => some outer
  else some depth

/-- The number of open groups behind a text, if no parenthesis closes too many. -/
def depth? (depth : Nat) (text : Text) : Option Nat :=
  text.foldlM nest? depth

/-- Every parenthesis has its partner. -/
def Balanced (text : Text) : Prop :=
  text.depth? 0 = some 0

@[simp]
theorem nest?_leftParen (depth : Nat) : nest? depth '(' = some (depth + 1) := rfl

@[simp]
theorem nest?_rightParen_succ (depth : Nat) : nest? (depth + 1) ')' = some depth := rfl

theorem nest?_of_ne {character : Char} (hleft : character ≠ '(') (hright : character ≠ ')')
    (depth : Nat) : nest? depth character = some depth := by
  simp [nest?, hleft, hright]

@[simp]
theorem nest?_symbol (applied : Operator) (depth : Nat) :
    nest? depth applied.symbol = some depth := by
  cases applied <;> rfl

theorem nest?_of_isNumeral {character : Char} (hnumeral : Cursor.isNumeral character = true)
    (depth : Nat) : nest? depth character = some depth := by
  apply nest?_of_ne
  · rintro rfl
    exact absurd hnumeral (by decide)
  · rintro rfl
    exact absurd hnumeral (by decide)

/-- A parenthesis changes the number of open groups by one, and nothing else does. -/
theorem nest?_eq_some_cases {depth next : Nat} {character : Char}
    (hnest : nest? depth character = some next) :
    character = '(' ∧ next = depth + 1 ∨ character = ')' ∧ depth = next + 1 ∨
      character ≠ '(' ∧ character ≠ ')' ∧ next = depth := by
  by_cases hleft : character = '('
  · subst hleft
    exact Or.inl ⟨rfl, (Option.some.inj hnest).symm⟩
  · by_cases hright : character = ')'
    · subst hright
      cases depth with
      | zero => cases hnest
      | succ depth =>
          cases hnest
          exact Or.inr (Or.inl ⟨rfl, rfl⟩)
    · rw [nest?_of_ne hleft hright] at hnest
      exact Or.inr (Or.inr ⟨hleft, hright, (Option.some.inj hnest).symm⟩)

theorem eq_of_nest?_eq_none {depth : Nat} {character : Char} (hnest : nest? depth character = none) :
    character = ')' ∧ depth = 0 := by
  by_cases hleft : character = '('
  · subst hleft
    cases hnest
  · by_cases hright : character = ')'
    · subst hright
      cases depth with
      | zero => exact ⟨rfl, rfl⟩
      | succ depth => cases hnest
    · rw [nest?_of_ne hleft hright] at hnest
      cases hnest

theorem nest?_add {depth next : Nat} {character : Char} (hnest : nest? depth character = some next)
    (outer : Nat) : nest? (depth + outer) character = some (next + outer) := by
  rcases nest?_eq_some_cases hnest with ⟨rfl, rfl⟩ | ⟨rfl, rfl⟩ | ⟨hleft, hright, rfl⟩
  · rw [nest?_leftParen, Nat.add_right_comm]
  · rw [Nat.add_right_comm, nest?_rightParen_succ]
  · exact nest?_of_ne hleft hright _

@[simp]
theorem depth?_nil (depth : Nat) : depth? depth [] = some depth := rfl

theorem depth?_cons (depth : Nat) (character : Char) (rest : Text) :
    depth? depth (character :: rest) = (nest? depth character).bind (depth? · rest) := by
  rw [depth?, List.foldlM_cons]
  rfl

theorem depth?_run {run : Text} (hrun : ∀ character ∈ run, Cursor.isNumeral character = true)
    (depth : Nat) (rest : Text) : depth? depth (run ++ rest) = depth? depth rest := by
  induction run with
  | nil => rfl
  | cons first more ih =>
      rw [List.cons_append, depth?_cons, nest?_of_isNumeral (hrun first (by simp))]
      exact ih fun character hmem => hrun character (by simp [hmem])

theorem depth?_append (depth : Nat) (left right : Text) :
    depth? depth (left ++ right) = (depth? depth left).bind (depth? · right) :=
  List.foldlM_append

/-- A text opens and closes the same groups inside others. -/
theorem depth?_add {text : Text} {depth final : Nat} (hdepth : text.depth? depth = some final)
    (outer : Nat) : text.depth? (depth + outer) = some (final + outer) := by
  induction text generalizing depth with
  | nil =>
      cases hdepth
      rfl
  | cons character rest ih =>
      rw [depth?_cons] at hdepth ⊢
      obtain ⟨next, hnest, hrest⟩ := Option.bind_eq_some_iff.1 hdepth
      rw [nest?_add hnest outer]
      exact ih hrest

theorem count_of_nest? {depth next : Nat} {character : Char}
    (hnest : nest? depth character = some next) :
    next + [character].count ')' = depth + [character].count '(' := by
  rcases nest?_eq_some_cases hnest with ⟨rfl, rfl⟩ | ⟨rfl, rfl⟩ | ⟨hleft, hright, rfl⟩
  · rfl
  · rfl
  · simp [hleft, hright]

theorem count_of_depth? {text : Text} {depth final : Nat}
    (hdepth : text.depth? depth = some final) :
    final + text.count ')' = depth + text.count '(' := by
  induction text generalizing depth with
  | nil =>
      cases hdepth
      rfl
  | cons character rest ih =>
      rw [depth?_cons] at hdepth
      obtain ⟨next, hnest, hrest⟩ := Option.bind_eq_some_iff.1 hdepth
      have hfirst := count_of_nest? hnest
      have hrest := ih hrest
      rw [← List.singleton_append, List.count_append, List.count_append]
      omega

end Text

namespace Yard

/-- The number of groups that are open. -/
def opened (yard : Yard) : Nat :=
  yard.pending.countP (·.kind == .leftParen)

theorem opened_eq_zero_iff {yard : Yard} :
    yard.opened = 0 ↔ ∀ token ∈ yard.pending, token.kind ≠ .leftParen := by
  simp [opened, List.countP_eq_zero]

/-- A token of one character moves the number of open groups as the character does. -/
theorem nest?_opened_of_moves {yard next : Yard} {token : Token} {character : Char}
    (hmoves : yard.Moves token next)
    (hkind : Token.Kind.ofChar? character = some token.kind) :
    Text.nest? yard.opened character = some next.opened := by
  have hcases := Token.Kind.eq_of_ofChar?_eq_some hkind
  cases hmoves with
  | number hnumber => simp [hnumber] at hcases
  | @operator applied leaving staying happlied hpending hleaving =>
      have hzero : leaving.countP (·.kind == .leftParen) = 0 := by
        rw [List.countP_eq_zero]
        intro waiting hmem
        obtain ⟨other, hother, -⟩ := hleaving waiting hmem
        simp [hother]
      simp only [happlied, reduceCtorEq, and_false, false_or, Token.Kind.operator.injEq] at hcases
      obtain ⟨_, rfl, rfl⟩ := hcases
      rw [Text.nest?_symbol]
      simp [opened, hpending, List.countP_append, hzero, happlied]
  | leftParen hleft =>
      simp only [hleft, reduceCtorEq, and_true, and_false, or_false, exists_false] at hcases
      rw [hcases, Text.nest?_leftParen]
      simp [opened, hleft]
  | @rightParen leaving staying partner hright hpending hleaving hpartner =>
      have hzero : leaving.countP (·.kind == .leftParen) = 0 := by
        rw [List.countP_eq_zero]
        intro waiting hmem
        simpa using hleaving waiting hmem
      simp only [hright, reduceCtorEq, and_true, and_false, or_false, false_or,
        exists_false] at hcases
      have hopened : yard.opened = staying.countP (·.kind == .leftParen) + 1 := by
        simp [opened, hpending, List.countP_append, hzero, hpartner]
      rw [hcases, hopened, Text.nest?_rightParen_succ]
      rfl

/-- Reading a text opens and closes groups in the yard as the text does. -/
theorem depth?_of_run {source text : Text} {yard final : Yard} {position : Nat}
    (hrun : yard.run source ⟨position, text⟩ = .ok final) :
    text.depth? yard.opened = some final.opened := by
  induction text using Text.item_induction generalizing yard position with
  | nil =>
      rw [run_nil] at hrun
      cases hrun
      rfl
  | run run rest hisRun hrest ih =>
      rw [run_run source yard position hisRun hrest] at hrun
      rw [Text.depth?_run hisRun.2]
      -- A number opens no group: the yards differ in what is emitted.
      have hdepth := ih hrun
      exact hdepth
  | symbol character kind rest hkind ih =>
      rw [run_symbol source yard position hkind] at hrun
      obtain ⟨next, hstep, hrest⟩ := bind_eq_ok_iff.1 hrun
      have hnest := nest?_opened_of_moves (moves_of_step hstep) hkind
      rw [Text.depth?_cons, hnest]
      exact ih hrest
  | stray character rest hnumeral hkind ih =>
      rw [run_stray source yard position hnumeral hkind] at hrun
      cases hrun

/-- A text of the alphabet can fail only at a closing parenthesis. -/
theorem cause_of_run_eq_error {source text : Text} {yard : Yard} {position : Nat} {fault : Fault}
    (hallowed : ∀ character ∈ text, isAllowed character = true)
    (hrun : yard.run source ⟨position, text⟩ = .error fault) :
    fault.cause = .unbalancedParenthesis := by
  induction text using Text.item_induction generalizing yard position with
  | nil =>
      rw [run_nil] at hrun
      cases hrun
  | run run rest hisRun hrest ih =>
      rw [run_run source yard position hisRun hrest] at hrun
      exact ih (List.forall_mem_append.1 hallowed).2 hrun
  | symbol character kind rest hkind ih =>
      rw [run_symbol source yard position hkind] at hrun
      obtain hstep | ⟨next, -, hrest⟩ := bind_eq_error_iff.1 hrun
      · obtain ⟨-, -, rfl⟩ := step_eq_error_iff.1 hstep
        rfl
      · exact ih (List.forall_mem_cons.1 hallowed).2 hrest
  | stray character rest hnumeral hkind ih =>
      have hfirst := hallowed character List.mem_cons_self
      rw [isAllowed_eq_false hnumeral hkind] at hfirst
      cases hfirst

end Yard

namespace Rpn

theorem balanced_of_ofText {source : Text} {rpn : Rpn} (hconverts : ofText source = .ok rpn) :
    source.Balanced := by
  obtain ⟨yard, hrun, hpending, -⟩ := ofText_eq_ok_iff.1 hconverts
  have hdepth := Yard.depth?_of_run hrun
  have hopened : yard.opened = 0 := by
    rw [Yard.opened_eq_zero_iff]
    intro token hmem hleft
    have hparen := hpending token hmem
    simp [Token.isParen, hleft] at hparen
  rwa [hopened] at hdepth

theorem cause_of_ofText_eq_error {source : Text} {fault : Fault}
    (hallowed : ∀ character ∈ source, isAllowed character = true)
    (hfails : ofText source = .error fault) : fault.cause = .unbalancedParenthesis := by
  change Yard.empty.run source (Cursor.start source) >>= _ = _ at hfails
  obtain hrun | ⟨yard, -, hrest⟩ := bind_eq_error_iff.1 hfails
  · exact Yard.cause_of_run_eq_error hallowed hrun
  · obtain hdrain | ⟨tokens, -, hpure⟩ := bind_eq_error_iff.1 hrest
    · unfold Yard.drain at hdrain
      split at hdrain
      · cases hdrain
        rfl
      · cases hdrain
    · cases hpure

end Rpn

theorem count_parens_of_calculate {text : Text} {value : Binary64}
    (hvalue : calculate text = .ok value) : text.count ')' = text.count '(' := by
  obtain ⟨-, rpn, hconverts, -⟩ := calculate_eq_ok_iff.1 hvalue
  have hcount := Text.count_of_depth? (Rpn.balanced_of_ofText hconverts)
  omega

namespace Text

theorem leftParen_not_mem_relaxed (text : Text) : '(' ∉ text.relaxed := by
  simp [relaxed]

theorem rightParen_mem_relaxed {text : Text} (hmem : ')' ∈ text) : ')' ∈ text.relaxed := by
  simp [relaxed, hmem]

theorem relaxed_of_not_mem {text : Text} (hmem : '(' ∉ text) : text.relaxed = text := by
  rw [relaxed, List.filter_eq_self]
  intro character hcharacter
  rw [bne_iff_ne]
  rintro rfl
  exact hmem hcharacter

end Text

/-- An expression with a parenthesis has no value without the opening ones: the
first closing one is found to have no partner. -/
theorem calculate_relaxed_of_paren {text : Text} {value : Binary64}
    (hvalue : calculate text = .ok value) (hparen : '(' ∈ text ∨ ')' ∈ text) :
    ∃ fault, calculate text.relaxed = .error fault ∧ fault.cause = .unbalancedParenthesis := by
  have hcount := count_parens_of_calculate hvalue
  have hright : ')' ∈ text := by
    obtain hleft | hright := hparen
    · rw [← List.count_pos_iff] at hleft ⊢
      omega
    · exact hright
  obtain ⟨hallowed, -⟩ := calculate_eq_ok_iff.1 hvalue
  have hrelaxed : ∀ character ∈ text.relaxed, isAllowed character = true :=
    fun character hmem => hallowed character (List.mem_filter.1 hmem).1
  cases hconverts : Rpn.ofText text.relaxed with
  | error fault =>
      refine ⟨fault, ?_, Rpn.cause_of_ofText_eq_error hrelaxed hconverts⟩
      rw [calculate, convert_of_isAllowed hrelaxed, hconverts]
      rfl
  | ok rpn =>
      have hdepth := Text.count_of_depth? (Rpn.balanced_of_ofText hconverts)
      have hleft := List.count_eq_zero.2 text.leftParen_not_mem_relaxed
      have hpositive := List.count_pos_iff.2 (Text.rightParen_mem_relaxed hright)
      omega

/-- The intermediate result is the result itself if the stripped text has no
parenthesis, and otherwise there is none: the second run then fails at a closing
parenthesis.  A fault leaves no intermediate result. -/
theorem intermediate_ofText (text : Text) :
    ((Evaluation.ofText text).intermediate =
      match (Evaluation.ofText text).result with
      | .ok value => if '(' ∈ text.strip ∨ ')' ∈ text.strip then none else some value
      | .error _ => none) ∧
    ∀ value, (Evaluation.ofText text).result = .ok value →
      '(' ∈ text.strip ∨ ')' ∈ text.strip →
        ∃ fault, calculate text.strip.relaxed = .error fault ∧
          fault.cause = .unbalancedParenthesis := by
  refine ⟨?_, fun value hvalue hparen => calculate_relaxed_of_paren hvalue hparen⟩
  simp only [Evaluation.ofText]
  cases hvalue : calculate text.strip with
  | error fault => rfl
  | ok value =>
      dsimp only
      split
      · next hparen =>
          obtain ⟨fault, hfault, -⟩ := calculate_relaxed_of_paren hvalue hparen
          rw [hfault]
          rfl
      · next hparen =>
          rw [Text.relaxed_of_not_mem fun hleft => hparen (Or.inl hleft), hvalue]
          rfl

/-- A sum of groups, with a blank: it has a result and no intermediate one. -/
theorem intermediate_ofText_groups :
    (Evaluation.ofText ['(', '1', '+', '2', ')', ' ', '+', '(', '3', ')']).result =
        .ok (Decimal.toBinary64 ⟨6, 0⟩) ∧
      (Evaluation.ofText ['(', '1', '+', '2', ')', ' ', '+', '(', '3', ')']).intermediate =
        none ∧
      ∃ fault, calculate ['1', '+', '2', ')', '+', '3', ')'] = .error fault ∧
        fault.cause = .unbalancedParenthesis := by
  have hresult : (Evaluation.ofText ['(', '1', '+', '2', ')', ' ', '+', '(', '3', ')']).result =
      .ok (Decimal.toBinary64 ⟨6, 0⟩) := by
    decide +kernel
  obtain ⟨hintermediate, hrelaxed⟩ :=
    intermediate_ofText ['(', '1', '+', '2', ')', ' ', '+', '(', '3', ')']
  have hparen : '(' ∈ Text.strip ['(', '1', '+', '2', ')', ' ', '+', '(', '3', ')'] := by
    decide +kernel
  refine ⟨hresult, ?_, hrelaxed _ hresult (Or.inl hparen)⟩
  rw [hintermediate, hresult]
  exact if_pos (Or.inl hparen)

end Calculator

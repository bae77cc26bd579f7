import Calculator.Proofs.Fallible
import Calculator.Proofs.Items
import Calculator.Rpn.Basic

/-!
# What the yard does with one token

A number is emitted, an operator makes leave what binds at least as tightly and
waits, an opening parenthesis waits, and a closing one makes leave what waits up
to its partner.  These four moves are all that a successful step can be, and a
closing parenthesis without partner is the only step that fails.  No move loses or
repeats a number or an operator.
-/

namespace Calculator

/-- An operator of at least this precedence. -/
def Token.BindsAtLeast (level : Nat) (token : Token) : Prop :=
  ∃ applied, token.kind = .operator applied ∧ level ≤ applied.precedence

theorem Token.BindsAtLeast.mono {lower level : Nat} {token : Token}
    (hbinds : token.BindsAtLeast level) (hle : lower ≤ level) : token.BindsAtLeast lower := by
  obtain ⟨applied, hkind, hlevel⟩ := hbinds
  exact ⟨applied, hkind, Nat.le_trans hle hlevel⟩

theorem Token.BindsAtLeast.not_isParen {level : Nat} {token : Token}
    (hbinds : token.BindsAtLeast level) : token.isParen = false := by
  obtain ⟨applied, hkind, -⟩ := hbinds
  simp [Token.isParen, hkind]

/-- The numbers and operators among these tokens. -/
def withoutParens (tokens : List Token) : List Token :=
  tokens.filter (!·.isParen)

theorem withoutParens_cons (token : Token) (tokens : List Token) :
    withoutParens (token :: tokens) = withoutParens [token] ++ withoutParens tokens :=
  List.filter_append [token] tokens

theorem withoutParens_eq_self {tokens : List Token}
    (hparens : ∀ token ∈ tokens, token.isParen = false) : withoutParens tokens = tokens := by
  rw [withoutParens, List.filter_eq_self]
  intro token hmem
  rw [hparens token hmem]
  rfl

namespace Yard

theorem leavesBefore_iff {incoming : Operator} {waiting : Token} :
    leavesBefore incoming waiting = true ↔ waiting.BindsAtLeast incoming.precedence := by
  unfold leavesBefore Token.BindsAtLeast
  cases waiting.kind <;> simp

/-- Takes in all items from a cursor to the end of the text. -/
def run (source : Text) (yard : Yard) (cursor : Cursor) : Except Fault Yard :=
  cursor.items.foldlM (stepItem source) yard

@[simp]
theorem run_nil (source : Text) (yard : Yard) (position : Nat) :
    run source yard ⟨position, []⟩ = .ok yard := by
  simp [run, pure, Except.pure]

theorem run_run (source : Text) (yard : Yard) (position : Nat) {run rest : Text}
    (hrun : run.IsRun) (hrest : rest.BreaksRun) :
    yard.run source ⟨position, run ++ rest⟩ =
      Yard.run source ⟨⟨.number, run, position⟩ :: yard.emitted, yard.pending⟩
        ⟨position + run.byteLength, rest⟩ := by
  rw [Yard.run, Cursor.items_run position hrun hrest, List.foldlM_cons]
  rfl

theorem run_symbol (source : Text) (yard : Yard) (position : Nat) {character : Char}
    {kind : Token.Kind} (hkind : Token.Kind.ofChar? character = some kind) (rest : Text) :
    yard.run source ⟨position, character :: rest⟩ =
      yard.step source ⟨kind, [character], position⟩ >>= fun next =>
        next.run source ⟨position + character.utf8Size, rest⟩ := by
  rw [run, Cursor.items_symbol position hkind, List.foldlM_cons]
  rfl

theorem run_stray (source : Text) (yard : Yard) (position : Nat) {character : Char}
    (hnumeral : Cursor.isNumeral character = false)
    (hkind : Token.Kind.ofChar? character = none) (rest : Text) :
    yard.run source ⟨position, character :: rest⟩ =
      .error ⟨.unexpectedCharacter character, ⟨position, character.utf8Size⟩, source⟩ := by
  rw [run, Cursor.items_stray position hnumeral hkind, List.foldlM_cons]
  rfl

/-- What the yard can become when it takes in a token. -/
inductive Moves (yard : Yard) (token : Token) : Yard → Prop
  | number (hkind : token.kind = .number) :
      Moves yard token ⟨token :: yard.emitted, yard.pending⟩
  | operator {applied : Operator} {leaving staying : List Token}
      (hkind : token.kind = .operator applied) (hpending : yard.pending = leaving ++ staying)
      (hleaving : ∀ waiting ∈ leaving, waiting.BindsAtLeast applied.precedence)
      (hstaying : ∀ waiting ∈ staying.head?, ¬waiting.BindsAtLeast applied.precedence) :
      Moves yard token ⟨leaving.reverse ++ yard.emitted, token :: staying⟩
  | leftParen (hkind : token.kind = .leftParen) :
      Moves yard token ⟨yard.emitted, token :: yard.pending⟩
  | rightParen {leaving staying : List Token} {partner : Token}
      (hkind : token.kind = .rightParen)
      (hpending : yard.pending = leaving ++ partner :: staying)
      (hleaving : ∀ waiting ∈ leaving, waiting.kind ≠ .leftParen)
      (hpartner : partner.kind = .leftParen) :
      Moves yard token ⟨leaving.reverse ++ yard.emitted, staying⟩

theorem moves_of_step {source : Text} {yard next : Yard} {token : Token}
    (hstep : yard.step source token = .ok next) : yard.Moves token next := by
  unfold step at hstep
  split at hstep
  · next hkind =>
      cases hstep
      exact .number hkind
  · next applied hkind =>
      cases hstep
      refine .operator hkind List.takeWhile_append_dropWhile.symm ?_ ?_
      · intro waiting hmem
        exact leavesBefore_iff.1 (List.mem_takeWhile_imp hmem)
      · intro waiting hhead hbinds
        have hnot := List.head?_dropWhile_not (leavesBefore applied) yard.pending
        rw [hhead] at hnot
        simp [leavesBefore_iff.2 hbinds] at hnot
  · next hkind =>
      cases hstep
      exact .leftParen hkind
  · next hkind =>
      split at hstep
      · cases hstep
      · next partner staying hdrop =>
          cases hstep
          have hsplit := List.takeWhile_append_dropWhile (p := (·.kind != .leftParen))
            (l := yard.pending)
          rw [hdrop] at hsplit
          refine .rightParen hkind hsplit.symm ?_ ?_
          · intro waiting hmem
            simpa using List.mem_takeWhile_imp hmem
          · have hnot := List.head?_dropWhile_not (·.kind != .leftParen) yard.pending
            rw [hdrop] at hnot
            simpa using hnot

theorem step_eq_error_iff {source : Text} {yard : Yard} {token : Token} {fault : Fault} :
    yard.step source token = .error fault ↔
      token.kind = .rightParen ∧ (∀ waiting ∈ yard.pending, waiting.kind ≠ .leftParen) ∧
        fault = token.fault source .unbalancedParenthesis := by
  unfold step
  cases hkind : token.kind with
  | number => simp
  | operator applied => simp
  | leftParen => simp
  | rightParen =>
      have hnone : yard.pending.dropWhile (·.kind != .leftParen) = [] ↔
          ∀ waiting ∈ yard.pending, waiting.kind ≠ .leftParen := by
        simp
      rw [← hnone]
      cases yard.pending.dropWhile (·.kind != .leftParen) with
      | nil => simp [eq_comm]
      | cons partner staying => simp

/-- All tokens that a yard holds. -/
def held (yard : Yard) : List Token :=
  yard.emitted ++ yard.pending

/-- A move keeps what is held and adds the token, except that two partners vanish. -/
theorem Moves.perm {yard next : Yard} {token : Token} (hmoves : yard.Moves token next) :
    (withoutParens next.held).Perm (withoutParens (token :: yard.held)) := by
  cases hmoves with
  | number => exact List.Perm.refl _
  | @operator applied leaving staying _ hpending =>
      apply List.Perm.filter
      simp only [held, hpending, ← List.append_assoc]
      refine List.perm_middle.trans (List.Perm.cons _ (List.Perm.append_right _ ?_))
      exact (List.Perm.append_right _ leaving.reverse_perm).trans List.perm_append_comm
  | leftParen hkind =>
      apply List.Perm.filter
      exact List.perm_middle
  | @rightParen leaving staying partner hkind hpending _ hpartner =>
      have htoken : token.isParen = true := by simp [Token.isParen, hkind]
      have hpartnerParen : partner.isParen = true := by simp [Token.isParen, hpartner]
      simp only [held, hpending, withoutParens, List.filter_append, List.filter_cons,
        htoken, hpartnerParen, Bool.not_true, Bool.false_eq_true, if_false, ← List.append_assoc]
      apply List.Perm.append_right
      exact (List.Perm.append_right _ (leaving.reverse_perm.filter _)).trans
        List.perm_append_comm

theorem stepItem_eq_ok {source : Text} {yard next : Yard} {item : Item}
    (hstep : yard.stepItem source item = .ok next) :
    ∃ token, item = .token token ∧ yard.step source token = .ok next := by
  cases item with
  | token found => exact ⟨found, rfl, hstep⟩
  | stray character position => cases hstep

/-- Items that are taken in are tokens. -/
theorem exists_tokens_of_foldlM {source : Text} {items : List Item} {yard final : Yard}
    (hrun : items.foldlM (stepItem source) yard = .ok final) :
    ∃ tokens : List Token, items = tokens.map Item.token ∧
      tokens.foldlM (step source) yard = .ok final := by
  refine foldlM_induction (motive := fun yard items final =>
    ∃ tokens : List Token, items = tokens.map Item.token ∧
      tokens.foldlM (step source) yard = .ok final) ?_ ?_ hrun
  · intro yard
    exact ⟨[], rfl, rfl⟩
  · rintro yard next final item items hstep ⟨tokens, rfl, htokens⟩
    obtain ⟨token, rfl, htoken⟩ := stepItem_eq_ok hstep
    exact ⟨token :: tokens, rfl, foldlM_cons_eq_ok_iff.2 ⟨next, htoken, htokens⟩⟩

/-- A text that is read has tokens only. -/
theorem foldlM_tokens_of_run {source : Text} {yard final : Yard} {cursor : Cursor}
    (hrun : yard.run source cursor = .ok final) :
    cursor.tokens.foldlM (step source) yard = .ok final := by
  obtain ⟨tokens, hitems, htokens⟩ := exists_tokens_of_foldlM hrun
  rwa [Cursor.tokens, hitems, Item.filterMap_token?_map]

/-- Tokens that are taken in add their numbers and operators to what is held. -/
theorem perm_of_foldlM {source : Text} {tokens : List Token} {yard final : Yard}
    (hrun : tokens.foldlM (step source) yard = .ok final) :
    (withoutParens final.held).Perm (withoutParens tokens ++ withoutParens yard.held) := by
  refine foldlM_induction (motive := fun yard tokens final =>
    (withoutParens final.held).Perm (withoutParens tokens ++ withoutParens yard.held)) ?_ ?_ hrun
  · intro yard
    exact List.Perm.refl _
  · intro yard next final token tokens hstep ih
    have hmove := (moves_of_step hstep).perm
    rw [withoutParens_cons] at hmove
    rw [withoutParens_cons token tokens, List.append_assoc]
    refine ih.trans ((List.Perm.append_left _ hmove).trans ?_)
    rw [← List.append_assoc, ← List.append_assoc]
    exact List.Perm.append_right _ List.perm_append_comm

end Yard

namespace Rpn

/-- A conversion succeeds if the whole text is read and no parenthesis is left
waiting; what waits then follows what was emitted. -/
theorem ofText_eq_ok_iff {source : Text} {rpn : Rpn} :
    ofText source = .ok rpn ↔
      ∃ yard, Yard.empty.run source (Cursor.start source) = .ok yard ∧
        (∀ token ∈ yard.pending, token.isParen = false) ∧
        rpn = ⟨source, yard.emitted.reverse ++ yard.pending⟩ := by
  have hdrain : ∀ (yard : Yard) (tokens : List Token), yard.drain source = .ok tokens ↔
      (∀ token ∈ yard.pending, token.isParen = false) ∧
        tokens = yard.emitted.reverse ++ yard.pending := by
    intro yard tokens
    have hnone : yard.pending.find? Token.isParen = none ↔
        ∀ token ∈ yard.pending, token.isParen = false := by
      simp
    rw [← hnone, Yard.drain]
    cases yard.pending.find? Token.isParen with
    | none => simp [eq_comm]
    | some token => simp
  change Yard.empty.run source (Cursor.start source) >>= _ = _ ↔ _
  rw [bind_eq_ok_iff]
  constructor
  · rintro ⟨yard, hrun, hrest⟩
    obtain ⟨tokens, htokens, hrpn⟩ := bind_eq_ok_iff.1 hrest
    obtain ⟨hpending, rfl⟩ := (hdrain yard tokens).1 htokens
    exact ⟨yard, hrun, hpending, (Except.ok.inj hrpn).symm⟩
  · rintro ⟨yard, hrun, hpending, rfl⟩
    refine ⟨yard, hrun, bind_eq_ok_iff.2 ⟨_, (hdrain yard _).2 ⟨hpending, rfl⟩, rfl⟩⟩

@[simp]
theorem ofText_nil : ofText [] = .ok ⟨[], []⟩ :=
  ofText_eq_ok_iff.2 ⟨Yard.empty, Yard.run_nil [] Yard.empty 0, by simp [Yard.empty], rfl⟩

theorem source_of_ofText {source : Text} {rpn : Rpn} (hconverts : ofText source = .ok rpn) :
    rpn.source = source := by
  obtain ⟨yard, -, -, rfl⟩ := ofText_eq_ok_iff.1 hconverts
  rfl

/-- The postfix form has the numbers and operators of the text. -/
theorem perm_of_ofText {source : Text} {rpn : Rpn} (hconverts : ofText source = .ok rpn) :
    (withoutParens rpn.tokens).Perm (withoutParens (Cursor.start source).tokens) := by
  obtain ⟨yard, hrun, -, rfl⟩ := ofText_eq_ok_iff.1 hconverts
  have hheld := Yard.perm_of_foldlM (Yard.foldlM_tokens_of_run hrun)
  rw [show withoutParens Yard.empty.held = [] from rfl, List.append_nil] at hheld
  exact ((List.Perm.append_right _ (List.reverse_perm _)).filter _).trans hheld

end Rpn

end Calculator

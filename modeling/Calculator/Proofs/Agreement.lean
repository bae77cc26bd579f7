import Mathlib.Data.List.Forall2
import Calculator.Proofs.Places
import Calculator.Proofs.Stack

/-!
# Runs that agree

Two runs agree if they succeed with related results or fail for the same cause.  The
yard looks only at the kinds of tokens, and the stack only at kinds and literals, so
runs on tokens that stand elsewhere agree.  What was emitted before is never looked
at again, and may differ between two runs of the yard.
-/

namespace Calculator

/-- Both succeed, with related results, or both fail for one cause.  Where the faults
point and what text they quote may differ. -/
inductive Agree {First Second : Type} (related : First → Second → Prop) :
    Except Fault First → Except Fault Second → Prop
  | ok {first : First} {second : Second} (hrelated : related first second) :
      Agree related (.ok first) (.ok second)
  | error {first second : Fault} (hcause : first.cause = second.cause) :
      Agree related (.error first) (.error second)

namespace Agree

section Chains

variable {First Second FirstResult SecondResult FirstInput SecondInput : Type}
variable {related : First → Second → Prop}

theorem bind {result : FirstResult → SecondResult → Prop} {first : Except Fault First}
    {second : Except Fault Second} {next : First → Except Fault FirstResult}
    {other : Second → Except Fault SecondResult} (hagree : Agree related first second)
    (hnext : ∀ a b, related a b → Agree result (next a) (other b)) :
    Agree result (first >>= next) (second >>= other) := by
  cases hagree with
  | ok hrelated => exact hnext _ _ hrelated
  | error hcause => exact .error hcause

/-- Steps that agree on matching inputs agree as chains. -/
theorem foldlM {matching : FirstInput → SecondInput → Prop}
    {step : First → FirstInput → Except Fault First}
    {other : Second → SecondInput → Except Fault Second}
    (hstep : ∀ state state' input input', related state state' → matching input input' →
      Agree related (step state input) (other state' input'))
    {inputs : List FirstInput} {inputs' : List SecondInput}
    (hinputs : List.Forall₂ matching inputs inputs') {state : First} {state' : Second}
    (hstate : related state state') :
    Agree related (inputs.foldlM step state) (inputs'.foldlM other state') := by
  induction hinputs generalizing state state' with
  | nil => exact .ok hstate
  | cons hinput _ ih =>
      rw [List.foldlM_cons, List.foldlM_cons]
      exact (hstep _ _ _ _ hstate hinput).bind fun _ _ hnext => ih hnext

end Chains

end Agree

section Tests

variable {α : Type} {matching : α → α → Prop} {keeps : α → Bool} {left right : List α}

theorem any_eq_of_forall₂ (hkeeps : ∀ a b, matching a b → keeps a = keeps b)
    (hlists : List.Forall₂ matching left right) : left.any keeps = right.any keeps := by
  induction hlists with
  | nil => rfl
  | cons hfirst _ ih => rw [List.any_cons, List.any_cons, ih, hkeeps _ _ hfirst]

/-- A test that tells no matching values apart cuts matching lists at the same place. -/
theorem forall₂_takeWhile_dropWhile (hkeeps : ∀ a b, matching a b → keeps a = keeps b)
    (hlists : List.Forall₂ matching left right) :
    List.Forall₂ matching (left.takeWhile keeps) (right.takeWhile keeps) ∧
      List.Forall₂ matching (left.dropWhile keeps) (right.dropWhile keeps) := by
  induction hlists with
  | nil => exact ⟨.nil, .nil⟩
  | @cons first second left right hfirst hrest ih =>
      simp only [List.takeWhile_cons, List.dropWhile_cons, ← hkeeps _ _ hfirst]
      cases keeps first with
      | true => exact ⟨.cons hfirst ih.1, ih.2⟩
      | false => exact ⟨.nil, .cons hfirst hrest⟩

end Tests

/-- Tokens match and so do stray characters, which are the same. -/
def Item.Matches (matching : Token → Token → Prop) : Item → Item → Prop
  | .token first, .token second => matching first second
  | .stray first _, .stray second _ => first = second
  | _, _ => False

theorem Item.forall₂_matches_moved (distance : Nat) (items : List Item) :
    List.Forall₂ (Item.Matches fun first second => first.moved distance = second) items
      (items.map (Item.moved distance)) := by
  rw [List.forall₂_map_right_iff, List.forall₂_same]
  intro item _
  cases item with
  | token found => rfl
  | stray character position => rfl

namespace Yard

section Matching

variable {matching : Token → Token → Prop} {source other : Text}

/-- The waiting tokens match, and so do those emitted since two lists that need not. -/
def Matches (matching : Token → Token → Prop) (settled settled' : List Token)
    (first second : Yard) : Prop :=
  (∃ emitted emitted', first.emitted = emitted ++ settled ∧
    second.emitted = emitted' ++ settled' ∧ List.Forall₂ matching emitted emitted') ∧
  List.Forall₂ matching first.pending second.pending

theorem matches_settled (settled settled' : List Token) {pending pending' : List Token}
    (hpending : List.Forall₂ matching pending pending') :
    Matches matching settled settled' ⟨settled, pending⟩ ⟨settled', pending'⟩ :=
  ⟨⟨[], [], rfl, rfl, .nil⟩, hpending⟩

theorem agree_step (hkind : ∀ a b, matching a b → a.kind = b.kind)
    {settled settled' : List Token} {first second : Yard} {token token' : Token}
    (hyards : Matches matching settled settled' first second) (htoken : matching token token') :
    Agree (Matches matching settled settled') (first.step source token)
      (second.step other token') := by
  obtain ⟨⟨emitted, emitted', hfirst, hsecond, hemitted⟩, hpending⟩ := hyards
  -- What leaves and what stays, in both yards at once.
  have hleaves : ∀ leaving leaving' : List Token, List.Forall₂ matching leaving leaving' →
      ∃ added added', leaving.reverse ++ first.emitted = added ++ settled ∧
        leaving'.reverse ++ second.emitted = added' ++ settled' ∧
        List.Forall₂ matching added added' := fun leaving leaving' hleaving =>
    ⟨leaving.reverse ++ emitted, leaving'.reverse ++ emitted', by rw [hfirst, List.append_assoc],
      by rw [hsecond, List.append_assoc],
      List.rel_append (List.rel_reverse hleaving) hemitted⟩
  have htokens : token'.kind = token.kind := (hkind _ _ htoken).symm
  unfold step
  rw [htokens]
  cases token.kind with
  | number =>
      exact .ok ⟨⟨token :: emitted, token' :: emitted', by rw [hfirst, List.cons_append],
        by rw [hsecond, List.cons_append], .cons htoken hemitted⟩, hpending⟩
  | operator incoming =>
      have hkeeps : ∀ a b, matching a b → leavesBefore incoming a = leavesBefore incoming b := by
        intro a b hmatching
        rw [leavesBefore, leavesBefore, hkind a b hmatching]
      obtain ⟨htake, hdrop⟩ := forall₂_takeWhile_dropWhile hkeeps hpending
      exact .ok ⟨hleaves _ _ htake, .cons htoken hdrop⟩
  | leftParen => exact .ok ⟨⟨emitted, emitted', hfirst, hsecond, hemitted⟩, .cons htoken hpending⟩
  | rightParen =>
      have hkeeps : ∀ a b, matching a b →
          (a.kind != Token.Kind.leftParen) = (b.kind != Token.Kind.leftParen) := by
        intro a b hmatching
        rw [hkind a b hmatching]
      obtain ⟨htake, hdrop⟩ := forall₂_takeWhile_dropWhile hkeeps hpending
      dsimp only
      revert hdrop
      cases first.pending.dropWhile (·.kind != .leftParen) with
      | nil =>
          intro hdrop
          rw [List.forall₂_nil_left_iff.1 hdrop]
          exact .error rfl
      | cons partner staying =>
          intro hdrop
          obtain ⟨partner', staying', -, hstaying, hcons⟩ := List.forall₂_cons_left_iff.1 hdrop
          rw [hcons]
          exact .ok ⟨hleaves _ _ htake, hstaying⟩

/-- Yards that match agree on matching items. -/
theorem agree_foldlM (hkind : ∀ a b, matching a b → a.kind = b.kind)
    {settled settled' : List Token} {first second : Yard} {items items' : List Item}
    (hitems : List.Forall₂ (Item.Matches matching) items items')
    (hyards : Matches matching settled settled' first second) :
    Agree (Matches matching settled settled') (items.foldlM (stepItem source) first)
      (items'.foldlM (stepItem other) second) := by
  refine Agree.foldlM ?_ hitems hyards
  intro yard yard' item item' hyard hitem
  cases item with
  | token found =>
      cases item' with
      | token found' => exact agree_step hkind hyard hitem
      | stray => cases hitem
  | stray character position =>
      cases item' with
      | token => cases hitem
      | stray => exact .error (congrArg Cause.unexpectedCharacter hitem)

/-- Yards that match are emptied alike behind what was emitted before. -/
theorem agree_drain (hkind : ∀ a b, matching a b → a.kind = b.kind)
    {settled settled' : List Token} {first second : Yard}
    (hyards : Matches matching settled settled' first second) :
    Agree (fun tokens tokens' => ∃ rest rest', tokens = settled.reverse ++ rest ∧
        tokens' = settled'.reverse ++ rest' ∧ List.Forall₂ matching rest rest')
      (first.drain source) (second.drain other) := by
  obtain ⟨⟨emitted, emitted', hfirst, hsecond, hemitted⟩, hpending⟩ := hyards
  have hparen : (first.pending.find? Token.isParen).isSome =
      (second.pending.find? Token.isParen).isSome := by
    rw [List.isSome_find?, List.isSome_find?]
    apply any_eq_of_forall₂ _ hpending
    intro token token' htoken
    rw [Token.isParen, Token.isParen, hkind _ _ htoken]
  unfold drain
  revert hparen
  cases first.pending.find? Token.isParen with
  | some token =>
      cases second.pending.find? Token.isParen with
      | some token' => exact fun _ => .error rfl
      | none => exact fun hparen => Bool.noConfusion hparen
  | none =>
      cases second.pending.find? Token.isParen with
      | some token' => exact fun hparen => Bool.noConfusion hparen
      | none =>
          intro _
          refine .ok ⟨emitted.reverse ++ first.pending, emitted'.reverse ++ second.pending,
            ?_, ?_, List.rel_append (List.rel_reverse hemitted) hpending⟩
          · simp [hfirst]
          · simp [hsecond]

end Matching

end Yard

/-- The same kind and the same literal, wherever they stand. -/
def Token.Alike (first second : Token) : Prop :=
  first.kind = second.kind ∧ first.literal = second.literal

theorem Token.alike_moved (distance : Nat) (token : Token) : token.Alike (token.moved distance) :=
  ⟨rfl, rfl⟩

theorem Token.Alike.value?_eq {first second : Token} (halike : first.Alike second) :
    first.value? = second.value? := by
  rw [Token.value?, Token.value?, halike.1, halike.2]

namespace Rpn

theorem agree_step {source other : Text} {token token' : Token} (halike : token.Alike token')
    (stack : List Binary64) :
    Agree (· = ·) (step source stack token) (step other stack token') := by
  unfold step
  rw [← halike.value?_eq]
  cases token.value? with
  | some value => exact .ok rfl
  | none =>
      match stack with
      | [] => exact .error (congrArg Cause.missingOperands halike.2)
      | [_] => exact .error (congrArg Cause.missingOperands halike.2)
      | right :: left :: below =>
          have hcombine : token'.combine left right = token.combine left right := by
            rw [Token.combine, Token.combine, halike.1, halike.2]
          dsimp only
          rw [hcombine]
          cases token.combine left right with
          | ok value => exact .ok rfl
          | error cause => exact .error rfl

/-- Tokens that stand elsewhere run alike. -/
theorem agree_foldlM (source other : Text) {tokens tokens' : List Token}
    (halike : List.Forall₂ Token.Alike tokens tokens') (stack : List Binary64) :
    Agree (· = ·) (tokens.foldlM (step source) stack) (tokens'.foldlM (step other) stack) := by
  refine Agree.foldlM ?_ halike rfl
  rintro stack _ token token' rfl htoken
  exact agree_step htoken stack

theorem agree_result (source other : Text) (stack : List Binary64) :
    Agree (· = ·) (result source stack) (result other stack) := by
  match stack with
  | [] => exact .error rfl
  | [value] => exact .ok rfl
  | _ :: _ :: _ => exact .error rfl

end Rpn

end Calculator

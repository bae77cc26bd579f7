import Calculator.Proofs.Agreement
import Calculator.Proofs.Yard

/-!
# Groups in any yard

Nothing that waits below an opening parenthesis is looked at before the parenthesis
is closed, and nothing emitted is looked at again.  So a text that converts by itself
is read in a group as it is read alone: whatever the yard, the group's postfix form
is emitted and the yard is otherwise left as it was.
-/

namespace Calculator

section Boundary

variable {α : Type} {keeps : α → Bool} {back : List α}

theorem takeWhile_append_of_stop (front : List α)
    (hback : ∀ value ∈ back.head?, keeps value = false) :
    (front ++ back).takeWhile keeps = front.takeWhile keeps := by
  induction front with
  | nil =>
      have hnone : ∀ value ∈ ([] : List α), keeps value = true := by simp
      exact takeWhile_append_of_boundary hnone hback
  | cons value front ih => simp only [List.cons_append, List.takeWhile_cons, ih]

theorem dropWhile_append_of_stop (front : List α)
    (hback : ∀ value ∈ back.head?, keeps value = false) :
    (front ++ back).dropWhile keeps = front.dropWhile keeps ++ back := by
  induction front with
  | nil =>
      have hnone : ∀ value ∈ ([] : List α), keeps value = true := by simp
      exact dropWhile_append_of_boundary hnone hback
  | cons value front ih =>
      simp only [List.cons_append, List.dropWhile_cons, ih]
      split <;> simp

end Boundary

theorem Agree.exists_ok {First Second : Type} {related : First → Second → Prop} {first : First}
    {second : Except Fault Second} (hagree : Agree related (.ok first) second) :
    ∃ value, second = .ok value ∧ related first value := by
  cases hagree with
  | ok hrelated => exact ⟨_, rfl, hrelated⟩

theorem Agree.exists_error {First Second : Type} {related : First → Second → Prop}
    {first : Fault} {second : Except Fault Second} (hagree : Agree related (.error first) second) :
    ∃ fault, second = .error fault ∧ first.cause = fault.cause := by
  cases hagree with
  | error hcause => exact ⟨_, rfl, hcause⟩

namespace Yard

/-- A text is read up to a place that is not inside a number, and then from there. -/
theorem run_append (source : Text) (yard : Yard) (position : Nat) (left : Text) {right : Text}
    (hright : right.BreaksRun) :
    yard.run source ⟨position, left ++ right⟩ =
      yard.run source ⟨position, left⟩ >>= fun next =>
        next.run source ⟨position + left.byteLength, right⟩ := by
  rw [run, Cursor.items_append position left hright, List.foldlM_append]
  rfl

/-- The yard on top of another one. -/
def above (yard base : Yard) : Yard :=
  ⟨yard.emitted ++ base.emitted, yard.pending ++ base.pending⟩

/-- What waits next, if anything does, is an opening parenthesis. -/
def IsOpen (yard : Yard) : Prop :=
  ∀ token ∈ yard.pending.head?, token.kind = .leftParen

theorem step_above {source : Text} {yard next base : Yard} {token : Token}
    (hopen : base.IsOpen) (hstep : yard.step source token = .ok next) :
    (yard.above base).step source token = .ok (next.above base) := by
  unfold step at hstep ⊢
  cases hkind : token.kind with
  | number =>
      simp only [hkind] at hstep ⊢
      cases hstep
      rfl
  | operator incoming =>
      have hstop : ∀ token ∈ base.pending.head?, leavesBefore incoming token = false := by
        intro token hhead
        simp [leavesBefore, hopen token hhead]
      simp only [hkind] at hstep ⊢
      cases hstep
      simp only [above, takeWhile_append_of_stop _ hstop, dropWhile_append_of_stop _ hstop,
        List.append_assoc, List.cons_append]
  | leftParen =>
      simp only [hkind] at hstep ⊢
      cases hstep
      rfl
  | rightParen =>
      have hstop : ∀ token ∈ base.pending.head?, (token.kind != .leftParen) = false := by
        intro token hhead
        simp [hopen token hhead]
      simp only [hkind] at hstep ⊢
      rw [above, takeWhile_append_of_stop _ hstop, dropWhile_append_of_stop _ hstop]
      cases hdrop : yard.pending.dropWhile (·.kind != .leftParen) with
      | nil =>
          rw [hdrop] at hstep
          cases hstep
      | cons partner staying =>
          rw [hdrop] at hstep
          cases hstep
          simp [above]

/-- A run that succeeds in a yard by itself goes the same way on top of another. -/
theorem foldlM_above {source : Text} {items : List Item} {yard final base : Yard}
    (hopen : base.IsOpen) (hrun : items.foldlM (stepItem source) yard = .ok final) :
    items.foldlM (stepItem source) (yard.above base) = .ok (final.above base) := by
  refine foldlM_induction (motive := fun yard items final =>
    items.foldlM (stepItem source) (yard.above base) = .ok (final.above base)) ?_ ?_ hrun
  · intro yard
    rfl
  · intro yard next final item items hstep ih
    obtain ⟨token, rfl, htoken⟩ := stepItem_eq_ok hstep
    exact foldlM_cons_eq_ok_iff.2 ⟨_, step_above hopen htoken, ih⟩

/-- The same yard of tokens that stand so many bytes further on. -/
def moved (distance : Nat) (yard : Yard) : Yard :=
  ⟨yard.emitted.map (Token.moved distance), yard.pending.map (Token.moved distance)⟩

/-- A text that is read by itself is read alike in any source and at any place. -/
theorem run_moved {text : Text} {final : Yard}
    (hrun : empty.run text (Cursor.start text) = .ok final) (source : Text) (position : Nat) :
    empty.run source ⟨position, text⟩ = .ok (final.moved position) := by
  have hitems := Item.forall₂_matches_moved position (Cursor.start text).items
  rw [Cursor.start, ← Cursor.items_add, Nat.zero_add] at hitems
  have hempty : Matches (fun first second => first.moved position = second) [] [] empty empty :=
    matches_settled [] [] .nil
  have hkind : ∀ first second : Token, first.moved position = second →
      first.kind = second.kind := by
    rintro first _ rfl
    rfl
  have hagree : Agree _ (empty.run text (Cursor.start text))
      (empty.run source ⟨position, text⟩) := agree_foldlM hkind hitems hempty
  rw [hrun] at hagree
  obtain ⟨reached, hreached, ⟨emitted, emitted', hfirst, hsecond, hemitted⟩, hpending⟩ :=
    hagree.exists_ok
  rw [← List.forall₂_map_left_iff, List.forall₂_eq_eq_eq] at hemitted hpending
  rw [hreached]
  simp only [List.append_nil] at hfirst hsecond
  rw [moved, hfirst, hemitted, hpending, ← hsecond]

/-- Behind an opening parenthesis, a text that is read by itself is read as it is alone,
on top of what was there. -/
theorem run_leftParen {text : Text} {inner : Yard}
    (hinner : empty.run text (Cursor.start text) = .ok inner) (source : Text) (yard : Yard)
    (position : Nat) {rest : Text} (hrest : rest.BreaksRun) :
    yard.run source ⟨position, '(' :: (text ++ rest)⟩ =
      Yard.run source
        ((inner.moved (position + 1)).above
          ⟨yard.emitted, ⟨.leftParen, ['('], position⟩ :: yard.pending⟩)
        ⟨position + 1 + text.byteLength, rest⟩ := by
  have hopen : IsOpen ⟨yard.emitted, ⟨.leftParen, ['('], position⟩ :: yard.pending⟩ := by
    simp [IsOpen]
  rw [run_symbol source yard position Token.Kind.ofChar?_leftParen]
  change Yard.run source ⟨yard.emitted, ⟨.leftParen, ['('], position⟩ :: yard.pending⟩
    ⟨position + 1, text ++ rest⟩ = _
  rw [run_append _ _ _ text hrest]
  have hread : Yard.run source ⟨yard.emitted, ⟨.leftParen, ['('], position⟩ :: yard.pending⟩
      ⟨position + 1, text⟩ = .ok ((inner.moved (position + 1)).above
        ⟨yard.emitted, ⟨.leftParen, ['('], position⟩ :: yard.pending⟩) :=
    foldlM_above hopen (run_moved hinner source (position + 1))
  rw [hread]
  rfl

/-- A group emits the postfix form of what it holds, and leaves the yard otherwise as
it was. -/
theorem run_group {text : Text} {rpn : Rpn} (hconverts : Rpn.ofText text = .ok rpn)
    (source : Text) (yard : Yard) (position : Nat) (rest : Text) :
    yard.run source ⟨position, '(' :: (text ++ ')' :: rest)⟩ =
      Yard.run source
        ⟨(rpn.tokens.map (Token.moved (position + 1))).reverse ++ yard.emitted, yard.pending⟩
        ⟨position + 1 + text.byteLength + 1, rest⟩ := by
  obtain ⟨inner, hinner, hpending, rfl⟩ := Rpn.ofText_eq_ok_iff.1 hconverts
  have hclose : Text.BreaksRun (')' :: rest) := by
    rw [Text.breaksRun_cons]
    rfl
  rw [run_leftParen hinner source yard position hclose,
    run_symbol source _ _ Token.Kind.ofChar?_rightParen]
  have hleave : ∀ token ∈ inner.pending.map (Token.moved (position + 1)),
      (token.kind != .leftParen) = true := by
    intro token hmem
    obtain ⟨waiting, hwaiting, rfl⟩ := List.mem_map.1 hmem
    have hparen := hpending waiting hwaiting
    rw [bne_iff_ne]
    intro hkind
    simp [Token.isParen, show waiting.kind = .leftParen from hkind] at hparen
  have hstay : ∀ token ∈ List.head? ((⟨.leftParen, ['('], position⟩ : Token) :: yard.pending),
      (token.kind != .leftParen) = false := by
    simp
  simp only [step, above, moved]
  rw [takeWhile_append_of_boundary hleave hstay, dropWhile_append_of_boundary hleave hstay]
  simp only [List.map_append, List.map_reverse, List.reverse_append, List.reverse_reverse,
    List.append_assoc]
  rfl

end Yard

end Calculator

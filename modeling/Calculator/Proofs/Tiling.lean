import Mathlib.Data.List.Chain
import Calculator.Proofs.Places

/-!
# Items tile their text

A cursor that is driven from the start of a text comes to its end after finitely many
items, and in one way only.  The items leave no gap and do not overlap: each starts where
the one before it ended, the position behind an item is its end, and the slices of all of
them make up the text.  A number is never cut in two.
-/

namespace Calculator

namespace Item

def isNumber : Item → Bool
  | .token found => found.kind == .number
  | .stray _ _ => false

/-- The item is what its characters prescribe: a token of their kind, and a number only if
they are digits and points, or a character of no token. -/
def IsSpelled : Item → Prop
  | .token found =>
      found.IsSpelled ∧
        (found.kind = .number ↔ ∀ character ∈ found.literal, Cursor.isNumeral character = true)
  | .stray character _ => isAllowed character = false

theorem isSpelled_number {run : Text} (hrun : run.IsRun) (offset : Nat) :
    IsSpelled (.token ⟨.number, run, offset⟩) :=
  ⟨hrun, fun _ => hrun.2, fun _ => rfl⟩

theorem isSpelled_symbol {character : Char} {kind : Token.Kind}
    (hkind : Token.Kind.ofChar? character = some kind) (offset : Nat) :
    IsSpelled (.token ⟨kind, [character], offset⟩) := by
  have hspelled := Token.isSpelled_of_ofChar? hkind offset
  have hnumeral := Cursor.isNumeral_of_ofChar?_eq_some hkind
  refine ⟨hspelled, ?_, ?_⟩
  · rintro rfl
    exact hspelled.2
  · intro hall
    have hfirst := hall character List.mem_cons_self
    rw [hnumeral] at hfirst
    cases hfirst

theorem IsSpelled.isRun {item : Item} (hspelled : item.IsSpelled)
    (hnumber : item.isNumber = true) : item.slice.IsRun := by
  cases item with
  | token found =>
      have hkind : found.kind = .number := by simpa [isNumber] using hnumber
      have hrun := hspelled.1
      rw [Token.IsSpelled, hkind] at hrun
      exact hrun
  | stray character position => cases hnumber

/-- The fault of an item covers its one character. -/
theorem toToken_eq_error {source : Text} {item : Item} {fault : Fault}
    (hfault : item.toToken source = .error fault) :
    ∃ character, item.slice = [character] ∧
      fault = ⟨.unexpectedCharacter character, item.span, source⟩ := by
  cases item with
  | token found => cases hfault
  | stray character position =>
      cases hfault
      refine ⟨character, rfl, ?_⟩
      simp [span, offset, slice]

end Item

namespace Cursor

/-- A step finds what the characters prescribe, and a number as long as it can be. -/
theorem isSpelled_of_next? {cursor behind : Cursor} {item : Item}
    (hnext : cursor.next? = some (item, behind)) :
    item.IsSpelled ∧ (item.isNumber = true → behind.rest.BreaksRun) := by
  rcases cursor with ⟨position, _ | ⟨first, rest⟩⟩
  · cases hnext
  · simp only [next?] at hnext
    split at hnext
    · next hfirst =>
        cases hnext
        have hrun := Text.isRun_cons_takeWhile hfirst rest
        exact ⟨Item.isSpelled_number hrun position, fun _ => Text.breaksRun_dropWhile rest⟩
    · next hfirst =>
        have hnumeral : isNumeral first = false := by simpa using hfirst
        split at hnext
        · next kind hkind =>
            cases hnext
            refine ⟨Item.isSpelled_symbol hkind position, fun hnumber => ?_⟩
            have hrun := (Item.isSpelled_symbol hkind position).isRun hnumber
            have hdigits := hrun.2 first List.mem_cons_self
            rw [hnumeral] at hdigits
            cases hdigits
        · next hkind =>
            cases hnext
            exact ⟨isAllowed_eq_false hnumeral hkind, Bool.noConfusion⟩

theorem next?_eq_none_iff {cursor : Cursor} : cursor.next? = none ↔ cursor.rest = [] := by
  rcases cursor with ⟨position, _ | ⟨first, rest⟩⟩
  · simp [next?]
  · simp only [next?, reduceCtorEq, iff_false]
    split
    · simp
    · split <;> simp

/-- The cursor is driven through these items, each with the cursor behind it, until there
is no next one. -/
inductive Drives : Cursor → List (Item × Cursor) → Cursor → Prop
  | stop {cursor : Cursor} (hnext : cursor.next? = none) : Drives cursor [] cursor
  | step {cursor behind final : Cursor} {item : Item} {steps : List (Item × Cursor)}
      (hnext : cursor.next? = some (item, behind)) (hrest : Drives behind steps final) :
      Drives cursor ((item, behind) :: steps) final

theorem Drives.unique {cursor final other : Cursor} {steps others : List (Item × Cursor)}
    (hdrives : cursor.Drives steps final) (hothers : cursor.Drives others other) :
    others = steps ∧ other = final := by
  induction hdrives generalizing others with
  | stop hnext =>
      cases hothers with
      | stop => exact ⟨rfl, rfl⟩
      | step hsome =>
          rw [hnext] at hsome
          cases hsome
  | step hnext _ ih =>
      cases hothers with
      | stop hnone =>
          rw [hnext] at hnone
          cases hnone
      | step hsome hrest =>
          rw [hnext] at hsome
          cases hsome
          obtain ⟨rfl, rfl⟩ := ih hrest
          exact ⟨rfl, rfl⟩

/-- Driving a cursor ends, because every step shortens the rest. -/
theorem exists_drives (cursor : Cursor) : ∃ final, cursor.Drives cursor.steps final := by
  induction hlength : cursor.rest.length using Nat.strongRecOn generalizing cursor with
  | ind length ih =>
      subst hlength
      cases hnext : cursor.next? with
      | none =>
          have hrest := next?_eq_none_iff.1 hnext
          refine ⟨cursor, ?_⟩
          rcases cursor with ⟨position, rest⟩
          subst hrest
          rw [steps_nil]
          exact .stop hnext
      | some found =>
          rcases found with ⟨item, behind⟩
          obtain ⟨final, hdrives⟩ := ih _ (next?_shorter hnext) behind rfl
          rw [steps_of_next? hnext]
          exact ⟨final, .step hnext hdrives⟩

section Driven

variable {cursor final : Cursor} {steps : List (Item × Cursor)}

theorem Drives.exists_next? (hdrives : cursor.Drives steps final) :
    ∀ step ∈ steps, ∃ before : Cursor, before.next? = some step := by
  induction hdrives with
  | stop => simp
  | step hnext _ ih => exact List.forall_mem_cons.2 ⟨⟨_, hnext⟩, ih⟩

/-- The slices of the items are what lay before the cursor, and the final cursor stands
behind it. -/
theorem Drives.covers (hdrives : cursor.Drives steps final) :
    steps.flatMap (fun step => step.1.slice) = cursor.rest ∧
      final = ⟨cursor.position + cursor.rest.byteLength, []⟩ := by
  induction hdrives with
  | @stop cursor hnext =>
      rcases cursor with ⟨position, rest⟩
      cases next?_eq_none_iff.1 hnext
      exact ⟨rfl, rfl⟩
  | step hnext _ ih =>
      obtain ⟨hslices, hfinal⟩ := ih
      obtain ⟨hrest, -, hposition⟩ := next?_eq_some hnext
      rw [List.flatMap_cons, hslices, hfinal, hposition, hrest, Text.byteLength_append,
        Nat.add_assoc]
      exact ⟨rfl, rfl⟩

/-- Each item starts where the cursor stood behind the one before it. -/
theorem Drives.map_offset (hdrives : cursor.Drives steps final) :
    steps.map (fun step => step.1.offset) ++ [final.position] =
      cursor.position :: steps.map (fun step => step.2.position) := by
  induction hdrives with
  | stop => rfl
  | step hnext _ ih =>
      obtain ⟨-, hoffset, -⟩ := next?_eq_some hnext
      rw [List.map_cons, List.map_cons, List.cons_append, ih, hoffset]

theorem Drives.slice?_eq (hdrives : cursor.Drives steps final) {before : Text}
    (hposition : cursor.position = before.byteLength) :
    ∀ step ∈ steps, (before ++ cursor.rest).slice? step.1.span = some step.1.slice := by
  induction hdrives generalizing before with
  | stop => simp
  | @step cursor behind _ item _ hnext _ ih =>
      obtain ⟨hrest, hoffset, hbehind⟩ := next?_eq_some hnext
      have hspan : item.span = ⟨before.byteLength, item.slice.byteLength⟩ := by
        rw [Item.span, hoffset, hposition]
      have hnextPosition : behind.position = (before ++ item.slice).byteLength := by
        rw [hbehind, hposition, Text.byteLength_append]
      rw [List.forall_mem_cons, hrest]
      refine ⟨?_, ?_⟩
      · rw [hspan]
        exact Text.slice?_append before item.slice behind.rest
      · rw [← List.append_assoc]
        exact ih hnextPosition

/-- Behind a number no digit or point follows, so the next item is no number. -/
theorem Drives.isChain (hdrives : cursor.Drives steps final) :
    steps.IsChain fun first second => ¬(first.1.isNumber = true ∧ second.1.isNumber = true) := by
  induction hdrives with
  | stop => exact List.isChain_nil
  | step hnext hdrives ih =>
      refine List.isChain_cons.2 ⟨?_, ih⟩
      rintro ⟨next, after⟩ hhead ⟨hfirst, hsecond⟩
      have hbreaks := (isSpelled_of_next? hnext).2 hfirst
      cases hdrives with
      | stop => cases hhead
      | step hnext' _ =>
          cases hhead
          have hrun := (isSpelled_of_next? hnext').1.isRun hsecond
          rw [(next?_eq_some hnext').1] at hbreaks
          exact Text.not_breaksRun_run hrun hbreaks

end Driven

end Cursor

/-- The items, each with the cursor behind it, are the text cut into pieces without gap
or overlap. -/
structure Text.TiledBy (text : Text) (steps : List (Item × Cursor)) (final : Cursor) :
    Prop where
  /-- The first item starts at zero, every other one where the cursor stood before it, and
  the last cursor stands at the end. -/
  offsets : steps.map (fun step => step.1.offset) ++ [text.byteLength] =
    0 :: steps.map fun step => step.2.position
  final_eq : final = ⟨text.byteLength, []⟩
  position_eq : ∀ step ∈ steps, step.2.position = step.1.offset + step.1.slice.byteLength
  slice_eq : ∀ step ∈ steps, text.slice? step.1.span = some step.1.slice
  flatMap_slice : steps.flatMap (fun step => step.1.slice) = text
  isSpelled : ∀ step ∈ steps, step.1.IsSpelled
  stray : ∀ step ∈ steps, ∀ fault, step.1.toToken text = .error fault →
    ∃ character, step.1.slice = [character] ∧
      fault = ⟨.unexpectedCharacter character, step.1.span, text⟩
  numbersApart : steps.IsChain fun first second =>
    ¬(first.1.isNumber = true ∧ second.1.isNumber = true)

/-- Driving a cursor over any text ends, in one way only, and the items that it finds tile
the text. -/
theorem exists_drives_tiledBy (text : Text) :
    ∃ steps final, (Cursor.start text).Drives steps final ∧
      (∀ others other, (Cursor.start text).Drives others other →
        others = steps ∧ other = final) ∧
      text.items = steps.map Prod.fst ∧ text.TiledBy steps final := by
  obtain ⟨final, hdrives⟩ := (Cursor.start text).exists_drives
  refine ⟨_, final, hdrives, fun others other hothers => hdrives.unique hothers, rfl, ?_⟩
  obtain ⟨hslices, hfinal⟩ := hdrives.covers
  rw [show (Cursor.start text).position = 0 from rfl, Nat.zero_add] at hfinal
  have hoffsets := hdrives.map_offset
  rw [hfinal] at hoffsets
  have hslice := hdrives.slice?_eq (show (Cursor.start text).position = Text.byteLength [] from rfl)
  exact {
    offsets := hoffsets
    final_eq := hfinal
    position_eq := by
      intro step hmem
      obtain ⟨before, hnext⟩ := hdrives.exists_next? step hmem
      obtain ⟨-, hoffset, hposition⟩ := Cursor.next?_eq_some hnext
      rw [hoffset, hposition]
    slice_eq := hslice
    flatMap_slice := hslices
    isSpelled := by
      intro step hmem
      obtain ⟨before, hnext⟩ := hdrives.exists_next? step hmem
      exact (Cursor.isSpelled_of_next? hnext).1
    stray := fun _ _ _ hfault => Item.toToken_eq_error hfault
    numbersApart := hdrives.isChain }

end Calculator

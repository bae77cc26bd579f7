import Calculator.Proofs.Groups
import Calculator.Proofs.Parentheses
import Calculator.Proofs.Stack
import Calculator.Proofs.Waiting

/-!
# Texts that are refused

Reading from the left, a text is refused at its first character that is foreign to the
alphabet or closes a group that was never opened.  A text without such a character is
refused for the last of its opening parentheses that is never closed, and converted if
there is none.  A calculation looks for foreign characters first, and then refuses what
the conversion refuses.
-/

namespace Calculator

namespace Text

/-- Every closing parenthesis of the text closes a group that is opened in it. -/
def ClosesOwn (text : Text) : Prop :=
  ∃ depth, text.depth? 0 = some depth

/-- The fault points at the first character outside the alphabet. -/
def IsForeign (text : Text) (fault : Fault) : Prop :=
  ∃ (front : Text) (character : Char) (rest : Text), text = front ++ character :: rest ∧
    (∀ earlier ∈ front, isAllowed earlier = true) ∧ isAllowed character = false ∧
    fault = ⟨.unexpectedCharacter character, ⟨front.byteLength, character.utf8Size⟩, text⟩

/-- The fault for which a text is not converted: at the first character that is foreign or
closes a group that was never opened, or else at the last opening parenthesis whose group is
never closed.  That group stays open if what follows closes its own groups only. -/
inductive Refused (text : Text) : Fault → Prop
  | foreign {front rest : Text} {character : Char} (htext : text = front ++ character :: rest)
      (hallowed : ∀ earlier ∈ front, isAllowed earlier = true) (hcloses : front.ClosesOwn)
      (hforeign : isAllowed character = false) :
      Refused text
        ⟨.unexpectedCharacter character, ⟨front.byteLength, character.utf8Size⟩, text⟩
  | unopened {front rest : Text} (htext : text = front ++ ')' :: rest)
      (hallowed : ∀ earlier ∈ front, isAllowed earlier = true) (hbalanced : front.Balanced) :
      Refused text ⟨.unbalancedParenthesis, ⟨front.byteLength, 1⟩, text⟩
  | unclosed {front inner : Text} (htext : text = front ++ '(' :: inner)
      (hallowed : ∀ character ∈ text, isAllowed character = true) (hfront : front.ClosesOwn)
      (hinner : inner.ClosesOwn)
      (hlast : ∀ before after : Text, inner = before ++ '(' :: after → ¬after.ClosesOwn) :
      Refused text ⟨.unbalancedParenthesis, ⟨front.byteLength, 1⟩, text⟩

theorem depth?_concat_eq_some_iff {depth final : Nat} {text : Text} {last : Char} :
    depth? depth (text ++ [last]) = some final ↔
      ∃ inner, depth? depth text = some inner ∧ nest? inner last = some final := by
  simp [depth?_append, Option.bind_eq_some_iff, depth?_cons]

theorem Balanced.append_group {left inner : Text} (hleft : left.Balanced)
    (hinner : inner.Balanced) : Balanced (left ++ '(' :: (inner ++ [')'])) := by
  have hopened : inner.depth? 1 = some 1 := by simpa using depth?_add hinner 1
  have hgroup : depth? 1 (inner ++ [')']) = some 0 := depth?_concat_eq_some_iff.2 ⟨1, hopened, rfl⟩
  rw [Balanced, depth?_append, hleft, Option.bind_some, depth?_cons, nest?_leftParen]
  exact hgroup

/-- A text that leaves groups open has a last opening parenthesis that is never closed. -/
theorem exists_unclosed {text : Text} {depth : Nat} (hdepth : text.depth? 0 = some (depth + 1)) :
    ∃ front inner : Text, text = front ++ '(' :: inner ∧ front.depth? 0 = some depth ∧
      inner.Balanced := by
  -- A closing parenthesis at the end needs the fact for two shorter texts.
  induction hlength : text.length using Nat.strongRecOn generalizing text depth with
  | ind length ih =>
      subst hlength
      rcases text.eq_nil_or_concat with rfl | ⟨init, last, rfl⟩
      · cases hdepth
      · rw [List.concat_eq_append, depth?_concat_eq_some_iff] at hdepth
        obtain ⟨reached, hinit, hnest⟩ := hdepth
        have hshorter : init.length < (init.concat last).length := by simp
        rcases nest?_eq_some_cases hnest with ⟨rfl, hreached⟩ | ⟨rfl, rfl⟩ | ⟨hleft, hright, rfl⟩
        · cases hreached
          exact ⟨init, [], by simp, hinit, rfl⟩
        · -- The last parenthesis closes one group, and the one around it stays open.
          obtain ⟨outer, inner, rfl, houter, hinner⟩ := ih _ hshorter hinit rfl
          have houterShorter : outer.length < ((outer ++ '(' :: inner).concat ')').length := by
            simp
          obtain ⟨front, left, rfl, hfront, hleft⟩ := ih _ houterShorter houter rfl
          exact ⟨front, left ++ '(' :: (inner ++ [')']), by simp, hfront,
            hleft.append_group hinner⟩
        · obtain ⟨front, inner, rfl, hfront, hinner⟩ := ih _ hshorter hinit rfl
          exact ⟨front, inner ++ [last], by simp, hfront,
            depth?_concat_eq_some_iff.2 ⟨0, hinner, nest?_of_ne hleft hright 0⟩⟩

/-- Behind an opening parenthesis of a balanced text, another group is closed as well. -/
theorem Balanced.not_closesOwn {before after : Text}
    (hbalanced : Balanced (before ++ '(' :: after)) : ¬after.ClosesOwn := by
  rintro ⟨final, hafter⟩
  rw [Balanced, depth?_append] at hbalanced
  obtain ⟨depth, -, hrest⟩ := Option.bind_eq_some_iff.1 hbalanced
  rw [depth?_cons, nest?_leftParen, Option.bind_some] at hrest
  have hopened := depth?_add hafter (depth + 1)
  rw [Nat.zero_add, hrest] at hopened
  cases hopened

/-- Behind the last opening parenthesis that is never closed, all groups are. -/
theorem balanced_of_last {inner : Text} (hinner : inner.ClosesOwn)
    (hlast : ∀ before after : Text, inner = before ++ '(' :: after → ¬after.ClosesOwn) :
    inner.Balanced := by
  obtain ⟨depth, hdepth⟩ := hinner
  cases depth with
  | zero => exact hdepth
  | succ depth =>
      obtain ⟨before, after, heq, -, hafter⟩ := exists_unclosed hdepth
      exact absurd ⟨0, hafter⟩ (hlast before after heq)

theorem allowed_concat {front : Text} {character : Char}
    (hfront : ∀ earlier ∈ front, isAllowed earlier = true) (hcharacter : isAllowed character = true) :
    ∀ earlier ∈ front ++ [character], isAllowed earlier = true := by
  rw [List.forall_mem_append, List.forall_mem_singleton]
  exact ⟨hfront, hcharacter⟩

/-- A text with a sound front is refused behind it, or is balanced. -/
theorem refused_or_balanced_of_front (front : Text) {depth : Nat}
    (hallowed : ∀ earlier ∈ front, isAllowed earlier = true)
    (hdepth : front.depth? 0 = some depth) (rest : Text) :
    (∃ fault, (front ++ rest).Refused fault) ∨
      (∀ character ∈ front ++ rest, isAllowed character = true) ∧ (front ++ rest).Balanced := by
  induction rest generalizing front depth with
  | nil =>
      rw [List.append_nil]
      cases depth with
      | zero => exact Or.inr ⟨hallowed, hdepth⟩
      | succ depth =>
          obtain ⟨outer, inner, heq, houter, hinner⟩ := exists_unclosed hdepth
          refine Or.inl ⟨_, .unclosed heq hallowed ⟨depth, houter⟩ ⟨0, hinner⟩ ?_⟩
          rintro before after rfl
          exact hinner.not_closesOwn
  | cons character rest ih =>
      by_cases hcharacter : isAllowed character = true
      · cases hnest : nest? depth character with
        | none =>
            obtain ⟨rfl, rfl⟩ := eq_of_nest?_eq_none hnest
            exact Or.inl ⟨_, .unopened rfl hallowed hdepth⟩
        | some next =>
            have hread := ih _ (allowed_concat hallowed hcharacter)
              (depth?_concat_eq_some_iff.2 ⟨depth, hdepth, hnest⟩)
            rwa [List.append_assoc] at hread
      · rw [Bool.not_eq_true] at hcharacter
        exact Or.inl ⟨_, .foreign rfl hallowed ⟨depth, hdepth⟩ hcharacter⟩

theorem refused_or_balanced (text : Text) :
    (∃ fault, text.Refused fault) ∨
      (∀ character ∈ text, isAllowed character = true) ∧ text.Balanced :=
  refused_or_balanced_of_front [] (by simp) rfl text

/-- A text is refused by its alphabet exactly at its first foreign character. -/
theorem validate_eq_error_iff {text : Text} {fault : Fault} :
    text.validate = .error fault ↔ text.IsForeign fault := by
  constructor
  · intro hvalidate
    unfold validate at hvalidate
    split at hvalidate
    · cases hvalidate
    · next character rest hdrop =>
        cases hvalidate
        refine ⟨text.takeWhile isAllowed, character, rest, ?_, ?_, ?_, rfl⟩
        · rw [← hdrop, List.takeWhile_append_dropWhile]
        · exact fun earlier hmem => List.mem_takeWhile_imp hmem
        · have hnot := List.head?_dropWhile_not isAllowed text
          rw [hdrop] at hnot
          simpa using hnot
  · rintro ⟨front, character, rest, rfl, hfront, hforeign, rfl⟩
    have hstop : ∀ value ∈ (character :: rest).head?, isAllowed value = false := by
      simpa using hforeign
    unfold validate
    rw [dropWhile_append_of_boundary hfront hstop, takeWhile_append_of_boundary hfront hstop]

end Text

namespace Yard

/-- A token of one character is taken in if the character closes no more groups than are
open. -/
theorem exists_step_of_nest? {source : Text} {yard : Yard} {token : Token} {character : Char}
    {depth : Nat} (hkind : Token.Kind.ofChar? character = some token.kind)
    (hnest : Text.nest? yard.opened character = some depth) :
    ∃ next, yard.step source token = .ok next := by
  cases hstep : yard.step source token with
  | ok next => exact ⟨next, rfl⟩
  | error fault =>
      obtain ⟨hright, hnone, -⟩ := step_eq_error_iff.1 hstep
      rw [opened_eq_zero_iff.2 hnone] at hnest
      have hcharacter : character = ')' := by
        simpa [hright] using Token.Kind.eq_of_ofChar?_eq_some hkind
      subst hcharacter
      cases hnest

/-- A text of the alphabet is read if it closes no more groups than are open. -/
theorem exists_run_of_depth? (source : Text) {text : Text} (yard : Yard) {position depth : Nat}
    (hallowed : ∀ character ∈ text, isAllowed character = true)
    (hdepth : text.depth? yard.opened = some depth) :
    ∃ final, yard.run source ⟨position, text⟩ = .ok final := by
  induction text using Text.item_induction generalizing yard position with
  | nil => exact ⟨yard, run_nil source yard position⟩
  | run run rest hrun hrest ih =>
      rw [run_run source yard position hrun hrest]
      rw [Text.depth?_run hrun.2] at hdepth
      exact ih _ (List.forall_mem_append.1 hallowed).2 hdepth
  | symbol character kind rest hkind ih =>
      rw [Text.depth?_cons] at hdepth
      obtain ⟨inner, hnest, hrest⟩ := Option.bind_eq_some_iff.1 hdepth
      obtain ⟨next, hstep⟩ : ∃ next, yard.step source ⟨kind, [character], position⟩ = .ok next :=
        exists_step_of_nest? hkind hnest
      have hopened := nest?_opened_of_moves (moves_of_step hstep) hkind
      rw [hnest, Option.some.injEq] at hopened
      rw [run_symbol source yard position hkind, hstep]
      rw [hopened] at hrest
      exact ih _ (List.forall_mem_cons.1 hallowed).2 hrest
  | stray character rest hnumeral hkind ih =>
      have hfirst := hallowed character List.mem_cons_self
      rw [isAllowed_eq_false hnumeral hkind] at hfirst
      cases hfirst

/-- At the start of a text every group that is closed is one of its own. -/
theorem exists_run_of_front (source : Text) {front : Text} {depth : Nat}
    (hallowed : ∀ character ∈ front, isAllowed character = true)
    (hdepth : front.depth? 0 = some depth) :
    ∃ yard, empty.run source ⟨0, front⟩ = .ok yard ∧ yard.opened = depth := by
  obtain ⟨yard, hrun⟩ := exists_run_of_depth? source empty hallowed hdepth
  refine ⟨yard, hrun, ?_⟩
  have hopened := depth?_of_run hrun
  rw [show empty.opened = 0 from rfl, hdepth] at hopened
  exact (Option.some.inj hopened).symm

/-- Nothing but operators waits where no group is open. -/
theorem Tracks.not_isParen {yard : Yard} {read : List Token} (htracks : yard.Tracks read)
    (hopened : yard.opened = 0) : ∀ token ∈ yard.pending, token.isParen = false := by
  intro token hmem
  rcases htracks.waits token hmem with hleft | ⟨applied, hkind⟩
  · exact absurd (beq_iff_eq.1 hleft) (opened_eq_zero_iff.1 hopened token hmem)
  · simp [Token.isParen, hkind]

end Yard

namespace Rpn

theorem ofText_of_run_eq_error {source : Text} {fault : Fault}
    (hrun : Yard.empty.run source (Cursor.start source) = .error fault) :
    ofText source = .error fault := by
  change Yard.empty.run source (Cursor.start source) >>= _ = _
  rw [hrun]
  rfl

/-- A balanced text of the alphabet is read, and then nothing but operators waits. -/
theorem exists_run_of_balanced {text : Text}
    (hallowed : ∀ character ∈ text, isAllowed character = true) (hbalanced : text.Balanced) :
    ∃ yard, Yard.empty.run text (Cursor.start text) = .ok yard ∧
      ∀ token ∈ yard.pending, token.isParen = false := by
  obtain ⟨yard, hrun, hopened⟩ := Yard.exists_run_of_front text hallowed hbalanced
  exact ⟨yard, hrun, (Yard.tracks_of_run hrun).not_isParen hopened⟩

theorem exists_ofText_of_balanced {text : Text}
    (hallowed : ∀ character ∈ text, isAllowed character = true) (hbalanced : text.Balanced) :
    ∃ rpn, ofText text = .ok rpn := by
  obtain ⟨yard, hrun, hpending⟩ := exists_run_of_balanced hallowed hbalanced
  exact ⟨_, ofText_eq_ok_iff.2 ⟨yard, hrun, hpending, rfl⟩⟩

/-- An opening parenthesis that is followed by closed groups only is the first one that is
found waiting at the end. -/
theorem ofText_of_unclosed {front inner : Text} {depth : Nat}
    (hfront : ∀ character ∈ front, isAllowed character = true)
    (hinner : ∀ character ∈ inner, isAllowed character = true)
    (hdepth : front.depth? 0 = some depth) (hbalanced : inner.Balanced) :
    ofText (front ++ '(' :: inner) =
      .error ⟨.unbalancedParenthesis, ⟨front.byteLength, 1⟩, front ++ '(' :: inner⟩ := by
  obtain ⟨outer, houter, -⟩ :=
    Yard.exists_run_of_front (front ++ '(' :: inner) hfront hdepth
  obtain ⟨yard, hyard, hpending⟩ := exists_run_of_balanced hinner hbalanced
  have hbreaks : Text.BreaksRun ('(' :: inner) := by
    rw [Text.breaksRun_cons]
    rfl
  have hgroup := Yard.run_leftParen hyard (front ++ '(' :: inner) outer front.byteLength
    Text.breaksRun_nil
  rw [List.append_nil, Yard.run_nil] at hgroup
  have hwaits : (yard.moved (front.byteLength + 1)).pending.find? Token.isParen = none := by
    rw [List.find?_eq_none]
    intro token hmem hparen
    obtain ⟨waiting, hwaiting, rfl⟩ := List.mem_map.1 hmem
    rw [Token.isParen_moved, hpending waiting hwaiting] at hparen
    cases hparen
  change Yard.empty.run _ ⟨0, front ++ '(' :: inner⟩ >>= _ = _
  rw [Yard.run_append _ _ 0 front hbreaks, houter, Nat.zero_add]
  change outer.run _ ⟨front.byteLength, '(' :: inner⟩ >>= _ = _
  rw [hgroup]
  change Yard.drain _ _ >>= _ = _
  rw [Yard.drain, Yard.above, List.find?_append, hwaits]
  rfl

theorem ofText_of_refused {text : Text} {fault : Fault} (hrefused : text.Refused fault) :
    ofText text = .error fault := by
  cases hrefused with
  | @foreign front rest character htext hallowed hcloses hforeign =>
      subst htext
      obtain ⟨depth, hdepth⟩ := hcloses
      obtain ⟨hnumeral, hkind⟩ := stray_of_isAllowed_eq_false hforeign
      obtain ⟨yard, hrun, -⟩ := Yard.exists_run_of_front
        (front ++ character :: rest) hallowed hdepth
      apply ofText_of_run_eq_error
      rw [Cursor.start, Yard.run_append _ _ 0 front (Text.breaksRun_cons.2 hnumeral), hrun,
        Nat.zero_add]
      exact Yard.run_stray _ yard _ hnumeral hkind rest
  | @unopened front rest htext hallowed hbalanced =>
      subst htext
      obtain ⟨yard, hrun, hopened⟩ := Yard.exists_run_of_front
        (front ++ ')' :: rest) hallowed hbalanced
      have hstep : yard.step (front ++ ')' :: rest) ⟨.rightParen, [')'], front.byteLength⟩ =
          .error ⟨.unbalancedParenthesis, ⟨front.byteLength, 1⟩, front ++ ')' :: rest⟩ :=
        Yard.step_eq_error_iff.2 ⟨rfl, Yard.opened_eq_zero_iff.1 hopened, rfl⟩
      apply ofText_of_run_eq_error
      rw [Cursor.start, Yard.run_append _ _ 0 front (Text.breaksRun_cons.2 rfl), hrun,
        Nat.zero_add]
      change yard.run _ ⟨front.byteLength, ')' :: rest⟩ = _
      rw [Yard.run_symbol _ yard _ Token.Kind.ofChar?_rightParen, hstep]
      rfl
  | @unclosed front inner htext hallowed hfront hinner hlast =>
      subst htext
      obtain ⟨depth, hdepth⟩ := hfront
      obtain ⟨hbefore, hbehind⟩ := List.forall_mem_append.1 hallowed
      exact ofText_of_unclosed hbefore (List.forall_mem_cons.1 hbehind).2 hdepth
        (Text.balanced_of_last hinner hlast)

/-- A text is refused for one fault or converted, never both. -/
theorem refused_of_ofText {text : Text} {fault : Fault} (hfails : ofText text = .error fault) :
    text.Refused fault := by
  obtain ⟨other, hother⟩ | ⟨hallowed, hbalanced⟩ := text.refused_or_balanced
  · have hsame := ofText_of_refused hother
    rw [hfails, Except.error.injEq] at hsame
    rwa [hsame]
  · obtain ⟨rpn, hconverts⟩ := exists_ofText_of_balanced hallowed hbalanced
    rw [hfails] at hconverts
    cases hconverts

theorem exists_ofText_iff {text : Text} :
    (∃ rpn, ofText text = .ok rpn) ↔
      (∀ character ∈ text, isAllowed character = true) ∧ text.Balanced := by
  constructor
  · rintro ⟨rpn, hconverts⟩
    obtain ⟨fault, hrefused⟩ | haccepted := text.refused_or_balanced
    · rw [ofText_of_refused hrefused] at hconverts
      cases hconverts
    · exact haccepted
  · rintro ⟨hallowed, hbalanced⟩
    exact exists_ofText_of_balanced hallowed hbalanced

end Rpn

/-- The causes for which a text is refused before anything is evaluated. -/
def Cause.isRefusal : Cause → Bool
  | .unexpectedCharacter _ | .unbalancedParenthesis => true
  | _ => false

theorem Rpn.Fails.not_isRefusal {stack : List Binary64} {token : Token} {cause : Cause}
    (hfails : Fails stack token cause) : cause.isRefusal = false := by
  cases hfails <;> rfl

theorem Rpn.not_isRefusal_of_evaluate {rpn : Rpn} {fault : Fault}
    (hfails : rpn.evaluate = .error fault) : fault.cause.isRefusal = false := by
  obtain ⟨token, -, stack, cause, htoken, rfl⟩ | ⟨count, rfl⟩ := fails_of_evaluate hfails
  · exact htoken.not_isRefusal
  · rfl

theorem Text.Refused.isRefusal {text : Text} {fault : Fault} (hrefused : text.Refused fault) :
    fault.cause.isRefusal = true := by
  cases hrefused <;> rfl

/-- A calculation fails at a foreign character, at the conversion, or at the run. -/
theorem calculate_eq_error_iff {text : Text} {fault : Fault} :
    calculate text = .error fault ↔
      text.IsForeign fault ∨ (∀ character ∈ text, isAllowed character = true) ∧
        (Rpn.ofText text = .error fault ∨
          ∃ rpn, Rpn.ofText text = .ok rpn ∧ rpn.evaluate = .error fault) := by
  rw [calculate, convert, bind_assoc, bind_eq_error_iff, Text.validate_eq_error_iff]
  refine or_congr_right ?_
  constructor
  · rintro ⟨⟨⟩, hvalidate, hrest⟩
    exact ⟨Text.validate_eq_ok_iff.1 hvalidate, bind_eq_error_iff.1 hrest⟩
  · rintro ⟨hallowed, hrest⟩
    exact ⟨(), Text.validate_eq_ok_iff.2 hallowed, bind_eq_error_iff.2 hrest⟩

/-- A text is converted exactly if it is a balanced text of the alphabet, and otherwise the
conversion fails with the fault that refuses it.  A calculation fails at the first foreign
character if there is one, and otherwise refuses the text exactly as the conversion does. -/
theorem text_refused_iff (text : Text) :
    ((∃ rpn, Rpn.ofText text = .ok rpn) ↔
        (∀ character ∈ text, isAllowed character = true) ∧ text.Balanced) ∧
      (∀ fault, Rpn.ofText text = .error fault ↔ text.Refused fault) ∧
      ∀ fault, calculate text = .error fault ∧ fault.cause.isRefusal = true ↔
        text.IsForeign fault ∨
          (∀ character ∈ text, isAllowed character = true) ∧ text.Refused fault := by
  have hrefused : ∀ fault, Rpn.ofText text = .error fault ↔ text.Refused fault :=
    fun fault => ⟨Rpn.refused_of_ofText, Rpn.ofText_of_refused⟩
  refine ⟨Rpn.exists_ofText_iff, hrefused, fun fault => ?_⟩
  rw [calculate_eq_error_iff]
  constructor
  · rintro ⟨hforeign | ⟨hallowed, hconvert | ⟨rpn, -, hevaluate⟩⟩, hcause⟩
    · exact Or.inl hforeign
    · exact Or.inr ⟨hallowed, (hrefused fault).1 hconvert⟩
    · rw [Rpn.not_isRefusal_of_evaluate hevaluate] at hcause
      cases hcause
  · rintro (hforeign | ⟨hallowed, htext⟩)
    · refine ⟨Or.inl hforeign, ?_⟩
      obtain ⟨front, character, rest, -, -, -, rfl⟩ := hforeign
      rfl
    · exact ⟨Or.inr ⟨hallowed, Or.inl ((hrefused fault).2 htext)⟩, htext.isRefusal⟩

/-- The conversion stops at a closing parenthesis that a calculation does not come to. -/
example :
    Rpn.ofText ['3', ')', 'a'] = .error ⟨.unbalancedParenthesis, ⟨1, 1⟩, ['3', ')', 'a']⟩ ∧
      calculate ['3', ')', 'a'] =
        .error ⟨.unexpectedCharacter 'a', ⟨2, 1⟩, ['3', ')', 'a']⟩ := by
  decide +kernel

end Calculator

import Calculator.Proofs.Groups
import Calculator.Proofs.Waiting

/-!
# A group is one block of the postfix form

What is emitted before a group is read stays where it is, and what waits or comes later is
emitted behind the group's own postfix form.  So the postfix form of a text with an empty
group has a place where that of any other group can be put in, and only the tokens behind
the group move, by the bytes that it has become longer.
-/

namespace Calculator

namespace Token

/-- The token of a text into which so many bytes are put in at this position. -/
def movedBehind (position distance : Nat) (token : Token) : Token :=
  if position ≤ token.offset then token.moved distance else token

theorem movedBehind_of_le {position : Nat} {token : Token} (hle : position ≤ token.offset)
    (distance : Nat) : token.movedBehind position distance = token.moved distance :=
  if_pos hle

theorem movedBehind_of_lt {position : Nat} {token : Token} (hlt : token.offset < position)
    (distance : Nat) : token.movedBehind position distance = token :=
  if_neg (Nat.not_le_of_lt hlt)

@[simp]
theorem kind_movedBehind (position distance : Nat) (token : Token) :
    (token.movedBehind position distance).kind = token.kind := by
  unfold movedBehind
  split
  · rfl
  · rfl

end Token

/-- No item starts before the text that it is cut from. -/
theorem Item.forall₂_matches_movedBehind (position distance : Nat) (text : Text) :
    List.Forall₂
      (Item.Matches fun first second => first.movedBehind position distance = second)
      (Cursor.items ⟨position, text⟩) (Cursor.items ⟨position + distance, text⟩) := by
  rw [Cursor.items_add, List.forall₂_map_right_iff, List.forall₂_same]
  intro item hmem
  cases item with
  | token found =>
      have hread : found ∈ Cursor.tokens ⟨position, text⟩ := Cursor.mem_tokens_iff.2 hmem
      have hoffset := (Cursor.ascending_tokens position text).1 found hread
      exact Token.movedBehind_of_le hoffset distance
  | stray character place => rfl

namespace Yard

theorem step_source {source : Text} {yard next : Yard} {token : Token}
    (hstep : yard.step source token = .ok next) (other : Text) :
    yard.step other token = .ok next := by
  unfold step at hstep ⊢
  cases hkind : token.kind with
  | number => simpa only [hkind] using hstep
  | operator incoming => simpa only [hkind] using hstep
  | leftParen => simpa only [hkind] using hstep
  | rightParen =>
      simp only [hkind] at hstep ⊢
      cases hdrop : yard.pending.dropWhile (·.kind != .leftParen) with
      | nil =>
          rw [hdrop] at hstep
          cases hstep
      | cons partner staying =>
          rw [hdrop] at hstep
          exact hstep

/-- The source is quoted in faults and looked at nowhere. -/
theorem run_source {source : Text} {yard final : Yard} {cursor : Cursor}
    (hrun : yard.run source cursor = .ok final) (other : Text) :
    yard.run other cursor = .ok final := by
  refine foldlM_induction (motive := fun yard items final =>
    items.foldlM (stepItem other) yard = .ok final) ?_ ?_ hrun
  · intro yard
    rfl
  · intro yard next final item items hstep ih
    obtain ⟨token, rfl, htoken⟩ := stepItem_eq_ok hstep
    exact foldlM_cons_eq_ok_iff.2 ⟨next, step_source htoken other, ih⟩

/-- What waits was read from the text and starts inside it. -/
theorem offset_le_of_mem_pending {text : Text} {yard : Yard}
    (hrun : empty.run text (Cursor.start text) = .ok yard) :
    ∀ token ∈ yard.pending, token.offset ≤ text.byteLength := by
  intro token hmem
  have hread := (tracks_of_run hrun).mem_of_mem_pending hmem
  obtain ⟨before, after, hstands⟩ := Cursor.exists_standsBetween_start hread
  have hlength := congrArg Text.byteLength hstands.source_eq
  rw [Text.byteLength_append] at hlength
  rw [hstands.offset_eq, hlength]
  exact Nat.le_add_right _ _

/-- Behind a front that is read, a text with a group is read from behind the group on, with
the group's postfix form on top of what was emitted. -/
theorem run_front_group {front inner : Text} {yard : Yard} {innerRpn : Rpn}
    (hfront : empty.run front (Cursor.start front) = .ok yard)
    (hinner : Rpn.ofText inner = .ok innerRpn) (source back : Text) :
    empty.run source (Cursor.start (front ++ '(' :: (inner ++ ')' :: back))) =
      Yard.run source
        ⟨(innerRpn.tokens.map (Token.moved (front.byteLength + 1))).reverse ++ yard.emitted,
          yard.pending⟩
        ⟨front.byteLength + 2 + inner.byteLength, back⟩ := by
  have hbreaks : Text.BreaksRun ('(' :: (inner ++ ')' :: back)) := Text.breaksRun_cons.2 rfl
  have hread : empty.run source ⟨0, front⟩ = .ok yard := run_source hfront source
  have hbehind : front.byteLength + 1 + inner.byteLength + 1 =
      front.byteLength + 2 + inner.byteLength := by omega
  rw [Cursor.start, run_append _ _ 0 front hbreaks, hread, Nat.zero_add]
  change yard.run source ⟨front.byteLength, '(' :: (inner ++ ')' :: back)⟩ = _
  rw [run_group hinner, hbehind]

/-- On top of other tokens, and further on, a text is read as it is without them. -/
theorem agree_run_movedBehind {yard : Yard} {position : Nat}
    (hpending : ∀ token ∈ yard.pending, token.offset < position) (source other : Text)
    (block : List Token) (distance : Nat) (text : Text) :
    Agree
      (Matches (fun first second => first.movedBehind position distance = second)
        yard.emitted (block ++ yard.emitted))
      (yard.run source ⟨position, text⟩)
      (Yard.run other ⟨block ++ yard.emitted, yard.pending⟩ ⟨position + distance, text⟩) := by
  refine agree_foldlM ?_ (Item.forall₂_matches_movedBehind position distance text)
    (matches_settled _ _ ?_)
  · rintro first _ rfl
    exact (first.kind_movedBehind position distance).symm
  · rw [List.forall₂_same]
    exact fun token hmem => Token.movedBehind_of_lt (hpending token hmem) distance

end Yard

namespace Rpn

/-- The second postfix form is the first one with a block put in behind these tokens. -/
def BlockBehind (before block : List Token) (position distance : Nat) (first second : Rpn) :
    Prop :=
  ∃ behind, first.tokens = before ++ behind ∧
    second.tokens = before ++ (block ++ behind.map (Token.movedBehind position distance))

/-- A text with an empty group is converted as one with any other group is, but for the block
that the group becomes. -/
theorem agree_ofText_emptyGroup {front inner : Text} {yard : Yard} {innerRpn : Rpn}
    (hfront : Yard.empty.run front (Cursor.start front) = .ok yard)
    (hinner : ofText inner = .ok innerRpn) (back : Text) :
    Agree
      (BlockBehind yard.emitted.reverse
        (innerRpn.tokens.map (Token.moved (front.byteLength + 1)))
        (front.byteLength + 2) inner.byteLength)
      (ofText (front ++ '(' :: ')' :: back)) (ofText (front ++ '(' :: (inner ++ ')' :: back))) := by
  have hpending : ∀ token ∈ yard.pending, token.offset < front.byteLength + 2 := by
    intro token hmem
    have := Yard.offset_le_of_mem_pending hfront token hmem
    omega
  have hkind : ∀ first second : Token,
      first.movedBehind (front.byteLength + 2) inner.byteLength = second →
        first.kind = second.kind := by
    rintro first _ rfl
    exact (first.kind_movedBehind _ _).symm
  change Agree _ (Yard.empty.run _ (Cursor.start (front ++ '(' :: ([] ++ ')' :: back))) >>= _)
    (Yard.empty.run _ (Cursor.start (front ++ '(' :: (inner ++ ')' :: back))) >>= _)
  rw [Yard.run_front_group hfront ofText_nil, Yard.run_front_group hfront hinner]
  refine (Yard.agree_run_movedBehind hpending _ _ _ inner.byteLength back).bind ?_
  intro reached reached' hreached
  refine (Yard.agree_drain hkind hreached).bind ?_
  rintro tokens tokens' ⟨behind, behind', rfl, rfl, hbehind⟩
  rw [← List.forall₂_map_left_iff, List.forall₂_eq_eq_eq] at hbehind
  refine .ok ⟨behind, rfl, ?_⟩
  rw [hbehind]
  simp

/-- The front of a text that converts is read, up to a place that is not inside a number. -/
theorem exists_run_front {front back : Text} {rpn : Rpn} (hback : back.BreaksRun)
    (hconverts : ofText (front ++ back) = .ok rpn) :
    ∃ yard, Yard.empty.run front (Cursor.start front) = .ok yard := by
  obtain ⟨final, hrun, -, -⟩ := ofText_eq_ok_iff.1 hconverts
  rw [Cursor.start, Yard.run_append _ _ 0 front hback] at hrun
  obtain ⟨yard, hfront, -⟩ := bind_eq_ok_iff.1 hrun
  exact ⟨yard, Yard.run_source hfront front⟩

/-- A text in parentheses is converted as it is without them, one byte further on. -/
theorem ofText_parenthesised {text : Text} {rpn : Rpn} (hconverts : ofText text = .ok rpn) :
    ofText ('(' :: (text ++ [')'])) =
      .ok ⟨'(' :: (text ++ [')']), rpn.tokens.map (Token.moved 1)⟩ := by
  refine ofText_eq_ok_iff.2
    ⟨⟨(rpn.tokens.map (Token.moved 1)).reverse, []⟩, ?_, by simp, by simp⟩
  rw [Cursor.start, Yard.run_group hconverts, Yard.run_nil]
  simp [Yard.empty]

end Rpn

/-- If a text with an empty group converts, its postfix form is divided in two, and with any
other group that converts in place of the empty one, that group's own postfix form stands
between the two parts.  Its tokens are moved behind the front and the parenthesis, those
behind the group by the bytes of what it holds, and all others stay. -/
theorem ofText_group_block {front back : Text} {rpn : Rpn}
    (hconverts : Rpn.ofText (front ++ '(' :: ')' :: back) = .ok rpn) :
    (∃ before behind, rpn.tokens = before ++ behind ∧
      ∀ inner innerRpn, Rpn.ofText inner = .ok innerRpn →
        Rpn.ofText (front ++ '(' :: (inner ++ ')' :: back)) =
          .ok ⟨front ++ '(' :: (inner ++ ')' :: back),
            before ++ (innerRpn.tokens.map (Token.moved (front.byteLength + 1)) ++
              behind.map (Token.movedBehind (front.byteLength + 2) inner.byteLength))⟩) ∧
      ∀ text textRpn, Rpn.ofText text = .ok textRpn →
        Rpn.ofText ('(' :: (text ++ [')'])) =
          .ok ⟨'(' :: (text ++ [')']), textRpn.tokens.map (Token.moved 1)⟩ := by
  refine ⟨?_, fun text textRpn htext => Rpn.ofText_parenthesised htext⟩
  obtain ⟨yard, hfront⟩ := Rpn.exists_run_front (Text.breaksRun_cons.2 rfl) hconverts
  have hblock : ∀ inner innerRpn, Rpn.ofText inner = .ok innerRpn →
      ∃ behind, rpn.tokens = yard.emitted.reverse ++ behind ∧
        Rpn.ofText (front ++ '(' :: (inner ++ ')' :: back)) =
          .ok ⟨front ++ '(' :: (inner ++ ')' :: back),
            yard.emitted.reverse ++ (innerRpn.tokens.map (Token.moved (front.byteLength + 1)) ++
              behind.map (Token.movedBehind (front.byteLength + 2) inner.byteLength))⟩ := by
    intro inner innerRpn hinner
    have hagree := Rpn.agree_ofText_emptyGroup hfront hinner back
    rw [hconverts] at hagree
    obtain ⟨⟨source, tokens⟩, hgroup, behind, hrpn, htokens⟩ := hagree.exists_ok
    have hsource : source = _ := Rpn.source_of_ofText hgroup
    rw [hgroup, hsource]
    exact ⟨behind, hrpn, congrArg (fun tokens => Except.ok (Rpn.mk _ tokens)) htokens⟩
  obtain ⟨behind, hrpn, -⟩ := hblock [] _ Rpn.ofText_nil
  refine ⟨yard.emitted.reverse, behind, hrpn, fun inner innerRpn hinner => ?_⟩
  obtain ⟨other, hother, hgroup⟩ := hblock inner innerRpn hinner
  -- The part behind the block is what is left of the one postfix form.
  have hsame : other = behind := List.append_cancel_left (hother.symm.trans hrpn)
  rwa [hsame] at hgroup

/-- A sum without a right operand in a group behind a difference and a root. -/
theorem ofText_group_block_root :
    ∃ before behind,
      [⟨.number, ['4'], 0⟩, ⟨.number, ['3'], 2⟩, ⟨.operator .root, ['√'], 3⟩,
        ⟨.operator .minus, ['-'], 1⟩, ⟨.number, ['1'], 9⟩, ⟨.operator .minus, ['-'], 8⟩] =
          before ++ behind ∧
      Rpn.ofText (['4', '-', '3', '√'] ++ '(' :: (['2', '+'] ++ ')' :: ['-', '1'])) =
        .ok ⟨['4', '-', '3', '√'] ++ '(' :: (['2', '+'] ++ ')' :: ['-', '1']),
          before ++ ([⟨.number, ['2'], 7⟩, ⟨.operator .plus, ['+'], 8⟩] ++
            behind.map (Token.movedBehind 8 2))⟩ := by
  have hconverts : Rpn.ofText (['4', '-', '3', '√'] ++ '(' :: ')' :: ['-', '1']) =
      .ok ⟨['4', '-', '3', '√', '(', ')', '-', '1'],
        [⟨.number, ['4'], 0⟩, ⟨.number, ['3'], 2⟩, ⟨.operator .root, ['√'], 3⟩,
          ⟨.operator .minus, ['-'], 1⟩, ⟨.number, ['1'], 9⟩,
          ⟨.operator .minus, ['-'], 8⟩]⟩ := by
    decide +kernel
  have hinner : Rpn.ofText ['2', '+'] =
      .ok ⟨['2', '+'], [⟨.number, ['2'], 0⟩, ⟨.operator .plus, ['+'], 1⟩]⟩ := by
    decide +kernel
  obtain ⟨⟨before, behind, htokens, hblock⟩, -⟩ := ofText_group_block hconverts
  exact ⟨before, behind, htokens, hblock ['2', '+'] _ hinner⟩

end Calculator

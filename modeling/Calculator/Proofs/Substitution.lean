import Calculator.Proofs.Groups
import Calculator.Proofs.Stages

/-!
# A group can be replaced by another one of the same value

The postfix form of a text with a group is that of what stands around the group, with
the group's own postfix form as one block in it.  What stands around is converted
alike whatever the group holds, and run on any stack the block pushes the value of the
group.  So two groups of one value can stand for each other in every text, even in one
that has no value.
-/

namespace Calculator

/-- The fault of a text that is refused depends on its first foreign character only. -/
theorem Text.agree_validate {first second : Text}
    (hhead : (first.dropWhile isAllowed).head? = (second.dropWhile isAllowed).head?) :
    Agree (· = ·) first.validate second.validate := by
  unfold Text.validate
  revert hhead
  cases first.dropWhile isAllowed with
  | nil =>
      intro hhead
      rw [List.head?_nil, eq_comm, List.head?_eq_none_iff] at hhead
      rw [hhead]
      exact .ok rfl
  | cons character rest =>
      intro hhead
      obtain ⟨rest', hcons⟩ := List.head?_eq_some_iff.1 hhead.symm
      rw [hcons]
      exact .error rfl

/-- A group of characters of the alphabet leaves the first foreign character as it is. -/
theorem Text.head?_dropWhile_group {inner : Text}
    (hinner : ∀ character ∈ inner, isAllowed character = true) (front back : Text) :
    ((front ++ '(' :: (inner ++ ')' :: back)).dropWhile isAllowed).head? =
      ((front ++ back).dropWhile isAllowed).head? := by
  have hgroup : ('(' :: (inner ++ ')' :: back)).dropWhile isAllowed =
      back.dropWhile isAllowed := by
    rw [List.dropWhile_cons_of_pos (by decide), List.dropWhile_append_of_pos hinner,
      List.dropWhile_cons_of_pos (by decide)]
  rw [List.dropWhile_append, List.dropWhile_append, hgroup]
  cases front.dropWhile isAllowed with
  | nil => rfl
  | cons character rest => rfl

/-- The items of a text are alike wherever it starts. -/
theorem Cursor.forall₂_alike_items (position other : Nat) (text : Text) :
    List.Forall₂ (Item.Matches Token.Alike) (items ⟨position, text⟩) (items ⟨other, text⟩) := by
  rw [← Nat.zero_add position, ← Nat.zero_add other, items_add, items_add,
    List.forall₂_map_left_iff, List.forall₂_map_right_iff, List.forall₂_same]
  intro item _
  cases item with
  | token found => exact ⟨rfl, rfl⟩
  | stray character position => rfl

/-- A text is read alike wherever it starts. -/
theorem Yard.agree_run {settled settled' : List Token} {first second : Yard}
    (hyards : Matches Token.Alike settled settled' first second) (source other : Text)
    (position position' : Nat) (text : Text) :
    Agree (Matches Token.Alike settled settled') (first.run source ⟨position, text⟩)
      (second.run other ⟨position', text⟩) :=
  agree_foldlM (fun _ _ halike => halike.1) (Cursor.forall₂_alike_items position position' text)
    hyards

namespace Rpn

/-- Alike but for one block of tokens in each. -/
def AlikeAround (block block' : List Token) (first second : Rpn) : Prop :=
  ∃ before before' behind behind', List.Forall₂ Token.Alike before before' ∧
    List.Forall₂ Token.Alike behind behind' ∧
    first.tokens = before ++ (block ++ behind) ∧ second.tokens = before' ++ (block' ++ behind')

/-- A text with a group is converted alike whatever the group holds. -/
theorem agree_ofText_group (front back : Text) {left right : Text} {leftRpn rightRpn : Rpn}
    (hleft : ofText left = .ok leftRpn) (hright : ofText right = .ok rightRpn) :
    Agree
      (AlikeAround (leftRpn.tokens.map (Token.moved (front.byteLength + 1)))
        (rightRpn.tokens.map (Token.moved (front.byteLength + 1))))
      (ofText (front ++ '(' :: (left ++ ')' :: back)))
      (ofText (front ++ '(' :: (right ++ ')' :: back))) := by
  have hbreaks : ∀ inner : Text, Text.BreaksRun ('(' :: (inner ++ ')' :: back)) := by
    intro inner
    rw [Text.breaksRun_cons]
    rfl
  have hempty : Yard.Matches Token.Alike [] [] Yard.empty Yard.empty :=
    Yard.matches_settled [] [] .nil
  change Agree _ (Yard.empty.run _ ⟨0, front ++ '(' :: (left ++ ')' :: back)⟩ >>= _)
    (Yard.empty.run _ ⟨0, front ++ '(' :: (right ++ ')' :: back)⟩ >>= _)
  rw [Yard.run_append _ _ 0 front (hbreaks left), Yard.run_append _ _ 0 front (hbreaks right),
    bind_assoc, bind_assoc, Nat.zero_add]
  -- The front is read alike, then each group leaves its block behind.
  refine (Yard.agree_run hempty _ _ 0 0 front).bind ?_
  rintro yard yard' ⟨⟨emitted, emitted', hfirst, hsecond, hemitted⟩, hpending⟩
  rw [List.append_nil] at hfirst hsecond
  rw [Yard.run_group hleft, Yard.run_group hright]
  refine (Yard.agree_run (Yard.matches_settled _ _ hpending) _ _ _ _ back).bind ?_
  intro reached reached' hreached
  refine (Yard.agree_drain (fun _ _ halike => halike.1) hreached).bind ?_
  rintro tokens tokens' ⟨behind, behind', rfl, rfl, hbehind⟩
  refine .ok ⟨emitted.reverse, emitted'.reverse, behind, behind',
    List.rel_reverse hemitted, hbehind, ?_, ?_⟩
  · simp [hfirst]
  · simp [hsecond]

/-- A sequence that has a value pushes it on any stack, wherever its tokens stand. -/
theorem foldlM_step_of_evaluate {rpn : Rpn} {value : Binary64}
    (hvalue : rpn.evaluate = .ok value) {tokens : List Token}
    (halike : List.Forall₂ Token.Alike rpn.tokens tokens) (source : Text)
    (stack : List Binary64) : tokens.foldlM (step source) stack = .ok (value :: stack) := by
  obtain ⟨final, hrun, hresult⟩ := bind_eq_ok_iff.1 hvalue
  rw [result_eq_ok_iff] at hresult
  have hframed := foldlM_step_append hrun stack
  have hagree := agree_foldlM rpn.source source halike ([] ++ stack)
  rw [hframed, hresult] at hagree
  obtain ⟨reached, hreached, rfl⟩ := hagree.exists_ok
  exact hreached

/-- Sequences agree if they are alike around blocks that push one value. -/
theorem AlikeAround.agree_evaluate {block block' : List Token} {first second : Rpn}
    {value : Binary64} (halike : AlikeAround block block' first second)
    (hblock : ∀ source stack, block.foldlM (step source) stack = .ok (value :: stack))
    (hblock' : ∀ source stack, block'.foldlM (step source) stack = .ok (value :: stack)) :
    Agree (· = ·) first.evaluate second.evaluate := by
  obtain ⟨before, before', behind, behind', hbefore, hbehind, hfirst, hsecond⟩ := halike
  unfold evaluate
  rw [hfirst, hsecond, List.foldlM_append, List.foldlM_append, bind_assoc, bind_assoc]
  refine (agree_foldlM _ _ hbefore []).bind ?_
  rintro stack _ rfl
  rw [List.foldlM_append, List.foldlM_append, hblock, hblock']
  refine (agree_foldlM _ _ hbehind (value :: stack)).bind ?_
  rintro final _ rfl
  exact agree_result _ _ final

end Rpn

/-- Two texts of one value can stand for each other as a group in any text, well formed
or not: the value stays the same, and so does the cause of a fault. -/
theorem calculate_group_congr (front back : Text) {left right : Text} {value : Binary64}
    (hleft : calculate left = .ok value) (hright : calculate right = .ok value) :
    Agree (· = ·) (calculate (front ++ '(' :: (left ++ ')' :: back)))
      (calculate (front ++ '(' :: (right ++ ')' :: back))) := by
  obtain ⟨hleftAllowed, leftRpn, hleftRpn, hleftValue⟩ := calculate_eq_ok_iff.1 hleft
  obtain ⟨hrightAllowed, rightRpn, hrightRpn, hrightValue⟩ := calculate_eq_ok_iff.1 hright
  have hmoved : ∀ tokens : List Token, List.Forall₂ Token.Alike tokens
      (tokens.map (Token.moved (front.byteLength + 1))) := by
    intro tokens
    rw [List.forall₂_map_right_iff, List.forall₂_same]
    exact fun token _ => token.alike_moved _
  have hvalidate : Agree (· = ·) (front ++ '(' :: (left ++ ')' :: back)).validate
      (front ++ '(' :: (right ++ ')' :: back)).validate := by
    apply Text.agree_validate
    rw [Text.head?_dropWhile_group hleftAllowed, Text.head?_dropWhile_group hrightAllowed]
  unfold calculate convert
  rw [bind_assoc, bind_assoc]
  refine hvalidate.bind fun _ _ _ => ?_
  refine (Rpn.agree_ofText_group front back hleftRpn hrightRpn).bind fun first second halike => ?_
  exact halike.agree_evaluate (Rpn.foldlM_step_of_evaluate hleftValue (hmoved _))
    (Rpn.foldlM_step_of_evaluate hrightValue (hmoved _))

/-- Two texts of the value three, as the divisor in a text that ends in an operator. -/
theorem calculate_divisor_congr :
    calculate ['1', '(', '2', ')', '+'] = .ok (Decimal.toBinary64 ⟨3, 0⟩) ∧
      calculate ['9', '√', '0'] = .ok (Decimal.toBinary64 ⟨3, 0⟩) ∧
      Agree (· = ·)
        (calculate (['7', '-', '6', '/'] ++ '(' :: (['1', '(', '2', ')', '+'] ++ ')' :: ['*'])))
        (calculate (['7', '-', '6', '/'] ++ '(' :: (['9', '√', '0'] ++ ')' :: ['*']))) := by
  have hsum : calculate ['1', '(', '2', ')', '+'] = .ok (Decimal.toBinary64 ⟨3, 0⟩) := by
    decide +kernel
  have hroot : calculate ['9', '√', '0'] = .ok (Decimal.toBinary64 ⟨3, 0⟩) := by
    decide +kernel
  exact ⟨hsum, hroot, calculate_group_congr ['7', '-', '6', '/'] ['*'] hsum hroot⟩

end Calculator

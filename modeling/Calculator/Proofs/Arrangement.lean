import Mathlib.Data.List.Chain
import Mathlib.Data.List.Find
import Mathlib.Data.List.Nodup
import Calculator.Proofs.Parentheses
import Calculator.Proofs.Places
import Calculator.Proofs.Stack
import Calculator.Proofs.Waiting

/-!
# How the yard is arranged

Behind any part of a text that is read without a fault, operators wait in the yard and the
opening parentheses that have no partner yet, the newest on top.  Within one group every
operator binds more tightly than the one below it.  Since there are three precedences, no
group has more than three operators waiting.  What was emitted and what waits are together
the numbers and operators that were read, each once, and those parentheses.  A closing
parenthesis never waits, so the end of a conversion need look for opening ones only.
-/

namespace Calculator

namespace Token

def isRightParen (token : Token) : Bool :=
  token.kind == .rightParen

/-- No stretch of the tokens from the first one on closes more groups than it opens. -/
def CloseOwn (tokens : List Token) : Prop :=
  ∀ front, front <+: tokens → front.countP isRightParen ≤ front.countP isLeftParen

/-- An opening parenthesis that has no partner among the tokens read: what was read behind it
closes groups of its own only. -/
def IsUnmatched (read : List Token) (token : Token) : Prop :=
  token.isLeftParen = true ∧
    ∃ before behind, read = before ++ token :: behind ∧ CloseOwn behind

/-- An opening parenthesis that has no partner, with so many open groups behind it. -/
def IsOpenAround (read : List Token) (inner : Nat) (token : Token) : Prop :=
  token.isLeftParen = true ∧
    ∃ before behind, read = before ++ token :: behind ∧ CloseOwn behind ∧
      behind.countP isLeftParen = behind.countP isRightParen + inner

theorem closeOwn_nil : CloseOwn [] := by
  intro front hfront
  rw [List.prefix_nil.1 hfront]
  exact le_refl _

theorem closeOwn_concat {tokens : List Token} {last : Token} :
    CloseOwn (tokens ++ [last]) ↔ CloseOwn tokens ∧
      (tokens ++ [last]).countP isRightParen ≤ (tokens ++ [last]).countP isLeftParen := by
  constructor
  · intro hown
    exact ⟨fun front hfront => hown front (hfront.trans (List.prefix_append _ _)),
      hown _ List.prefix_rfl⟩
  · rintro ⟨hown, hcount⟩ front hfront
    obtain rfl | hfront := List.prefix_concat_iff.1 hfront
    · exact hcount
    · exact hown front hfront

theorem isUnmatched_iff {read : List Token} {token : Token} :
    token.IsUnmatched read ↔ ∃ inner, IsOpenAround read inner token := by
  constructor
  · rintro ⟨hleft, before, behind, hread, hown⟩
    obtain ⟨inner, hinner⟩ := Nat.exists_eq_add_of_le (hown behind List.prefix_rfl)
    exact ⟨inner, hleft, before, behind, hread, hown, hinner⟩
  · rintro ⟨inner, hleft, before, behind, hread, hown, -⟩
    exact ⟨hleft, before, behind, hread, hown⟩

/-- One more token either opens the innermost group itself, or leaves the groups around it
open and changes their number. -/
theorem isOpenAround_concat {read : List Token} {last token : Token} {inner : Nat} :
    IsOpenAround (read ++ [last]) inner token ↔
      (last.isLeftParen = true ∧ last = token ∧ inner = 0) ∨
        ∃ previous, IsOpenAround read previous token ∧
          previous + [last].countP isLeftParen = inner + [last].countP isRightParen := by
  constructor
  · rintro ⟨hleft, before, behind, hread, hown, hinner⟩
    -- The last token is the parenthesis itself, or the last one behind it.
    rcases behind.eq_nil_or_concat with rfl | ⟨behind, final, rfl⟩
    · obtain ⟨-, hlast⟩ := List.append_inj' hread rfl
      obtain rfl := List.singleton_inj.1 hlast
      exact Or.inl ⟨hleft, rfl, by simpa using hinner.symm⟩
    · rw [List.concat_eq_append] at hread hown hinner
      rw [← List.cons_append, ← List.append_assoc] at hread
      obtain ⟨rfl, hlast⟩ := List.append_inj' hread rfl
      obtain rfl := List.singleton_inj.1 hlast
      obtain ⟨hbehind, -⟩ := closeOwn_concat.1 hown
      obtain ⟨previous, hprevious⟩ :=
        Nat.exists_eq_add_of_le (hbehind behind List.prefix_rfl)
      refine Or.inr ⟨previous, ⟨hleft, before, behind, rfl, hbehind, hprevious⟩, ?_⟩
      rw [List.countP_append, List.countP_append] at hinner
      omega
  · rintro (⟨hleft, rfl, rfl⟩ | ⟨previous, ⟨hleft, before, behind, rfl, hown, hprevious⟩, hinner⟩)
    · exact ⟨hleft, read, [], rfl, closeOwn_nil, rfl⟩
    · refine ⟨hleft, before, behind ++ [last], by simp, closeOwn_concat.2 ⟨hown, ?_⟩, ?_⟩
      · rw [List.countP_append, List.countP_append]
        omega
      · rw [List.countP_append, List.countP_append]
        omega

/-- The open groups are those of the opening parentheses without partner, ordered by the
number of open groups behind them. -/
theorem getElem?_openings_eq_some_iff {read : List Token} {inner : Nat} {token : Token} :
    (openings read)[inner]? = some token ↔ IsOpenAround read inner token := by
  induction read using List.reverseRecOn generalizing inner with
  | nil => simp [openings, IsOpenAround]
  | append_singleton read last ih =>
      rw [openings_concat, isOpenAround_concat]
      simp only [← ih]
      cases hkind : last.kind with
      | number => simp [nest, isLeftParen, isRightParen, hkind]
      | operator applied => simp [nest, isLeftParen, isRightParen, hkind]
      | leftParen =>
          cases inner with
          | zero => simp [nest, isLeftParen, isRightParen, hkind]
          | succ inner => simp [nest, isLeftParen, isRightParen, hkind]
      | rightParen => simp [nest, isLeftParen, isRightParen, hkind]

theorem mem_openings_iff {read : List Token} {token : Token} :
    token ∈ openings read ↔ token.IsUnmatched read := by
  simp only [List.mem_iff_getElem?, getElem?_openings_eq_some_iff, isUnmatched_iff]

theorem IsUnmatched.mem {read : List Token} {token : Token} (hunmatched : token.IsUnmatched read) :
    token ∈ read := by
  obtain ⟨-, before, behind, rfl, -⟩ := hunmatched
  simp

theorem isParen_of_isLeftParen {token : Token} (hleft : token.isLeftParen = true) :
    token.isParen = true := by
  rw [isParen, isLeftParen_iff.1 hleft]

/-- The precedence of an operator, and zero, which is below all of them, for other tokens. -/
def precedence (token : Token) : Nat :=
  match token.kind with
  | .operator applied => applied.precedence
  | _ => 0

theorem precedence_of_kind {token : Token} {applied : Operator}
    (hkind : token.kind = .operator applied) : token.precedence = applied.precedence := by
  rw [precedence, hkind]

end Token

namespace Yard

section Tracks

variable {yard : Yard} {read stretch : List Token}

/-- Of the parentheses only opening ones wait. -/
theorem Tracks.isParen_eq (htracks : yard.Tracks read) :
    ∀ token ∈ yard.pending, token.isParen = token.isLeftParen := by
  intro token hmem
  rcases htracks.waits token hmem with hleft | ⟨applied, hkind⟩
  · rw [hleft, Token.isParen_of_isLeftParen hleft]
  · simp [Token.isParen, Token.isLeftParen, hkind]

/-- The end of a conversion need not look for closing parentheses. -/
theorem Tracks.drain_eq (htracks : yard.Tracks read) (source : Text) :
    yard.drain source =
      match yard.pending.find? Token.isLeftParen with
      | some token => .error (token.fault source .unbalancedParenthesis)
      | none => .ok yard.output := by
  rw [drain, List.find?_congr htracks.isParen_eq]
  rfl

/-- The parentheses that are held are those that wait. -/
theorem Tracks.filter_isParen_held (htracks : yard.Tracks read) :
    yard.held.filter Token.isParen = Token.openings read := by
  have hemitted : yard.emitted.filter Token.isParen = [] := by
    rw [List.filter_eq_nil_iff]
    intro token hmem
    rw [(htracks.settled token hmem).2]
    exact Bool.noConfusion
  rw [held, List.filter_append, hemitted, List.nil_append, ← htracks.openings_eq]
  exact List.filter_congr htracks.isParen_eq

/-- What is held are the numbers and operators that were read and the open groups. -/
theorem Tracks.perm_held (htracks : yard.Tracks read)
    (hheld : (withoutParens yard.held).Perm (withoutParens read)) :
    yard.held.Perm (Token.openings read ++ withoutParens read) := by
  rw [← htracks.filter_isParen_held]
  exact (List.filter_append_perm Token.isParen yard.held).symm.trans
    (List.Perm.append_left _ hheld)

theorem Tracks.mem_held_iff (htracks : yard.Tracks read)
    (hheld : (withoutParens yard.held).Perm (withoutParens read)) {token : Token} :
    token ∈ yard.held ↔
      token ∈ read ∧ (token.isParen = false ∨ token.IsUnmatched read) := by
  rw [(htracks.perm_held hheld).mem_iff, List.mem_append, Token.mem_openings_iff, withoutParens,
    List.mem_filter, Bool.not_eq_true']
  constructor
  · rintro (hunmatched | ⟨hmem, hparen⟩)
    · exact ⟨hunmatched.mem, Or.inr hunmatched⟩
    · exact ⟨hmem, Or.inl hparen⟩
  · rintro ⟨hmem, hparen | hunmatched⟩
    · exact Or.inr ⟨hmem, hparen⟩
    · exact Or.inl hunmatched

theorem Tracks.nodup_held (htracks : yard.Tracks read)
    (hheld : (withoutParens yard.held).Perm (withoutParens read)) (hnodup : read.Nodup) :
    yard.held.Nodup := by
  rw [(htracks.perm_held hheld).nodup_iff, List.nodup_append]
  refine ⟨?_, hnodup.filter _, ?_⟩
  · rw [← htracks.openings_eq]
    exact (htracks.sublist.nodup (List.nodup_reverse.2 hnodup)).filter _
  · rintro opening hopening other hother rfl
    have hparen := (List.mem_filter.1 hother).2
    rw [Token.isParen_of_isLeftParen (Token.mem_openings_iff.1 hopening).1] at hparen
    cases hparen

theorem Tracks.exists_operator (htracks : yard.Tracks read) (hstretch : stretch <:+: yard.pending)
    (hgroup : ∀ token ∈ stretch, token.kind ≠ .leftParen) :
    ∀ token ∈ stretch, ∃ applied, token.kind = .operator applied := by
  intro token hmem
  refine (htracks.waits token (hstretch.subset hmem)).resolve_left fun hleft => ?_
  exact hgroup token hmem (Token.isLeftParen_iff.1 hleft)

/-- Within a group precedences fall from the top down. -/
theorem Tracks.pairwise_precedence (htracks : yard.Tracks read)
    (hstretch : stretch <:+: yard.pending) (hgroup : ∀ token ∈ stretch, token.kind ≠ .leftParen) :
    (stretch.map Token.precedence).Pairwise (· > ·) := by
  have hchain : stretch.IsChain Token.Outranks := List.IsChain.infix htracks.ranked hstretch
  rw [← List.isChain_iff_pairwise, List.isChain_map]
  refine hchain.imp_of_mem_imp ?_
  intro upper lower hupper hlower hranked
  obtain ⟨waiting, hwaiting⟩ := htracks.exists_operator hstretch hgroup lower hlower
  obtain hleft | ⟨applied, happlied, hbinds⟩ := hranked waiting hwaiting
  · exact absurd (Token.isLeftParen_iff.1 hleft) (hgroup upper hupper)
  · rw [Token.precedence_of_kind hwaiting, Token.precedence_of_kind happlied]
    exact hbinds

/-- Within a group no precedence waits twice, and there are three. -/
theorem Tracks.length_le_three (htracks : yard.Tracks read) (hstretch : stretch <:+: yard.pending)
    (hgroup : ∀ token ∈ stretch, token.kind ≠ .leftParen) : stretch.length ≤ 3 := by
  have hnodup : (stretch.map Token.precedence).Nodup :=
    (htracks.pairwise_precedence hstretch hgroup).imp Nat.ne_of_gt
  have hlevels : stretch.map Token.precedence ⊆ [1, 2, 3] := by
    intro level hmem
    obtain ⟨token, htoken, rfl⟩ := List.mem_map.1 hmem
    obtain ⟨applied, hkind⟩ := htracks.exists_operator hstretch hgroup token htoken
    rw [Token.precedence_of_kind hkind]
    cases applied <;> decide
  simpa using hnodup.length_le_of_subset hlevels

end Tracks

/-- Where no stretch within a group is longer than three, the operators are at most three for
each opening parenthesis and three more; `front` is the stretch in which a scan stands. -/
theorem length_add_countP_isOperator_le (front rest : List Token)
    (hstretches : ∀ stretch, stretch <:+: front ++ rest →
      (∀ token ∈ stretch, token.kind ≠ .leftParen) → stretch.length ≤ 3)
    (hfront : ∀ token ∈ front, token.kind ≠ .leftParen) :
    front.length + rest.countP Token.isOperator ≤ 3 * (rest.countP Token.isLeftParen + 1) := by
  induction rest generalizing front with
  | nil =>
      have hlength := hstretches front (List.prefix_append _ _).isInfix hfront
      simpa using hlength
  | cons token rest ih =>
      by_cases hleft : token.kind = .leftParen
      · -- The stretch ends here, and a new one begins behind the parenthesis.
        have hlength := hstretches front (List.prefix_append _ _).isInfix hfront
        have hsuffix : rest <:+: front ++ token :: rest :=
          ((List.suffix_cons _ _).trans (List.suffix_append _ _)).isInfix
        have hrest := ih [] (fun stretch hstretch => hstretches stretch (hstretch.trans hsuffix))
          (by simp)
        rw [List.length_nil] at hrest
        rw [List.countP_cons_of_pos (Token.isLeftParen_iff.2 hleft),
          List.countP_cons_of_neg (by simp [Token.isOperator, hleft])]
        omega
      · have hrest := ih (front ++ [token]) (by simpa using hstretches)
          (List.forall_mem_append.2 ⟨hfront, by simpa using hleft⟩)
        rw [List.length_append, List.length_singleton] at hrest
        rw [List.countP_cons_of_neg (mt Token.isLeftParen_iff.1 hleft), List.countP_cons]
        split <;> omega

/-- What the yard holds behind the tokens read, and in which order. -/
structure Arranged (yard : Yard) (read : List Token) : Prop where
  /-- No number and no closing parenthesis waits. -/
  waits : ∀ token ∈ yard.pending,
    token.kind = .leftParen ∨ ∃ applied, token.kind = .operator applied
  /-- What stands further on in the text waits above. -/
  newestFirst : yard.pending.Pairwise fun upper lower => lower.offset < upper.offset
  /-- An opening parenthesis waits as long as it has no partner. -/
  unmatched : ∀ token, token ∈ yard.pending ∧ token.kind = .leftParen ↔ token.IsUnmatched read
  /-- Where no opening parenthesis stands between, precedences rise from the bottom up. -/
  rising : ∀ stretch, stretch <:+: yard.pending →
    (∀ token ∈ stretch, token.kind ≠ .leftParen) →
      (stretch.map Token.precedence).Pairwise (· > ·)
  nodup_held : yard.held.Nodup
  /-- Numbers, operators and parentheses without partner are held, and nothing else. -/
  mem_held_iff : ∀ token, token ∈ yard.held ↔
    token ∈ read ∧ (token.isParen = false ∨ token.IsUnmatched read)

theorem Tracks.arranged {yard : Yard} {read : List Token} (htracks : yard.Tracks read)
    (hheld : (withoutParens yard.held).Perm (withoutParens read))
    (hoffsets : read.Pairwise fun first second => first.offset < second.offset) :
    yard.Arranged read where
  waits := fun token hmem => (htracks.waits token hmem).imp_left Token.isLeftParen_iff.1
  newestFirst := (List.pairwise_reverse.2 hoffsets).sublist htracks.sublist
  unmatched := by
    intro token
    rw [← Token.mem_openings_iff, ← htracks.openings_eq, List.mem_filter, Token.isLeftParen_iff]
  rising := fun _ hstretch hgroup => htracks.pairwise_precedence hstretch hgroup
  nodup_held := by
    refine htracks.nodup_held hheld (hoffsets.imp fun hoffset heq => ?_)
    rw [heq] at hoffset
    exact lt_irrefl _ hoffset
  mem_held_iff := fun _ => htracks.mem_held_iff hheld

end Yard

/-- The tokens from the start of a text on stand one behind the other. -/
theorem Text.pairwise_offset_of_items {text : Text} {read : List Token} {back : List Item}
    (hitems : text.items = read.map Item.token ++ back) :
    read.Pairwise fun first second => first.offset < second.offset := by
  have hsource : (Cursor.start text).tokens = read ++ back.filterMap Item.token? := by
    change text.items.filterMap Item.token? = _
    rw [hitems, List.filterMap_append, Item.filterMap_token?_map]
  have hascending : (Cursor.start text).tokens.Pairwise _ := (Cursor.ascending_tokens 0 text).2
  rw [hsource] at hascending
  exact hascending.sublist (List.sublist_append_left _ _)

/-- Behind any items of a text that are taken in without a fault, the yard is arranged by the
tokens that they are.  No group has more than three operators waiting, and the end of a
conversion would look for opening parentheses only. -/
theorem exists_yard_arranged {text : Text} {front back : List Item} {yard : Yard}
    (hitems : text.items = front ++ back)
    (hread : front.foldlM (Yard.stepItem text) Yard.empty = .ok yard) :
    ∃ read, front = read.map Item.token ∧ yard.Arranged read ∧
      (∀ stretch, stretch <:+: yard.pending →
        (∀ token ∈ stretch, token.kind ≠ .leftParen) → stretch.length ≤ 3) ∧
      yard.pending.countP Token.isOperator ≤ 3 * (yard.opened + 1) ∧
      yard.drain text =
        match yard.pending.find? Token.isLeftParen with
        | some token => .error (token.fault text .unbalancedParenthesis)
        | none => .ok yard.output := by
  obtain ⟨read, rfl, htokens⟩ := Yard.exists_tokens_of_foldlM hread
  have htracks : yard.Tracks read := Yard.tracks_empty.foldlM htokens
  have hheld : (withoutParens yard.held).Perm (withoutParens read) := by
    have hperm := Yard.perm_of_foldlM htokens
    rwa [show withoutParens Yard.empty.held = [] from rfl, List.append_nil] at hperm
  have hthree : ∀ stretch, stretch <:+: yard.pending →
      (∀ token ∈ stretch, token.kind ≠ .leftParen) → stretch.length ≤ 3 :=
    fun _ hstretch hgroup => htracks.length_le_three hstretch hgroup
  have hoffsets := Text.pairwise_offset_of_items hitems
  refine ⟨read, rfl, htracks.arranged hheld hoffsets, hthree, ?_, htracks.drain_eq text⟩
  have hcount := Yard.length_add_countP_isOperator_le [] yard.pending hthree (by simp)
  rwa [List.length_nil, Nat.zero_add] at hcount

/-- Behind a closed group, three operators wait in an open one.  The text goes on to close a
group too many. -/
theorem exists_yard_arranged_root :
    Text.items ['1', '/', '(', '2', ')', '-', '(', '3', '+', '4', '*', '5', '√', ')', ')'] =
        (Cursor.start ['1', '/', '(', '2', ')', '-', '(', '3', '+', '4', '*', '5', '√']).items ++
          [.token ⟨.rightParen, [')'], 15⟩, .token ⟨.rightParen, [')'], 16⟩] ∧
      ∃ yard read,
        (Cursor.start
            ['1', '/', '(', '2', ')', '-', '(', '3', '+', '4', '*', '5', '√']).items.foldlM
            (Yard.stepItem
              ['1', '/', '(', '2', ')', '-', '(', '3', '+', '4', '*', '5', '√', ')', ')'])
            Yard.empty = .ok yard ∧
          yard.pending =
            [⟨.operator .root, ['√'], 12⟩, ⟨.operator .star, ['*'], 10⟩,
              ⟨.operator .plus, ['+'], 8⟩, ⟨.leftParen, ['('], 6⟩,
              ⟨.operator .minus, ['-'], 5⟩] ∧
          (Cursor.start
              ['1', '/', '(', '2', ')', '-', '(', '3', '+', '4', '*', '5', '√']).items =
            read.map Item.token ∧
          yard.Arranged read ∧ Token.IsUnmatched read ⟨.leftParen, ['('], 6⟩ ∧
          ¬Token.IsUnmatched read ⟨.leftParen, ['('], 2⟩ := by
  have hitems : Text.items
      ['1', '/', '(', '2', ')', '-', '(', '3', '+', '4', '*', '5', '√', ')', ')'] =
        (Cursor.start ['1', '/', '(', '2', ')', '-', '(', '3', '+', '4', '*', '5', '√']).items ++
          [.token ⟨.rightParen, [')'], 15⟩, .token ⟨.rightParen, [')'], 16⟩] := by
    decide +kernel
  have hfront : (Cursor.start
      ['1', '/', '(', '2', ')', '-', '(', '3', '+', '4', '*', '5', '√']).items.foldlM
      (Yard.stepItem ['1', '/', '(', '2', ')', '-', '(', '3', '+', '4', '*', '5', '√', ')', ')'])
      Yard.empty =
        .ok ⟨[⟨.number, ['5'], 11⟩, ⟨.number, ['4'], 9⟩, ⟨.number, ['3'], 7⟩,
            ⟨.operator .slash, ['/'], 1⟩, ⟨.number, ['2'], 3⟩, ⟨.number, ['1'], 0⟩],
          [⟨.operator .root, ['√'], 12⟩, ⟨.operator .star, ['*'], 10⟩,
            ⟨.operator .plus, ['+'], 8⟩, ⟨.leftParen, ['('], 6⟩,
            ⟨.operator .minus, ['-'], 5⟩]⟩ := by
    decide +kernel
  obtain ⟨read, hread, harranged, -⟩ := exists_yard_arranged hitems hfront
  refine ⟨hitems, _, read, hfront, rfl, hread, harranged, ?_, ?_⟩
  · exact (harranged.unmatched _).1 ⟨by decide, rfl⟩
  · intro hunmatched
    have hwaits := ((harranged.unmatched _).2 hunmatched).1
    exact absurd hwaits (by decide)

end Calculator

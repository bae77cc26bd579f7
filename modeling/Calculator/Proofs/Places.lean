import Calculator.Proofs.Items

/-!
# Where tokens stand

A text has the same items wherever it starts, moved with it, and its items can be
told apart at every place that is not inside a number.  Every token stands at its
offset with the characters of its kind, a number with all digits and points of its
place.  Offsets grow from token to token, so no token occurs twice.
-/

namespace Calculator

namespace Text

/-- No run of digits and points goes on behind the text. -/
def EndsNoRun (text : Text) : Prop :=
  ∀ character ∈ text.getLast?, Cursor.isNumeral character = false

theorem byteLength_concat (text : Text) (last : Char) :
    byteLength (text ++ [last]) = text.byteLength + last.utf8Size := by
  simp

theorem endsNoRun_concat {text : Text} {last : Char} :
    EndsNoRun (text ++ [last]) ↔ Cursor.isNumeral last = false := by
  simp [EndsNoRun]

@[simp]
theorem endsNoRun_nil : EndsNoRun [] := by
  simp [EndsNoRun]

theorem EndsNoRun.append {left right : Text} (hleft : left.EndsNoRun) (hright : right.EndsNoRun) :
    EndsNoRun (left ++ right) := by
  intro character hlast
  rw [List.getLast?_append, Option.mem_def, Option.or_eq_some_iff] at hlast
  rcases hlast with hlast | ⟨-, hlast⟩
  · exact hright character hlast
  · exact hleft character hlast

theorem EndsNoRun.of_append {left right : Text} (hends : EndsNoRun (left ++ right)) :
    right.EndsNoRun := by
  intro character hlast
  apply hends character
  rw [List.getLast?_append, Option.mem_def.1 hlast]
  rfl

theorem not_endsNoRun_run {run : Text} (hrun : run.IsRun) : ¬EndsNoRun run := by
  intro hends
  have hlast := hends _ (List.getLast?_eq_some_getLast hrun.1)
  rw [hrun.2 _ (List.getLast_mem hrun.1)] at hlast
  cases hlast

theorem BreaksRun.append {left right : Text} (hleft : left.BreaksRun) (hright : right.BreaksRun) :
    BreaksRun (left ++ right) := by
  cases left with
  | nil => exact hright
  | cons character rest => exact hleft

theorem not_breaksRun_run {run rest : Text} (hrun : run.IsRun) : ¬BreaksRun (run ++ rest) := by
  obtain ⟨first, more, rfl, hfirst, -⟩ := hrun.exists_eq_cons
  rw [List.cons_append, breaksRun_cons, hfirst]
  exact Bool.noConfusion

end Text

namespace Token

/-- The same token in a text that starts so many bytes further on. -/
def moved (distance : Nat) (token : Token) : Token :=
  { token with offset := token.offset + distance }

@[simp]
theorem isParen_moved (distance : Nat) (token : Token) :
    (token.moved distance).isParen = token.isParen := rfl

/-- The literal is one that a token of this kind can have. -/
def IsSpelled (token : Token) : Prop :=
  match token.kind with
  | .number => token.literal.IsRun
  | .operator applied => token.literal = [applied.symbol]
  | .leftParen => token.literal = ['(']
  | .rightParen => token.literal = [')']

/-- The token stands in the source between two texts, and takes from them nothing
less than a whole number. -/
structure StandsBetween (token : Token) (source before after : Text) : Prop where
  source_eq : source = before ++ (token.literal ++ after)
  offset_eq : token.offset = before.byteLength
  isSpelled : token.IsSpelled
  isWhole : token.kind = .number → before.EndsNoRun ∧ after.BreaksRun

theorem isSpelled_of_ofChar? {character : Char} {kind : Kind}
    (hkind : Kind.ofChar? character = some kind) (offset : Nat) :
    IsSpelled ⟨kind, [character], offset⟩ := by
  rcases Kind.eq_of_ofChar?_eq_some hkind with ⟨rfl, rfl⟩ | ⟨rfl, rfl⟩ | ⟨applied, rfl, rfl⟩
  · rfl
  · rfl
  · rfl

/-- A token that is no number is written with the one character of its kind. -/
theorem IsSpelled.exists_symbol {token : Token} (hspelled : token.IsSpelled)
    (hkind : token.kind ≠ .number) :
    ∃ character, token.literal = [character] ∧ Kind.ofChar? character = some token.kind := by
  unfold IsSpelled at hspelled
  cases htoken : token.kind with
  | number => exact absurd htoken hkind
  | operator applied =>
      rw [htoken] at hspelled
      exact ⟨applied.symbol, hspelled, Kind.ofChar?_symbol applied⟩
  | leftParen =>
      rw [htoken] at hspelled
      exact ⟨'(', hspelled, Kind.ofChar?_leftParen⟩
  | rightParen =>
      rw [htoken] at hspelled
      exact ⟨')', hspelled, Kind.ofChar?_rightParen⟩

theorem IsSpelled.isRun {token : Token} (hspelled : token.IsSpelled)
    (hkind : token.kind = .number) : token.literal.IsRun := by
  rwa [IsSpelled, hkind] at hspelled

/-- A token is cut from the text that it starts, a number only if no run goes on behind it. -/
theorem IsSpelled.items_append {token : Token} (hspelled : token.IsSpelled) {rest : Text}
    (hrest : token.kind = .number → rest.BreaksRun) :
    Cursor.items ⟨token.offset, token.literal ++ rest⟩ =
      .token token :: Cursor.items ⟨token.finish, rest⟩ := by
  rcases token with ⟨kind, literal, offset⟩
  by_cases hnumber : kind = .number
  · subst hnumber
    exact Cursor.items_run offset (hspelled.isRun rfl) (hrest rfl)
  · obtain ⟨character, rfl, hkind⟩ := hspelled.exists_symbol hnumber
    rw [List.singleton_append, Cursor.items_symbol offset hkind]
    simp [finish]

end Token

def Item.moved (distance : Nat) : Item → Item
  | .token found => .token (found.moved distance)
  | .stray character position => .stray character (position + distance)

namespace Cursor

/-- A text that starts further on has its items further on. -/
theorem items_add (position distance : Nat) (text : Text) :
    items ⟨position + distance, text⟩ = (items ⟨position, text⟩).map (Item.moved distance) := by
  induction text using Text.item_induction generalizing position with
  | nil => simp
  | run run rest hrun hrest ih =>
      rw [items_run _ hrun hrest, items_run _ hrun hrest, Nat.add_right_comm, ih]
      rfl
  | symbol character kind rest hkind ih =>
      rw [items_symbol _ hkind, items_symbol _ hkind, Nat.add_right_comm, ih]
      rfl
  | stray character rest hnumeral hkind ih =>
      rw [items_stray _ hnumeral hkind, items_stray _ hnumeral hkind, Nat.add_right_comm, ih]
      rfl

/-- A text is read up to a place that no number goes on across, and then from there. -/
theorem items_append_of_seam (position : Nat) (left : Text) {right : Text}
    (hseam : left.EndsNoRun ∨ right.BreaksRun) :
    items ⟨position, left ++ right⟩ =
      items ⟨position, left⟩ ++ items ⟨position + left.byteLength, right⟩ := by
  induction left using Text.item_induction generalizing position with
  | nil => simp
  | run run rest hrun hrest ih =>
      have hbreaks : Text.BreaksRun (rest ++ right) := by
        rcases hseam with hends | hright
        · cases rest with
          | nil =>
              rw [List.append_nil] at hends
              exact absurd hends (Text.not_endsNoRun_run hrun)
          | cons character more => exact hrest
        · exact hrest.append hright
      rw [List.append_assoc, items_run _ hrun hbreaks, items_run _ hrun hrest,
        ih _ (hseam.imp_left Text.EndsNoRun.of_append), Text.byteLength_append, ← Nat.add_assoc]
      rfl
  | symbol character kind rest hkind ih =>
      rw [List.cons_append, items_symbol _ hkind, items_symbol _ hkind,
        ih _ (hseam.imp_left (@Text.EndsNoRun.of_append [character] rest)),
        Text.byteLength_cons, ← Nat.add_assoc]
      rfl
  | stray character rest hnumeral hkind ih =>
      rw [List.cons_append, items_stray _ hnumeral hkind, items_stray _ hnumeral hkind,
        ih _ (hseam.imp_left (@Text.EndsNoRun.of_append [character] rest)),
        Text.byteLength_cons, ← Nat.add_assoc]
      rfl

theorem items_append (position : Nat) (left : Text) {right : Text} (hright : right.BreaksRun) :
    items ⟨position, left ++ right⟩ =
      items ⟨position, left⟩ ++ items ⟨position + left.byteLength, right⟩ :=
  items_append_of_seam position left (Or.inr hright)

theorem tokens_append_of_seam (position : Nat) (left : Text) {right : Text}
    (hseam : left.EndsNoRun ∨ right.BreaksRun) :
    tokens ⟨position, left ++ right⟩ =
      tokens ⟨position, left⟩ ++ tokens ⟨position + left.byteLength, right⟩ := by
  rw [tokens, items_append_of_seam position left hseam, List.filterMap_append]
  rfl

/-- Up to its first foreign character a text has tokens only, and the character is an item
of its own. -/
theorem items_of_foreign {front : Text} {character : Char}
    (hallowed : ∀ earlier ∈ front, isAllowed earlier = true)
    (hforeign : isAllowed character = false) (position : Nat) (rest : Text) :
    items ⟨position, front ++ character :: rest⟩ =
      (tokens ⟨position, front⟩).map Item.token ++
        .stray character (position + front.byteLength) ::
          items ⟨position + front.byteLength + character.utf8Size, rest⟩ := by
  obtain ⟨hnumeral, hkind⟩ := stray_of_isAllowed_eq_false hforeign
  have hbreaks : Text.BreaksRun (character :: rest) := Text.breaksRun_cons.2 hnumeral
  rw [items_append position front hbreaks, items_of_isAllowed hallowed,
    items_stray _ hnumeral hkind]

theorem tokens_stray (position : Nat) {character : Char} (hnumeral : isNumeral character = false)
    (hkind : Token.Kind.ofChar? character = none) (rest : Text) :
    tokens ⟨position, character :: rest⟩ = tokens ⟨position + character.utf8Size, rest⟩ := by
  rw [tokens, items_stray position hnumeral hkind]
  rfl

/-- A token of a text stands in it, if the text does not start inside a number. -/
theorem exists_standsBetween (before : Text) {text : Text} {token : Token}
    (hseam : before.EndsNoRun ∨ text.BreaksRun)
    (hmem : token ∈ tokens ⟨before.byteLength, text⟩) :
    ∃ front after, token.StandsBetween (before ++ text) front after := by
  induction text using Text.item_induction generalizing before with
  | nil => simp at hmem
  | run run rest hrun hrest ih =>
      rw [tokens_run _ hrun hrest] at hmem
      rcases List.mem_cons.1 hmem with rfl | hmem
      · have hbefore : before.EndsNoRun := hseam.resolve_right (Text.not_breaksRun_run hrun)
        exact ⟨before, rest, rfl, rfl, hrun, fun _ => ⟨hbefore, hrest⟩⟩
      · rw [← Text.byteLength_append] at hmem
        rw [← List.append_assoc]
        exact ih _ (Or.inr hrest) hmem
  | symbol character kind rest hkind ih =>
      rw [tokens_symbol _ hkind] at hmem
      have hnumeral := isNumeral_of_ofChar?_eq_some hkind
      rcases List.mem_cons.1 hmem with rfl | hmem
      · refine ⟨before, rest, rfl, rfl, Token.isSpelled_of_ofChar? hkind _, ?_⟩
        rintro rfl
        -- No single character makes a number here.
        simpa [Token.IsSpelled, Text.IsRun, hnumeral] using
          Token.isSpelled_of_ofChar? hkind before.byteLength
      · rw [← Text.byteLength_concat] at hmem
        rw [List.append_cons]
        exact ih _ (Or.inl (Text.endsNoRun_concat.2 hnumeral)) hmem
  | stray character rest hnumeral hkind ih =>
      rw [tokens_stray _ hnumeral hkind] at hmem
      rw [← Text.byteLength_concat] at hmem
      rw [List.append_cons]
      exact ih _ (Or.inl (Text.endsNoRun_concat.2 hnumeral)) hmem

/-- Every token of a text stands in it. -/
theorem exists_standsBetween_start {source : Text} {token : Token}
    (hmem : token ∈ (start source).tokens) :
    ∃ before after, token.StandsBetween source before after :=
  exists_standsBetween [] (Or.inl (by simp [Text.EndsNoRun])) hmem

/-- The tokens start here or further on, each one behind the one before it. -/
def Ascending (position : Nat) (tokens : List Token) : Prop :=
  (∀ token ∈ tokens, position ≤ token.offset) ∧
    tokens.Pairwise fun first second => first.offset < second.offset

theorem Ascending.cons {position length : Nat} {token : Token} {tokens : List Token}
    (htokens : Ascending (position + length) tokens) (hoffset : token.offset = position)
    (hlength : 0 < length) : Ascending position (token :: tokens) := by
  obtain ⟨hbehind, hpairwise⟩ := htokens
  rw [Ascending, List.forall_mem_cons, List.pairwise_cons]
  refine ⟨⟨hoffset.ge, fun later hmem => ?_⟩, fun later hmem => ?_, hpairwise⟩
  · exact Nat.le_of_add_right_le (hbehind later hmem)
  · have := hbehind later hmem
    omega

theorem ascending_tokens (position : Nat) (text : Text) :
    Ascending position (tokens ⟨position, text⟩) := by
  induction text using Text.item_induction generalizing position with
  | nil => simp [Ascending]
  | run run rest hrun hrest ih =>
      have hlength : 0 < run.byteLength :=
        Nat.pos_of_ne_zero fun hzero => hrun.1 (Text.byteLength_eq_zero_iff.1 hzero)
      rw [tokens_run _ hrun hrest]
      exact (ih (position + run.byteLength)).cons rfl hlength
  | symbol character kind rest hkind ih =>
      rw [tokens_symbol _ hkind]
      exact (ih (position + character.utf8Size)).cons rfl character.utf8Size_pos
  | stray character rest hnumeral hkind ih =>
      obtain ⟨hbehind, hpairwise⟩ := ih (position + character.utf8Size)
      rw [tokens_stray _ hnumeral hkind]
      exact ⟨fun token hmem => Nat.le_of_add_right_le (hbehind token hmem), hpairwise⟩

theorem nodup_tokens (cursor : Cursor) : cursor.tokens.Nodup := by
  refine (ascending_tokens cursor.position cursor.rest).2.imp fun hoffset heq => ?_
  rw [heq] at hoffset
  exact lt_irrefl _ hoffset

end Cursor

end Calculator

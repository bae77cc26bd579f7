import Calculator.Proofs.Places
import Calculator.Proofs.Refusal

/-!
# What faults point at

The span of a fault covers a slice of the text that is calculated: a foreign character, the
token that has no partner or cannot be run, or the whole text where values are left over.  A
token gets its position, in bytes, when it is cut from the text, and keeps it however far the
yard moves it, so what its fault covers is the token's own literal.
-/

namespace Calculator

namespace Cursor

/-- A parenthesis or an operator is cut from the text wherever it stands. -/
theorem mem_items_symbol {character : Char} {kind : Token.Kind}
    (hkind : Token.Kind.ofChar? character = some kind) (front rest : Text) :
    Item.token ⟨kind, [character], front.byteLength⟩ ∈
      (front ++ character :: rest).items := by
  have hbreaks : Text.BreaksRun (character :: rest) :=
    Text.breaksRun_cons.2 (isNumeral_of_ofChar?_eq_some hkind)
  change _ ∈ items ⟨0, front ++ character :: rest⟩
  rw [items_append 0 front hbreaks, Nat.zero_add, items_symbol front.byteLength hkind]
  simp

end Cursor

/-- The slice is what a fault of this cause is about. -/
def Cause.IsAbout (cause : Cause) (source slice : Text) : Prop :=
  match cause with
  | .unexpectedCharacter character => slice = [character]
  | .unbalancedParenthesis => slice = ['('] ∨ slice = [')']
  | .missingOperands literal | .unknownOperator literal => slice = literal
  | .divisionByZero => slice = [Operator.slash.symbol]
  | .negativeRoot _ => slice = [Operator.root.symbol]
  | .leftoverValues _ => slice = source

/-- The causes of faults that point at a token. -/
def Cause.isOfToken : Cause → Bool
  | .unexpectedCharacter _ | .leftoverValues _ => false
  | _ => true

/-- The span of the fault covers the slice between two parts of its source; the slice is
what the cause is about, and a whole token if the cause is that of a token. -/
structure Fault.Labels (fault : Fault) (before slice after : Text) : Prop where
  source_eq : fault.source = before ++ (slice ++ after)
  span_eq : fault.span = ⟨before.byteLength, slice.byteLength⟩
  isAbout : fault.cause.IsAbout fault.source slice
  isToken : fault.cause.isOfToken = true →
    ∃ token, Item.token token ∈ fault.source.items ∧ token.literal = slice ∧
      token.StandsBetween fault.source before after

/-- A fault of a token that stands in the source points at its literal. -/
theorem Token.StandsBetween.labels {token : Token} {source before after : Text} {cause : Cause}
    (hstands : token.StandsBetween source before after)
    (hitem : Item.token token ∈ source.items) (habout : cause.IsAbout source token.literal) :
    (token.fault source cause).Labels before token.literal after where
  source_eq := hstands.source_eq
  span_eq := by rw [Token.fault, Token.span, hstands.offset_eq]
  isAbout := habout
  isToken _ := ⟨token, hitem, rfl, hstands⟩

theorem Text.IsForeign.labels {text : Text} {fault : Fault} (hforeign : text.IsForeign fault) :
    fault.source = text ∧ ∃ before slice after, fault.Labels before slice after := by
  obtain ⟨front, character, rest, htext, -, -, rfl⟩ := hforeign
  refine ⟨rfl, front, [character], rest, htext, ?_, rfl, Bool.noConfusion⟩
  simp

/-- A parenthesis is a token of its own. -/
theorem Text.labels_paren {character : Char} {kind : Token.Kind}
    (hkind : Token.Kind.ofChar? character = some kind) (hnumber : kind ≠ .number)
    (habout : Cause.unbalancedParenthesis.IsAbout [] [character]) (front rest : Text) :
    (Token.fault ⟨kind, [character], front.byteLength⟩ (front ++ character :: rest)
      .unbalancedParenthesis).Labels front [character] rest := by
  have hstands : Token.StandsBetween ⟨kind, [character], front.byteLength⟩
      (front ++ character :: rest) front rest :=
    ⟨rfl, rfl, Token.isSpelled_of_ofChar? hkind _, fun heq => absurd heq hnumber⟩
  exact hstands.labels (Cursor.mem_items_symbol hkind front rest) habout

theorem Text.Refused.labels {text : Text} {fault : Fault} (hrefused : text.Refused fault) :
    fault.source = text ∧ ∃ before slice after, fault.Labels before slice after := by
  cases hrefused with
  | foreign htext hallowed hcloses hforeign =>
      exact Text.IsForeign.labels ⟨_, _, _, htext, hallowed, hforeign, rfl⟩
  | @unopened front rest htext =>
      subst htext
      exact ⟨rfl, front, [')'], rest, Text.labels_paren Token.Kind.ofChar?_rightParen
        Token.Kind.noConfusion (Or.inr rfl) front rest⟩
  | @unclosed front inner htext =>
      subst htext
      exact ⟨rfl, front, ['('], inner, Text.labels_paren Token.Kind.ofChar?_leftParen
        Token.Kind.noConfusion (Or.inl rfl) front inner⟩

/-- A token fails for a cause that is about its literal. -/
theorem Rpn.Fails.isAbout {stack : List Binary64} {token : Token} {cause : Cause}
    (hfails : Fails stack token cause) (hspelled : token.IsSpelled) (source : Text) :
    cause.IsAbout source token.literal := by
  unfold Token.IsSpelled at hspelled
  cases hfails with
  | missingOperands => rfl
  | unknownOperator => rfl
  | divisionByZero hkind =>
      rw [hkind] at hspelled
      exact hspelled
  | negativeRoot hkind =>
      rw [hkind] at hspelled
      exact hspelled

theorem Rpn.labels_of_evaluate {text : Text} {rpn : Rpn} {fault : Fault}
    (hconverts : ofText text = .ok rpn) (hfails : rpn.evaluate = .error fault) :
    fault.source = text ∧ ∃ before slice after, fault.Labels before slice after := by
  have hsource : rpn.source = text := source_of_ofText hconverts
  rcases fails_of_evaluate hfails with ⟨token, hmem, stack, cause, htoken, rfl⟩ | ⟨count, rfl⟩
  · obtain ⟨-, -, -, -, htokens⟩ := exists_tracks_of_ofText hconverts
    have hread := (htokens token hmem).1
    obtain ⟨before, after, hstands⟩ := Cursor.exists_standsBetween_start hread
    have habout := htoken.isAbout hstands.isSpelled text
    rw [hsource]
    exact ⟨rfl, before, token.literal, after,
      hstands.labels (Cursor.mem_tokens_iff.1 hread) habout⟩
  · rw [hsource]
    refine ⟨rfl, [], text, [], ?_, rfl, rfl, Bool.noConfusion⟩
    simp

/-- Every fault of a calculation quotes the whole text, and its span covers a slice of it:
what the cause is about, and a token of the text wherever the cause is that of a token. -/
theorem calculate_fault_labels {text : Text} {fault : Fault}
    (hfails : calculate text = .error fault) :
    fault.source = text ∧ ∃ before slice after, fault.Labels before slice after ∧
      text.slice? fault.span = some slice := by
  have hlabels : fault.source = text ∧ ∃ before slice after, fault.Labels before slice after := by
    rcases calculate_eq_error_iff.1 hfails with
      hforeign | ⟨-, hconvert | ⟨rpn, hconverts, hevaluate⟩⟩
    · exact hforeign.labels
    · exact (Rpn.refused_of_ofText hconvert).labels
    · exact Rpn.labels_of_evaluate hconverts hevaluate
  obtain ⟨hsource, before, slice, after, hlabel⟩ := hlabels
  refine ⟨hsource, before, slice, after, hlabel, ?_⟩
  rw [← hsource, hlabel.source_eq, hlabel.span_eq]
  exact Text.slice?_append before slice after

/-- A number with two points behind a root: its fault covers all of it, counted in bytes. -/
theorem calculate_labels_number :
    calculate ['1', '√', '2', '+', '3', '.', '4', '.', '5'] =
        .error ⟨.missingOperands ['3', '.', '4', '.', '5'], ⟨6, 5⟩,
          ['1', '√', '2', '+', '3', '.', '4', '.', '5']⟩ ∧
      Text.slice? ['1', '√', '2', '+', '3', '.', '4', '.', '5'] ⟨6, 5⟩ =
        some ['3', '.', '4', '.', '5'] := by
  have hfails : calculate ['1', '√', '2', '+', '3', '.', '4', '.', '5'] =
      .error ⟨.missingOperands ['3', '.', '4', '.', '5'], ⟨6, 5⟩,
        ['1', '√', '2', '+', '3', '.', '4', '.', '5']⟩ := by
    decide +kernel
  obtain ⟨-, before, slice, after, hlabels, hslice⟩ := calculate_fault_labels hfails
  have habout : slice = ['3', '.', '4', '.', '5'] := hlabels.isAbout
  rw [habout] at hslice
  exact ⟨hfails, hslice⟩

end Calculator

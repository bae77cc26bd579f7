import Calculator.Proofs.Substitution
import Calculator.Proofs.Waiting

/-!
# The words of a postfix form

The words of a text are what stands between its blank characters.  A token is written with
at least one character and no blank one, and it is read back from its literal.  So the words
of a printed postfix form are the literals of its tokens, and the printed form says all that
a run depends on.
-/

namespace Calculator

namespace Text

/-- What stands between blank characters, where that is anything. -/
def words (text : Text) : List Text :=
  (text.splitOnP isBlank).filter (· ≠ [])

/-- Some characters, none of them blank. -/
def IsWord (text : Text) : Prop :=
  text ≠ [] ∧ ∀ character ∈ text, isBlank character = false

instance (text : Text) : Decidable text.IsWord :=
  haveI : Decidable (∀ character ∈ text, isBlank character = false) :=
    List.decidableBAll _ text
  inferInstanceAs (Decidable (_ ∧ _))

theorem join_cons_cons (separator first second : Text) (more : List Text) :
    join separator (first :: second :: more) =
      first ++ separator ++ join separator (second :: more) := rfl

@[simp]
theorem words_nil : words [] = [] := by
  simp [words]

theorem words_append_blank {blank : Char} (hblank : isBlank blank = true) (left right : Text) :
    words (left ++ blank :: right) = left.words ++ right.words := by
  rw [words, List.splitOnP_append_cons left right hblank, List.filter_append]
  rfl

theorem IsWord.words_eq {word : Text} (hword : word.IsWord) : word.words = [word] := by
  rw [words, List.splitOnP_eq_singleton hword.2]
  simp [hword.1]

/-- Words that are joined are found again. -/
theorem words_join {parts : List Text} (hparts : ∀ part ∈ parts, part.IsWord) :
    words (join [' '] parts) = parts := by
  induction parts with
  | nil => exact words_nil
  | cons first rest ih =>
      obtain ⟨hfirst, hrest⟩ := List.forall_mem_cons.1 hparts
      cases rest with
      | nil => exact hfirst.words_eq
      | cons second more =>
          have hspace : isBlank ' ' = true := by decide
          rw [join_cons_cons, List.append_assoc, List.singleton_append,
            words_append_blank hspace, hfirst.words_eq, ih hrest]
          rfl

theorem not_isBlank_of_isNumeral {character : Char}
    (hnumeral : Cursor.isNumeral character = true) : isBlank character = false :=
  not_isBlank_of_isAllowed (isAllowed_iff.2 (Or.inl hnumeral))

theorem IsRun.isWord {run : Text} (hrun : run.IsRun) : run.IsWord :=
  ⟨hrun.1, fun character hmem => not_isBlank_of_isNumeral (hrun.2 character hmem)⟩

theorem isWord_of_ofChar? {character : Char} {kind : Token.Kind}
    (hkind : Token.Kind.ofChar? character = some kind) : IsWord [character] := by
  refine ⟨List.cons_ne_nil _ _, List.forall_mem_singleton.2 ?_⟩
  apply not_isBlank_of_isAllowed
  rw [isAllowed_iff, hkind]
  exact Or.inr rfl

end Text

namespace Token

theorem IsSpelled.isWord {token : Token} (hspelled : token.IsSpelled) : token.literal.IsWord := by
  by_cases hnumber : token.kind = .number
  · exact (hspelled.isRun hnumber).isWord
  · obtain ⟨character, hliteral, hkind⟩ := hspelled.exists_symbol hnumber
    rw [hliteral]
    exact Text.isWord_of_ofChar? hkind

/-- A token is read back from its literal. -/
theorem IsSpelled.items_literal {token : Token} (hspelled : token.IsSpelled) :
    Cursor.items ⟨token.offset, token.literal⟩ = [.token token] := by
  have hitems : Cursor.items ⟨token.offset, token.literal ++ []⟩ =
      .token token :: Cursor.items ⟨token.finish, []⟩ :=
    hspelled.items_append fun _ => Text.breaksRun_nil
  rwa [List.append_nil, Cursor.items_nil] at hitems

/-- Tokens that are written alike are of one kind. -/
theorem IsSpelled.alike {first second : Token} (hfirst : first.IsSpelled)
    (hsecond : second.IsSpelled) (hliteral : first.literal = second.literal) :
    first.Alike second := by
  have hitems := Cursor.forall₂_alike_items first.offset second.offset first.literal
  rw [hfirst.items_literal, hliteral, hsecond.items_literal] at hitems
  exact (List.forall₂_cons.1 hitems).1

theorem forall₂_alike_of_literals {first second : List Token}
    (hfirst : ∀ token ∈ first, token.IsSpelled) (hsecond : ∀ token ∈ second, token.IsSpelled)
    (hliterals : first.map literal = second.map literal) :
    List.Forall₂ Alike first second := by
  induction first generalizing second with
  | nil =>
      rw [List.map_nil, eq_comm, List.map_eq_nil_iff] at hliterals
      rw [hliterals]
      exact .nil
  | cons token first ih =>
      obtain ⟨token', second, rfl, hliteral, hrest⟩ :=
        List.map_eq_cons_iff.1 hliterals.symm
      obtain ⟨htoken, hfirst⟩ := List.forall_mem_cons.1 hfirst
      obtain ⟨htoken', hsecond⟩ := List.forall_mem_cons.1 hsecond
      exact .cons (htoken.alike htoken' hliteral.symm) (ih hfirst hsecond hrest.symm)

end Token

theorem Cursor.isSpelled_of_mem_tokens {text : Text} :
    ∀ token ∈ (start text).tokens, token.IsSpelled := by
  intro token hmem
  obtain ⟨before, after, hstands⟩ := exists_standsBetween_start hmem
  exact hstands.isSpelled

namespace Rpn

/-- The tokens of a postfix form are spelled as those of the text that was converted. -/
theorem isSpelled_of_mem {source : Text} {rpn : Rpn} (hconverts : ofText source = .ok rpn) :
    ∀ token ∈ rpn.tokens, token.IsSpelled := by
  intro token hmem
  obtain ⟨-, -, -, -, htokens⟩ := exists_tracks_of_ofText hconverts
  exact Cursor.isSpelled_of_mem_tokens token (htokens token hmem).1

/-- The literals of a postfix form are found again in its printed form. -/
theorem words_toText {source : Text} {rpn : Rpn} (hconverts : ofText source = .ok rpn) :
    rpn.toText.words = rpn.tokens.map Token.literal := by
  apply Text.words_join
  rw [List.forall_mem_map]
  exact fun token hmem => (isSpelled_of_mem hconverts token hmem).isWord

/-- Sequences of like tokens run alike. -/
theorem agree_evaluate {first second : Rpn}
    (halike : List.Forall₂ Token.Alike first.tokens second.tokens) :
    Agree (· = ·) first.evaluate second.evaluate := by
  refine (agree_foldlM first.source second.source halike []).bind ?_
  rintro stack _ rfl
  exact agree_result first.source second.source stack

end Rpn

/-- Two texts whose postfix forms print alike have the same kinds and literals in the same
order, and the runs of the two forms end alike: with the same value, or with faults of one
cause. -/
theorem agree_of_toText_eq {left right : Text} {first second : Rpn}
    (hleft : Rpn.ofText left = .ok first) (hright : Rpn.ofText right = .ok second)
    (hprinted : first.toText = second.toText) :
    List.Forall₂ Token.Alike first.tokens second.tokens ∧
      Agree (· = ·) first.evaluate second.evaluate := by
  have hliterals : first.tokens.map Token.literal = second.tokens.map Token.literal := by
    rw [← Rpn.words_toText hleft, hprinted, Rpn.words_toText hright]
  have halike := Token.forall₂_alike_of_literals (Rpn.isSpelled_of_mem hleft)
    (Rpn.isSpelled_of_mem hright) hliterals
  exact ⟨halike, Rpn.agree_evaluate halike⟩

/-- Two roots behind a quotient, with few parentheses and with many: both runs miss a value for
the first root. -/
theorem agree_of_toText_eq_roots :
    ∃ first second : Rpn,
      Rpn.ofText ['(', '7', '/', '2', ')', '√', '√'] = .ok first ∧
        Rpn.ofText ['(', '(', '7', '/', '(', '2', ')', ')', '√', ')', '√'] = .ok second ∧
        first.toText = second.toText ∧ List.Forall₂ Token.Alike first.tokens second.tokens ∧
        ∃ fault, second.evaluate = .error fault ∧ fault.cause = .missingOperands ['√'] := by
  have hleft : Rpn.ofText ['(', '7', '/', '2', ')', '√', '√'] =
      .ok ⟨['(', '7', '/', '2', ')', '√', '√'],
        [⟨.number, ['7'], 1⟩, ⟨.number, ['2'], 3⟩, ⟨.operator .slash, ['/'], 2⟩,
          ⟨.operator .root, ['√'], 5⟩, ⟨.operator .root, ['√'], 8⟩]⟩ := by
    decide +kernel
  have hright : Rpn.ofText ['(', '(', '7', '/', '(', '2', ')', ')', '√', ')', '√'] =
      .ok ⟨['(', '(', '7', '/', '(', '2', ')', ')', '√', ')', '√'],
        [⟨.number, ['7'], 2⟩, ⟨.number, ['2'], 5⟩, ⟨.operator .slash, ['/'], 3⟩,
          ⟨.operator .root, ['√'], 8⟩, ⟨.operator .root, ['√'], 12⟩]⟩ := by
    decide +kernel
  have hfault : Rpn.evaluate ⟨['(', '7', '/', '2', ')', '√', '√'],
      [⟨.number, ['7'], 1⟩, ⟨.number, ['2'], 3⟩, ⟨.operator .slash, ['/'], 2⟩,
        ⟨.operator .root, ['√'], 5⟩, ⟨.operator .root, ['√'], 8⟩]⟩ =
      .error ⟨.missingOperands ['√'], ⟨5, 3⟩, ['(', '7', '/', '2', ')', '√', '√']⟩ := by
    decide +kernel
  obtain ⟨halike, hagree⟩ := agree_of_toText_eq hleft hright rfl
  rw [hfault] at hagree
  obtain ⟨fault, hevaluate, hcause⟩ := hagree.exists_error
  exact ⟨_, _, hleft, hright, rfl, halike, fault, hevaluate, hcause.symm⟩

end Calculator

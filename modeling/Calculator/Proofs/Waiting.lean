import Mathlib.Data.List.Chain
import Calculator.Proofs.Yard

/-!
# What waits in the yard

What waits are tokens that were read, the newest first: the opening parentheses of the
groups that are open, and operators.  Within one group every operator binds more
tightly than the one that waits below it.  Each move of the yard keeps this, so it
holds behind any text that is read.  A move puts a number or an operator in between
what will leave before it and what will leave behind it, and changes no order.
-/

namespace Calculator

namespace Token

def isLeftParen (token : Token) : Bool :=
  token.kind == .leftParen

theorem isLeftParen_iff {token : Token} : token.isLeftParen = true ↔ token.kind = .leftParen :=
  beq_iff_eq

/-- The open groups behind one more token. -/
def nest (groups : List Token) (token : Token) : List Token :=
  match token.kind with
  | .leftParen => token :: groups
  | .rightParen => groups.tail
  | _ => groups

/-- The opening parentheses of the groups that are open behind these tokens, the
innermost first. -/
def openings (read : List Token) : List Token :=
  read.foldl nest []

theorem openings_concat (read : List Token) (token : Token) :
    openings (read ++ [token]) = nest (openings read) token := by
  simp [openings]

/-- Where an operator waits below, only an opening parenthesis or an operator that
binds more tightly waits above it. -/
def Outranks (upper lower : Token) : Prop :=
  ∀ applied, lower.kind = .operator applied →
    upper.isLeftParen = true ∨ upper.BindsAtLeast (applied.precedence + 1)

theorem BindsAtLeast.isLeftParen_eq_false {level : Nat} {token : Token}
    (hbinds : token.BindsAtLeast level) : token.isLeftParen = false := by
  obtain ⟨applied, hkind, -⟩ := hbinds
  simp [isLeftParen, hkind]

end Token

theorem filter_isLeftParen_of_binds {level : Nat} {tokens : List Token}
    (hbinds : ∀ token ∈ tokens, token.BindsAtLeast level) :
    tokens.filter Token.isLeftParen = [] := by
  rw [List.filter_eq_nil_iff]
  intro token hmem
  rw [(hbinds token hmem).isLeftParen_eq_false]
  exact Bool.noConfusion

namespace Yard

/-- The yard is one that can be reached by reading these tokens. -/
structure Tracks (yard : Yard) (read : List Token) : Prop where
  sublist : yard.pending.Sublist read.reverse
  openings_eq : yard.pending.filter Token.isLeftParen = Token.openings read
  ranked : yard.pending.IsChain Token.Outranks
  waits : ∀ token ∈ yard.pending, token.isLeftParen = true ∨
    ∃ applied, token.kind = .operator applied
  settled : ∀ token ∈ yard.emitted, token ∈ read ∧ token.isParen = false

theorem tracks_empty : empty.Tracks [] where
  sublist := List.Sublist.refl _
  openings_eq := rfl
  ranked := List.isChain_nil
  waits := by simp [empty]
  settled := by simp [empty]

theorem Tracks.mem_of_mem_pending {yard : Yard} {read : List Token} {token : Token}
    (htracks : yard.Tracks read) (hmem : token ∈ yard.pending) : token ∈ read :=
  List.mem_reverse.1 (htracks.sublist.subset hmem)

/-- What leaves was read and is no parenthesis. -/
theorem Tracks.settled_append {yard : Yard} {read leaving staying : List Token} {token : Token}
    (htracks : yard.Tracks read) (hpending : yard.pending = leaving ++ staying)
    (hleaving : ∀ waiting ∈ leaving, waiting.kind ≠ .leftParen) :
    ∀ settled ∈ leaving.reverse ++ yard.emitted,
      settled ∈ read ++ [token] ∧ settled.isParen = false := by
  intro settled hmem
  rcases List.mem_append.1 hmem with hmem | hmem
  · rw [List.mem_reverse] at hmem
    have hwaiting : settled ∈ yard.pending := by simp [hpending, hmem]
    refine ⟨List.mem_append_left _ (htracks.mem_of_mem_pending hwaiting), ?_⟩
    rcases htracks.waits settled hwaiting with hleft | ⟨applied, hkind⟩
    · exact absurd (beq_iff_eq.1 hleft) (hleaving settled hmem)
    · simp [Token.isParen, hkind]
  · obtain ⟨hread, hparen⟩ := htracks.settled settled hmem
    exact ⟨List.mem_append_left _ hread, hparen⟩

theorem Tracks.operator {yard : Yard} {read leaving staying : List Token} {token : Token}
    {applied : Operator} (htracks : yard.Tracks read) (hkind : token.kind = .operator applied)
    (hpending : yard.pending = leaving ++ staying)
    (hleaving : ∀ waiting ∈ leaving, waiting.BindsAtLeast applied.precedence)
    (hstaying : ∀ waiting ∈ staying.head?, ¬waiting.BindsAtLeast applied.precedence) :
    Tracks ⟨leaving.reverse ++ yard.emitted, token :: staying⟩ (read ++ [token]) where
  sublist := by
    have hsuffix : staying.Sublist yard.pending := by
      rw [hpending]
      exact List.sublist_append_right _ _
    rw [List.reverse_append]
    exact (hsuffix.trans htracks.sublist).cons_cons _
  openings_eq := by
    have hfilter := htracks.openings_eq
    rw [hpending, List.filter_append, filter_isLeftParen_of_binds hleaving,
      List.nil_append] at hfilter
    rw [Token.openings_concat, ← hfilter]
    simp [Token.nest, Token.isLeftParen, hkind]
  ranked := by
    have hranked := htracks.ranked
    rw [hpending] at hranked
    refine List.isChain_cons.2 ⟨fun waiting hhead lower hlower => ?_, hranked.right_of_append⟩
    -- What stays did not have to leave, so it binds less tightly.
    have hbinds : ¬applied.precedence ≤ lower.precedence := fun hle =>
      hstaying waiting hhead ⟨lower, hlower, hle⟩
    exact Or.inr ⟨applied, hkind, by omega⟩
  waits := by
    rw [List.forall_mem_cons]
    refine ⟨Or.inr ⟨applied, hkind⟩, fun waiting hmem => htracks.waits waiting ?_⟩
    simp [hpending, hmem]
  settled := by
    apply htracks.settled_append hpending
    intro waiting hmem hleft
    obtain ⟨other, hother, -⟩ := hleaving waiting hmem
    rw [hleft] at hother
    cases hother

theorem Tracks.rightParen {yard : Yard} {read leaving staying : List Token}
    {token partner : Token} (htracks : yard.Tracks read) (hkind : token.kind = .rightParen)
    (hpending : yard.pending = leaving ++ partner :: staying)
    (hleaving : ∀ waiting ∈ leaving, waiting.kind ≠ .leftParen)
    (hpartner : partner.kind = .leftParen) :
    Tracks ⟨leaving.reverse ++ yard.emitted, staying⟩ (read ++ [token]) where
  sublist := by
    have hsuffix : staying.Sublist yard.pending := by
      rw [hpending]
      exact (List.sublist_cons_self _ _).trans (List.sublist_append_right _ _)
    rw [List.reverse_append]
    exact (hsuffix.trans htracks.sublist).cons _
  openings_eq := by
    have hnone : leaving.filter Token.isLeftParen = [] := by
      rw [List.filter_eq_nil_iff]
      intro waiting hmem
      simpa [Token.isLeftParen] using hleaving waiting hmem
    have hleft : partner.isLeftParen = true := by simp [Token.isLeftParen, hpartner]
    have hfilter := htracks.openings_eq
    rw [hpending, List.filter_append, hnone, List.nil_append,
      List.filter_cons_of_pos hleft] at hfilter
    rw [Token.openings_concat, ← hfilter]
    simp [Token.nest, hkind]
  ranked := by
    have hranked := htracks.ranked
    rw [hpending] at hranked
    exact hranked.right_of_append.tail
  waits := by
    intro waiting hmem
    apply htracks.waits waiting
    simp [hpending, hmem]
  settled := htracks.settled_append hpending hleaving

theorem Tracks.moves {yard next : Yard} {read : List Token} {token : Token}
    (htracks : yard.Tracks read) (hmoves : yard.Moves token next) :
    next.Tracks (read ++ [token]) := by
  have hread : yard.pending.Sublist (read ++ [token]).reverse := by
    rw [List.reverse_append]
    exact htracks.sublist.cons _
  cases hmoves with
  | number hkind =>
      refine ⟨hread, ?_, htracks.ranked, htracks.waits, ?_⟩
      · rw [Token.openings_concat, ← htracks.openings_eq]
        simp [Token.nest, hkind]
      · rw [List.forall_mem_cons]
        refine ⟨⟨by simp, by simp [Token.isParen, hkind]⟩, fun settled hmem => ?_⟩
        obtain ⟨hsettled, hparen⟩ := htracks.settled settled hmem
        exact ⟨List.mem_append_left _ hsettled, hparen⟩
  | operator hkind hpending hleaving hstaying =>
      exact htracks.operator hkind hpending hleaving hstaying
  | leftParen hkind =>
      have hleft : token.isLeftParen = true := by simp [Token.isLeftParen, hkind]
      refine ⟨?_, ?_, ?_, ?_, fun settled hmem => ?_⟩
      · rw [List.reverse_append]
        exact htracks.sublist.cons_cons _
      · rw [Token.openings_concat, ← htracks.openings_eq, List.filter_cons_of_pos hleft]
        simp [Token.nest, hkind]
      · exact List.isChain_cons.2 ⟨fun _ _ _ _ => Or.inl hleft, htracks.ranked⟩
      · exact List.forall_mem_cons.2 ⟨Or.inl hleft, htracks.waits⟩
      · obtain ⟨hsettled, hparen⟩ := htracks.settled settled hmem
        exact ⟨List.mem_append_left _ hsettled, hparen⟩
  | rightParen hkind hpending hleaving hpartner =>
      exact htracks.rightParen hkind hpending hleaving hpartner

theorem Tracks.foldlM {source : Text} {tokens read : List Token} {yard final : Yard}
    (htracks : yard.Tracks read) (hrun : tokens.foldlM (step source) yard = .ok final) :
    final.Tracks (read ++ tokens) := by
  induction tokens generalizing yard read with
  | nil =>
      cases hrun
      rwa [List.append_nil]
  | cons token tokens ih =>
      obtain ⟨next, hstep, hrest⟩ := foldlM_cons_eq_ok_iff.1 hrun
      have hfinal := ih (htracks.moves (moves_of_step hstep)) hrest
      rwa [List.append_assoc] at hfinal

theorem tracks_of_run {source : Text} {yard : Yard}
    (hrun : empty.run source (Cursor.start source) = .ok yard) :
    yard.Tracks (Cursor.start source).tokens :=
  tracks_empty.foldlM (foldlM_tokens_of_run hrun)

/-- The order in which the tokens of a yard leave it. -/
def output (yard : Yard) : List Token :=
  yard.emitted.reverse ++ yard.pending

/-- A number or an operator takes its place between the tokens that leave before it and
those that leave behind it. -/
theorem Moves.exists_insert {yard next : Yard} {token : Token} (hmoves : yard.Moves token next)
    (hparen : token.isParen = false) :
    ∃ gone staying, yard.output = gone ++ staying ∧ next.output = gone ++ token :: staying ∧
      (next.pending = staying ∨ next.pending = token :: staying) := by
  cases hmoves with
  | number => exact ⟨yard.emitted.reverse, yard.pending, rfl, by simp [output], Or.inl rfl⟩
  | @operator applied leaving staying _ hpending =>
      exact ⟨yard.emitted.reverse ++ leaving, staying, by simp [output, hpending],
        by simp [output], Or.inr rfl⟩
  | leftParen hkind => simp [Token.isParen, hkind] at hparen
  | rightParen hkind => simp [Token.isParen, hkind] at hparen

/-- No move changes the order in which numbers and operators leave. -/
theorem Moves.sublist_output {yard next : Yard} {token : Token} (hmoves : yard.Moves token next) :
    (withoutParens yard.output).Sublist (withoutParens next.output) := by
  cases hmoves with
  | number =>
      apply List.Sublist.filter
      simp [output]
  | @operator applied leaving staying _ hpending =>
      apply List.Sublist.filter
      simp [output, hpending]
  | leftParen =>
      apply List.Sublist.filter
      simp [output]
  | @rightParen leaving staying partner _ hpending _ hpartner =>
      have hparen : partner.isParen = true := by simp [Token.isParen, hpartner]
      simp [output, hpending, withoutParens, hparen]

theorem sublist_output_of_foldlM {source : Text} {tokens : List Token} {yard final : Yard}
    (hrun : tokens.foldlM (step source) yard = .ok final) :
    (withoutParens yard.output).Sublist (withoutParens final.output) := by
  refine foldlM_induction (motive := fun yard _ final =>
    (withoutParens yard.output).Sublist (withoutParens final.output)) ?_ ?_ hrun
  · intro yard
    exact List.Sublist.refl _
  · intro yard next final token tokens hstep ih
    exact (moves_of_step hstep).sublist_output.trans ih

end Yard

namespace Rpn

/-- The postfix form is the output of a yard that has read the whole text, in which no
parenthesis is left. -/
theorem exists_tracks_of_ofText {source : Text} {rpn : Rpn} (hconverts : ofText source = .ok rpn) :
    ∃ yard, (Cursor.start source).tokens.foldlM (Yard.step source) Yard.empty = .ok yard ∧
      yard.Tracks (Cursor.start source).tokens ∧ rpn.tokens = yard.output ∧
      ∀ token ∈ rpn.tokens, token ∈ (Cursor.start source).tokens ∧ token.isParen = false := by
  obtain ⟨yard, hrun, hpending, rfl⟩ := ofText_eq_ok_iff.1 hconverts
  have htracks := Yard.tracks_of_run hrun
  refine ⟨yard, Yard.foldlM_tokens_of_run hrun, htracks, rfl, fun token hmem => ?_⟩
  rcases List.mem_append.1 hmem with hmem | hmem
  · exact htracks.settled token (List.mem_reverse.1 hmem)
  · exact ⟨htracks.mem_of_mem_pending hmem, hpending token hmem⟩

end Rpn

end Calculator

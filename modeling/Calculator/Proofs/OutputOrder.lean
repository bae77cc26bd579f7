import Mathlib.Data.List.Nodup
import Calculator.Proofs.Places
import Calculator.Proofs.Waiting

/-!
# The order of a postfix form

A number is emitted when it is read.  An operator waits until its group is closed or an
operator of its group comes that does not bind more tightly, and until then everything
read behind it is emitted before it.  This fixes the order of every two tokens, for all
texts that convert, whether or not they have a value.
-/

namespace Calculator

section Lists

variable {α : Type} {first second : α}

/-- A list divided in two places: one value stands before or behind the other cut. -/
theorem append_eq_append_cons_cases {front back above below : List α}
    (heq : front ++ back = above ++ first :: below) :
    (∃ between, above = front ++ between ∧ back = between ++ first :: below) ∨
      ∃ between, front = above ++ first :: between ∧ below = between ++ back := by
  rcases List.append_eq_append_iff.1 heq with ⟨between, habove, hback⟩ | ⟨between, hfront, hback⟩
  · exact Or.inl ⟨between, habove, hback⟩
  · cases between with
    | nil => exact Or.inl ⟨[], by simpa using hfront.symm, by simpa using hback.symm⟩
    | cons value between =>
        obtain ⟨rfl, hbelow⟩ := List.cons.inj hback
        exact Or.inr ⟨between, hfront, hbelow⟩

theorem not_mem_of_nodup_middle {front back : List α}
    (hnodup : (front ++ first :: back).Nodup) : first ∉ back := fun hmem =>
  (List.nodup_cons.1 (List.nodup_middle.1 hnodup)).1 (List.mem_append_right _ hmem)

/-- Two values of a list without repetition have one order. -/
theorem not_pair_sublist_swap {list : List α} (hnodup : list.Nodup)
    (hpair : [first, second].Sublist list) : ¬[second, first].Sublist list := by
  intro hswap
  induction list with
  | nil => cases hpair
  | cons head list ih =>
      obtain ⟨hhead, htail⟩ := List.nodup_cons.1 hnodup
      cases hpair with
      | cons _ hpair =>
          cases hswap with
          | cons _ hswap => exact ih htail hpair hswap
          | cons_cons => exact hhead (hpair.subset (by simp))
      | cons_cons =>
          have hmem : first ∈ list := by
            cases hswap with
            | cons _ hswap => exact hswap.subset (by simp)
            | cons_cons _ hfirst => exact hfirst.subset (by simp)
          exact hhead hmem

end Lists

namespace Token

/-- The opening parenthesis of the innermost group that is open behind these tokens. -/
def innermost? (read : List Token) : Option Token :=
  (openings read).head?

/-- In its own group, the token makes a waiting operator leave: it closes the group, or
it is an operator that does not bind more tightly. -/
def Releases (token : Token) (waiting : Operator) : Prop :=
  token.kind = .rightParen ∨
    ∃ applied, token.kind = .operator applied ∧ applied.precedence ≤ waiting.precedence

/-- Behind `front` and an operator there is a token that makes it leave, and no group
lies open between the two. -/
def IsReleased (front : List Token) (first : Token) (waiting : Operator)
    (behind : List Token) : Prop :=
  ∃ middle token rest, behind = middle ++ token :: rest ∧
    innermost? (front ++ first :: middle) = innermost? front ∧ token.Releases waiting

end Token

namespace Yard

/-- An operator read between `front` and `inner` waits, with these tokens above it and
below it; the groups that are open below it are those in which it stands. -/
structure Waits (yard : Yard) (front : List Token) (first : Token) (waiting : Operator)
    (inner above below : List Token) : Prop where
  tracks : yard.Tracks (front ++ first :: inner)
  nodup : (front ++ first :: inner).Nodup
  kind_eq : first.kind = .operator waiting
  pending_eq : yard.pending = above ++ first :: below
  openings_below : below.filter Token.isLeftParen = Token.openings front

section Waits

variable {yard next : Yard} {front inner above below : List Token} {first token : Token}
  {waiting : Operator}

theorem Waits.isLeftParen_first (hwaits : yard.Waits front first waiting inner above below) :
    first.isLeftParen = false := by
  simp [Token.isLeftParen, hwaits.kind_eq]

theorem Waits.nodup_pending (hwaits : yard.Waits front first waiting inner above below) :
    (above ++ first :: below).Nodup := by
  rw [← hwaits.pending_eq]
  exact hwaits.tracks.sublist.nodup (List.nodup_reverse.2 hwaits.nodup)

theorem Waits.not_mem_below (hwaits : yard.Waits front first waiting inner above below) :
    first ∉ below :=
  not_mem_of_nodup_middle hwaits.nodup_pending

/-- The reader is in the operator's own group exactly if no opening parenthesis waits
above the operator. -/
theorem Waits.innermost?_eq_iff (hwaits : yard.Waits front first waiting inner above below) :
    Token.innermost? (front ++ first :: inner) = Token.innermost? front ↔
      ∀ token ∈ above, token.isLeftParen = false := by
  have hopenings : Token.openings (front ++ first :: inner) =
      above.filter Token.isLeftParen ++ Token.openings front := by
    rw [← hwaits.tracks.openings_eq, hwaits.pending_eq, ← hwaits.openings_below,
      List.filter_append, List.filter_cons, hwaits.isLeftParen_first]
    rfl
  rw [Token.innermost?, Token.innermost?, hopenings]
  constructor
  · intro hsame token hmem
    by_contra hleft
    have hopened : above.filter Token.isLeftParen ≠ [] := fun hnone =>
      List.filter_eq_nil_iff.1 hnone token hmem (by simpa using hleft)
    obtain ⟨newest, more, hfilter⟩ := List.exists_cons_of_ne_nil hopened
    rw [hfilter, ← hwaits.openings_below] at hsame
    -- The newest group would have been open already in front of the operator.
    have hbelow : newest ∈ below :=
      (List.mem_filter.1 (List.mem_of_mem_head? hsame.symm)).1
    have habove : newest ∈ above :=
      (List.mem_filter.1 (by rw [hfilter]; exact List.mem_cons_self)).1
    have hdisjoint := (List.nodup_append.1 hwaits.nodup_pending).2.2
    exact hdisjoint newest habove newest (List.mem_cons_of_mem _ hbelow) rfl
  · intro hnone
    have hempty : above.filter Token.isLeftParen = [] := by
      rw [List.filter_eq_nil_iff]
      intro token hmem
      rw [hnone token hmem]
      exact Bool.noConfusion
    rw [hempty, List.nil_append]

/-- In the operator's own group, everything above it is an operator that binds more
tightly. -/
theorem bindsAtLeast_of_isChain {upper lower : List Token}
    (hranked : (upper ++ first :: lower).IsChain Token.Outranks)
    (hkind : first.kind = .operator waiting)
    (hnone : ∀ token ∈ upper, token.isLeftParen = false) :
    ∀ token ∈ upper ++ [first], token.BindsAtLeast waiting.precedence := by
  induction upper with
  | nil =>
      intro token hmem
      rw [List.nil_append, List.mem_singleton] at hmem
      exact ⟨waiting, hmem ▸ hkind, le_refl _⟩
  | cons top upper ih =>
      rw [List.cons_append, List.isChain_cons] at hranked
      have hbinds := ih hranked.2 fun token hmem => hnone token (List.mem_cons_of_mem _ hmem)
      rw [List.cons_append, List.forall_mem_cons]
      refine ⟨?_, hbinds⟩
      obtain ⟨next, hnext, hhead⟩ : ∃ next, next ∈ upper ++ [first] ∧
          next ∈ (upper ++ first :: lower).head? := by
        cases upper with
        | nil => exact ⟨first, by simp, by simp⟩
        | cons next upper => exact ⟨next, by simp, by simp⟩
      obtain ⟨applied, happlied, hle⟩ := hbinds next hnext
      have hleft := hnone top List.mem_cons_self
      obtain hparen | htop := hranked.1 next hhead applied happlied
      · rw [hleft] at hparen
        cases hparen
      · exact htop.mono (by omega)

/-- An operator in the yard leaves exactly when one of its group comes that does not
bind more tightly. -/
theorem Waits.releases_of_leaving (hwaits : yard.Waits front first waiting inner above below)
    {applied : Operator} {leaving staying : List Token}
    (hpending : yard.pending = leaving ++ staying)
    (hleaving : ∀ token ∈ leaving, token.BindsAtLeast applied.precedence)
    (hstaying : ∀ token ∈ staying.head?, ¬token.BindsAtLeast applied.precedence) :
    (∃ between, staying = between ++ first :: below ∧
        ¬(Token.innermost? (front ++ first :: inner) = Token.innermost? front ∧
          applied.precedence ≤ waiting.precedence)) ∨
      (∃ between, below = between ++ staying) ∧
        Token.innermost? (front ++ first :: inner) = Token.innermost? front ∧
        applied.precedence ≤ waiting.precedence := by
  rw [hwaits.innermost?_eq_iff]
  have hsplit := hpending.symm.trans hwaits.pending_eq
  rcases append_eq_append_cons_cases hsplit with
    ⟨between, habove, rfl⟩ | ⟨between, rfl, hbelow⟩
  · refine Or.inl ⟨between, rfl, ?_⟩
    rintro ⟨hnone, hle⟩
    have hranked := hwaits.tracks.ranked
    rw [hwaits.pending_eq] at hranked
    have hbinds := bindsAtLeast_of_isChain hranked hwaits.kind_eq hnone
    cases between with
    | nil => exact hstaying first rfl ((hbinds first (by simp)).mono hle)
    | cons top between => exact hstaying top rfl ((hbinds top (by simp [habove])).mono hle)
  · refine Or.inr ⟨⟨between, hbelow⟩, fun token hmem => ?_, ?_⟩
    · exact (hleaving token (by simp [hmem])).isLeftParen_eq_false
    · obtain ⟨other, hother, hle⟩ := hleaving first (by simp)
      rw [hwaits.kind_eq] at hother
      cases hother
      exact hle

/-- A closing parenthesis makes an operator leave exactly if it closes the operator's
own group. -/
theorem Waits.innermost?_eq_of_leaving
    (hwaits : yard.Waits front first waiting inner above below)
    {leaving staying : List Token} {partner : Token}
    (hpending : yard.pending = leaving ++ partner :: staying)
    (hleaving : ∀ token ∈ leaving, token.kind ≠ .leftParen)
    (hpartner : partner.kind = .leftParen) :
    (∃ between, staying = between ++ first :: below ∧
        Token.innermost? (front ++ first :: inner) ≠ Token.innermost? front) ∨
      (∃ between, below = between ++ staying) ∧
        Token.innermost? (front ++ first :: inner) = Token.innermost? front := by
  rw [ne_eq, hwaits.innermost?_eq_iff]
  have hsplit := hpending.symm.trans hwaits.pending_eq
  rcases append_eq_append_cons_cases hsplit with
    ⟨between, habove, hstaying⟩ | ⟨between, rfl, hbelow⟩
  · cases between with
    | nil =>
        have hfirst := hwaits.kind_eq
        rw [← (List.cons.inj hstaying).1, hpartner] at hfirst
        cases hfirst
    | cons top between =>
        obtain ⟨rfl, hrest⟩ := List.cons.inj hstaying
        refine Or.inl ⟨between, hrest, fun hnone => ?_⟩
        have hleft := hnone partner (by simp [habove])
        simp [Token.isLeftParen, hpartner] at hleft
  · refine Or.inr ⟨⟨between ++ [partner], by simp [hbelow]⟩, fun token hmem => ?_⟩
    simpa [Token.isLeftParen] using hleaving token (by simp [hmem])

/-- One token read: the operator leaves if the token releases it in its own group, and
otherwise goes on waiting. -/
theorem Waits.moves (hwaits : yard.Waits front first waiting inner above below)
    (hmoves : yard.Moves token next)
    (hnodup : (front ++ first :: (inner ++ [token])).Nodup) :
    (¬(Token.innermost? (front ++ first :: inner) = Token.innermost? front ∧
        token.Releases waiting) ∧
        ∃ above', next.Waits front first waiting (inner ++ [token]) above' below) ∨
      (Token.innermost? (front ++ first :: inner) = Token.innermost? front ∧
        token.Releases waiting) ∧ first ∉ next.pending := by
  have htracks := hwaits.tracks.moves hmoves
  rw [List.append_assoc, List.cons_append] at htracks
  have hfresh : first ≠ token := by
    rintro rfl
    exact not_mem_of_nodup_middle hnodup (by simp)
  have hstays : ∀ above', next.pending = above' ++ first :: below →
      ∃ above', next.Waits front first waiting (inner ++ [token]) above' below :=
    fun above' hpending =>
      ⟨above', htracks, hnodup, hwaits.kind_eq, hpending, hwaits.openings_below⟩
  have hgone : ∀ staying : List Token, (∃ between, below = between ++ staying) →
      first ∉ staying := by
    rintro staying ⟨between, rfl⟩ hmem
    exact hwaits.not_mem_below (List.mem_append_right _ hmem)
  cases hmoves with
  | number hkind =>
      refine Or.inl ⟨?_, hstays above hwaits.pending_eq⟩
      simp [Token.Releases, hkind]
  | operator hkind hpending hleaving hstaying =>
      have hreleases : ∀ applied : Operator, token.kind = .operator applied →
          (token.Releases waiting ↔ applied.precedence ≤ waiting.precedence) := by
        intro applied happlied
        simp [Token.Releases, happlied]
      rw [hreleases _ hkind]
      rcases hwaits.releases_of_leaving hpending hleaving hstaying with
        ⟨between, rfl, hnot⟩ | ⟨hbelow, hreleased⟩
      · exact Or.inl ⟨hnot, hstays (token :: between) rfl⟩
      · refine Or.inr ⟨hreleased, fun hmem => ?_⟩
        exact (List.mem_cons.1 hmem).elim hfresh (hgone _ hbelow)
  | leftParen hkind =>
      refine Or.inl ⟨?_, hstays (token :: above) ?_⟩
      · simp [Token.Releases, hkind]
      · rw [List.cons_append, ← hwaits.pending_eq]
  | rightParen hkind hpending hleaving hpartner =>
      have hreleases : token.Releases waiting := Or.inl hkind
      rcases hwaits.innermost?_eq_of_leaving hpending hleaving hpartner with
        ⟨between, rfl, hnot⟩ | ⟨hbelow, hsame⟩
      · exact Or.inl ⟨fun hboth => hnot hboth.1, hstays between rfl⟩
      · exact Or.inr ⟨⟨hsame, hreleases⟩, hgone _ hbelow⟩

end Waits

theorem Moves.mem_pending {yard next : Yard} {token member : Token}
    (hmoves : yard.Moves token next) (hmem : member ∈ next.pending) :
    member = token ∨ member ∈ yard.pending := by
  cases hmoves with
  | number => exact Or.inr hmem
  | operator _ hpending =>
      refine (List.mem_cons.1 hmem).imp_right fun hmem => ?_
      simp [hpending, hmem]
  | leftParen => exact List.mem_cons.1 hmem
  | rightParen _ hpending =>
      right
      simp [hpending, hmem]

/-- What has left does not come back. -/
theorem not_mem_pending_of_foldlM {source : Text} {tokens : List Token} {yard final : Yard}
    {first : Token} (hrun : tokens.foldlM (step source) yard = .ok final)
    (hgone : first ∉ yard.pending) (hfresh : first ∉ tokens) : first ∉ final.pending := by
  induction tokens generalizing yard with
  | nil =>
      cases hrun
      exact hgone
  | cons token tokens ih =>
      obtain ⟨next, hstep, hrest⟩ := foldlM_cons_eq_ok_iff.1 hrun
      rw [List.mem_cons, not_or] at hfresh
      refine ih hrest (fun hmem => ?_) hfresh.2
      exact ((moves_of_step hstep).mem_pending hmem).elim hfresh.1 hgone

/-- A waiting operator has left at the end of a run exactly if it was released. -/
theorem Waits.not_mem_pending_iff {source : Text} {behind front inner above below : List Token}
    {yard final : Yard} {first : Token} {waiting : Operator}
    (hwaits : yard.Waits front first waiting inner above below)
    (hrun : behind.foldlM (step source) yard = .ok final)
    (hnodup : (front ++ first :: (inner ++ behind)).Nodup) :
    first ∉ final.pending ↔
      ∃ middle token rest, behind = middle ++ token :: rest ∧
        Token.innermost? (front ++ first :: (inner ++ middle)) = Token.innermost? front ∧
        token.Releases waiting := by
  induction behind generalizing yard inner above with
  | nil =>
      cases hrun
      simp [hwaits.pending_eq]
  | cons token behind ih =>
      obtain ⟨next, hstep, hrest⟩ := foldlM_cons_eq_ok_iff.1 hrun
      have hread : (front ++ first :: (inner ++ [token])).Nodup := hnodup.sublist (by simp)
      rcases hwaits.moves (moves_of_step hstep) hread with ⟨hnot, above', hnext⟩ | ⟨hboth, hgone⟩
      · -- The operator goes on waiting, so the token is none that releases it.
        rw [ih hnext hrest (by simpa using hnodup)]
        constructor
        · rintro ⟨middle, releasing, rest, rfl, hsame, hreleases⟩
          exact ⟨token :: middle, releasing, rest, rfl, by simpa using hsame, hreleases⟩
        · rintro ⟨middle, releasing, rest, heq, hsame, hreleases⟩
          cases middle with
          | nil =>
              obtain ⟨rfl, -⟩ := List.cons.inj heq
              exact absurd ⟨by simpa using hsame, hreleases⟩ hnot
          | cons head middle =>
              obtain ⟨rfl, hbehind⟩ := List.cons.inj heq
              exact ⟨middle, releasing, rest, hbehind, by simpa using hsame, hreleases⟩
      · have hfresh : first ∉ behind := fun hmem =>
          not_mem_of_nodup_middle hnodup (by simp [hmem])
        refine iff_of_true (not_mem_pending_of_foldlM hrest hgone hfresh) ?_
        exact ⟨[], token, behind, rfl, by simpa using hboth.1, hboth.2⟩

/-- An operator waits on top when it has been read. -/
theorem Tracks.exists_waits {yard next : Yard} {front : List Token} {first : Token}
    {waiting : Operator} (htracks : yard.Tracks front) (hmoves : yard.Moves first next)
    (hkind : first.kind = .operator waiting) (hnodup : (front ++ [first]).Nodup) :
    ∃ below, next.Waits front first waiting [] [] below := by
  have hnext := htracks.moves hmoves
  cases hmoves with
  | number hother => simp [hkind] at hother
  | @operator applied leaving staying hother hpending hleaving =>
      have hopenings := htracks.openings_eq
      rw [hpending, List.filter_append, filter_isLeftParen_of_binds hleaving,
        List.nil_append] at hopenings
      exact ⟨staying, hnext, hnodup, hkind, rfl, hopenings⟩
  | leftParen hother => simp [hkind] at hother
  | rightParen hother => simp [hkind] at hother

/-- A number never waits, and an operator has left at the end of a run exactly if it was
released. -/
theorem Tracks.not_mem_pending_iff {source : Text} {front behind : List Token}
    {yard next final : Yard} {first : Token} (htracks : yard.Tracks front)
    (hmoves : yard.Moves first next) (hrun : behind.foldlM (step source) next = .ok final)
    (hnodup : (front ++ first :: behind).Nodup) (hparen : first.isParen = false) :
    first ∉ final.pending ↔
      first.kind = .number ∨ ∃ waiting, first.kind = .operator waiting ∧
        Token.IsReleased front first waiting behind := by
  have hread : (front ++ [first]).Nodup := hnodup.sublist (by simp)
  cases hkind : first.kind with
  | number =>
      have hfinal := (htracks.moves hmoves).foldlM hrun
      refine iff_of_true (fun hmem => ?_) (Or.inl rfl)
      rcases hfinal.waits first hmem with hleft | ⟨applied, happlied⟩
      · simp [Token.isLeftParen, hkind] at hleft
      · simp [hkind] at happlied
  | operator waiting =>
      obtain ⟨below, hwaits⟩ := htracks.exists_waits hmoves hkind hread
      rw [hwaits.not_mem_pending_iff hrun hnodup]
      simp [Token.IsReleased]
  | leftParen => simp [Token.isParen, hkind] at hparen
  | rightParen => simp [Token.isParen, hkind] at hparen

/-- A number or an operator is held from when it is read. -/
theorem Moves.mem_output {source : Text} {rest : List Token} {yard next final : Yard}
    {token : Token} (hmoves : yard.Moves token next) (hparen : token.isParen = false)
    (hrun : rest.foldlM (step source) next = .ok final) : token ∈ final.output := by
  obtain ⟨gone, staying, -, hnext, -⟩ := hmoves.exists_insert hparen
  have hmem : token ∈ withoutParens next.output := by
    simp [withoutParens, hnext, hparen]
  exact (List.mem_filter.1 ((sublist_output_of_foldlM hrun).subset hmem)).1

/-- When a token is read, its place among the others is settled: behind those that have
left by then, in front of those that wait. -/
theorem pair_sublist_output_iff {source : Text} {rest : List Token} {yard next final : Yard}
    {first second : Token} (hmoves : yard.Moves second next)
    (hrun : rest.foldlM (step source) next = .ok final) (hfirst : first ∈ yard.output)
    (hne : first ≠ second) (hfirstParen : first.isParen = false)
    (hsecondParen : second.isParen = false) (hnodup : (withoutParens final.output).Nodup) :
    [first, second].Sublist (withoutParens final.output) ↔ first ∉ next.pending := by
  obtain ⟨gone, staying, hbefore, hafter, hpending⟩ := hmoves.exists_insert hsecondParen
  have hkept : ∀ pair : List Token, (∀ token ∈ pair, token.isParen = false) →
      pair.Sublist next.output → pair.Sublist (withoutParens final.output) := by
    intro pair hparens hpair
    rw [← withoutParens_eq_self hparens]
    exact (hpair.filter _).trans (sublist_output_of_foldlM hrun)
  have hwaits : first ∈ next.pending ↔ first ∈ staying := by
    rcases hpending with hpending | hpending
    · rw [hpending]
    · rw [hpending, List.mem_cons, or_iff_right hne]
  rw [hbefore, List.mem_append] at hfirst
  constructor
  · intro hpair hmem
    refine not_pair_sublist_swap hnodup hpair (hkept _ (by simp [hfirstParen, hsecondParen]) ?_)
    rw [hafter]
    have hstaying : [first].Sublist staying := List.singleton_sublist.2 (hwaits.1 hmem)
    exact (hstaying.cons_cons second).trans (List.sublist_append_right _ _)
  · intro hleft
    refine hkept _ (by simp [hfirstParen, hsecondParen]) ?_
    rw [hafter]
    have hgone : [first].Sublist gone :=
      List.singleton_sublist.2 (hfirst.resolve_right fun hmem => hleft (hwaits.2 hmem))
    exact hgone.append (List.singleton_sublist.2 List.mem_cons_self)

end Yard

namespace Rpn

/-- The postfix form has the numbers and operators of the text, once each. -/
theorem perm_tokens_of_ofText {source : Text} {rpn : Rpn} (hconverts : ofText source = .ok rpn) :
    rpn.tokens.Perm (withoutParens (Cursor.start source).tokens) := by
  obtain ⟨yard, -, -, -, hmem⟩ := exists_tracks_of_ofText hconverts
  rw [← withoutParens_eq_self fun token htoken => (hmem token htoken).2]
  exact perm_of_ofText hconverts

end Rpn

/-- The postfix form of a text that converts has the numbers and operators of the text,
each once and unchanged.  Of two of them, the first in the text stays the first exactly
if it is a number, or an operator that a token behind it, and no later than the second,
makes leave. -/
theorem ofText_pair_sublist_iff {source : Text} {rpn : Rpn}
    (hconverts : Rpn.ofText source = .ok rpn) :
    rpn.tokens.Perm (withoutParens (Cursor.start source).tokens) ∧ rpn.tokens.Nodup ∧
      ∀ (front between back : List Token) (first second : Token),
        (Cursor.start source).tokens = front ++ first :: (between ++ second :: back) →
        first.isParen = false → second.isParen = false →
        ([first, second].Sublist rpn.tokens ↔
          first.kind = .number ∨ ∃ waiting, first.kind = .operator waiting ∧
            Token.IsReleased front first waiting (between ++ [second])) := by
  have hperm := Rpn.perm_tokens_of_ofText hconverts
  have hnodup := Cursor.nodup_tokens (Cursor.start source)
  have hnodupRpn : rpn.tokens.Nodup := hperm.nodup_iff.2 (hnodup.filter _)
  refine ⟨hperm, hnodupRpn, ?_⟩
  intro front between back first second htokens hfirstParen hsecondParen
  obtain ⟨final, hrun, -, houtput, hmem⟩ := Rpn.exists_tracks_of_ofText hconverts
  have hfinal : withoutParens final.output = rpn.tokens := by
    rw [← houtput]
    exact withoutParens_eq_self fun token htoken => (hmem token htoken).2
  rw [htokens] at hrun hnodup
  have hne : first ≠ second := by
    rintro rfl
    exact not_mem_of_nodup_middle hnodup (by simp)
  -- The run stops behind the front, behind each of the two tokens and in front of the second.
  obtain ⟨yard, hfront, hrest⟩ := foldlM_append_eq_ok_iff.1 hrun
  obtain ⟨started, hfirst, hrest⟩ := foldlM_cons_eq_ok_iff.1 hrest
  obtain ⟨reached, hbetween, hrest⟩ := foldlM_append_eq_ok_iff.1 hrest
  obtain ⟨next, hsecond, hback⟩ := foldlM_cons_eq_ok_iff.1 hrest
  have htracks : yard.Tracks front := Yard.tracks_empty.foldlM hfront
  have hheld : first ∈ reached.output :=
    (Yard.moves_of_step hfirst).mem_output hfirstParen hbetween
  have hbehind : (between ++ [second]).foldlM (Yard.step source) started = .ok next :=
    foldlM_append_eq_ok_iff.2 ⟨reached, hbetween,
      foldlM_cons_eq_ok_iff.2 ⟨next, hsecond, rfl⟩⟩
  have hread : (front ++ first :: (between ++ [second])).Nodup := hnodup.sublist (by simp)
  rw [← hfinal, Yard.pair_sublist_output_iff (Yard.moves_of_step hsecond) hback hheld hne
    hfirstParen hsecondParen (hfinal ▸ hnodupRpn)]
  exact htracks.not_mem_pending_iff (Yard.moves_of_step hfirst) hbehind hread hfirstParen

/-- The difference leaves before the sum in a text whose group has an operator without
a right operand. -/
theorem ofText_minus_before_plus :
    Rpn.ofText ['1', '-', '(', '2', '*', ')', '+', '4'] =
        .ok ⟨['1', '-', '(', '2', '*', ')', '+', '4'],
          [⟨.number, ['1'], 0⟩, ⟨.number, ['2'], 3⟩, ⟨.operator .star, ['*'], 4⟩,
            ⟨.operator .minus, ['-'], 1⟩, ⟨.number, ['4'], 7⟩,
            ⟨.operator .plus, ['+'], 6⟩]⟩ ∧
      Token.IsReleased [⟨.number, ['1'], 0⟩] ⟨.operator .minus, ['-'], 1⟩ .minus
        [⟨.leftParen, ['('], 2⟩, ⟨.number, ['2'], 3⟩, ⟨.operator .star, ['*'], 4⟩,
          ⟨.rightParen, [')'], 5⟩, ⟨.operator .plus, ['+'], 6⟩] := by
  have hconverts : Rpn.ofText ['1', '-', '(', '2', '*', ')', '+', '4'] =
      .ok ⟨['1', '-', '(', '2', '*', ')', '+', '4'],
        [⟨.number, ['1'], 0⟩, ⟨.number, ['2'], 3⟩, ⟨.operator .star, ['*'], 4⟩,
          ⟨.operator .minus, ['-'], 1⟩, ⟨.number, ['4'], 7⟩,
          ⟨.operator .plus, ['+'], 6⟩]⟩ := by
    decide +kernel
  have htokens : (Cursor.start ['1', '-', '(', '2', '*', ')', '+', '4']).tokens =
      [⟨.number, ['1'], 0⟩] ++ ⟨.operator .minus, ['-'], 1⟩ ::
        ([⟨.leftParen, ['('], 2⟩, ⟨.number, ['2'], 3⟩, ⟨.operator .star, ['*'], 4⟩,
          ⟨.rightParen, [')'], 5⟩] ++ ⟨.operator .plus, ['+'], 6⟩ ::
            [⟨.number, ['4'], 7⟩]) := by
    decide +kernel
  obtain ⟨-, -, horder⟩ := ofText_pair_sublist_iff hconverts
  refine ⟨hconverts, ?_⟩
  obtain hnumber | ⟨waiting, hkind, hreleased⟩ :=
    (horder _ _ _ _ _ htokens rfl rfl).1 (by decide)
  · cases hnumber
  · cases hkind
    exact hreleased

end Calculator

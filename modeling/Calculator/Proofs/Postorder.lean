import Calculator.Expr
import Calculator.Proofs.Yard

/-!
# Converting a written tree gives its postorder

While the yard reads a text that writes a tree, it emits the front of the tree's
postorder and keeps the back of it waiting: operators that bind at least as
tightly as the level of the text, the next one to leave first.  The yard that was
there before is left alone, because whatever waits on its top binds less tightly
or is an opening parenthesis.  An operator or a closing parenthesis behind the
text makes exactly that back leave, so at the end the whole postorder is emitted.
-/

namespace Calculator

/-- The precedence of an operator is its level in the grammar. -/
theorem Operator.precedence_eq_level (applied : Operator) :
    applied.precedence = applied.level := by
  cases applied <;> rfl

namespace Yard

/-- Nothing on top of what waits leaves before an operator of this precedence or
a higher one. -/
def Guards (level : Nat) (yard : Yard) : Prop :=
  ∀ token ∈ yard.pending.head?, ¬token.BindsAtLeast level

theorem Guards.mono {level higher : Nat} {yard : Yard} (hguards : yard.Guards level)
    (hle : level ≤ higher) : yard.Guards higher := fun token hhead hbinds =>
  hguards token hhead (hbinds.mono hle)

/-- The yard after taking in these tokens, the front of them emitted and the back
waiting as operators of at least this precedence. -/
def Takes (level : Nat) (tokens : List Token) (before after : Yard) : Prop :=
  ∃ leaving waiting, tokens = leaving ++ waiting ∧
    (∀ token ∈ waiting, token.BindsAtLeast level) ∧
    after = ⟨leaving.reverse ++ before.emitted, waiting ++ before.pending⟩

/-- An operator makes leave what waits since the yard before, and waits itself. -/
theorem step_operator_of_takes (source : Text) {tokens : List Token} {before after : Yard}
    {token : Token} {applied : Operator} (hkind : token.kind = .operator applied)
    (htakes : Takes applied.precedence tokens before after)
    (hguards : before.Guards applied.precedence) :
    after.step source token =
      .ok ⟨tokens.reverse ++ before.emitted, token :: before.pending⟩ := by
  obtain ⟨leaving, waiting, rfl, hbinds, rfl⟩ := htakes
  have hleave : ∀ token ∈ waiting, leavesBefore applied token = true := fun token hmem =>
    leavesBefore_iff.2 (hbinds token hmem)
  have hstay : ∀ token ∈ before.pending.head?, leavesBefore applied token = false := by
    intro token hhead
    rw [Bool.eq_false_iff, ne_eq, leavesBefore_iff]
    exact hguards token hhead
  simp only [step, hkind]
  rw [takeWhile_append_of_boundary hleave hstay, dropWhile_append_of_boundary hleave hstay]
  simp

/-- A closing parenthesis makes leave what waits since its partner, and its
partner with it. -/
theorem step_rightParen_of_takes (source : Text) {level : Nat} {tokens : List Token}
    {emitted pending : List Token} {left right : Token} {after : Yard}
    (hleft : left.kind = .leftParen) (hright : right.kind = .rightParen)
    (htakes : Takes level tokens ⟨emitted, left :: pending⟩ after) :
    after.step source right = .ok ⟨tokens.reverse ++ emitted, pending⟩ := by
  obtain ⟨leaving, waiting, rfl, hbinds, rfl⟩ := htakes
  have hleave : ∀ token ∈ waiting, (token.kind != .leftParen) = true := by
    intro token hmem
    obtain ⟨applied, hkind, -⟩ := hbinds token hmem
    simp [hkind]
  have hstay : ∀ token ∈ (left :: pending).head?, (token.kind != .leftParen) = false := by
    simp [hleft]
  simp only [step, hright]
  rw [takeWhile_append_of_boundary hleave hstay, dropWhile_append_of_boundary hleave hstay]
  simp

/-- Into any yard that is guarded at this level, the text takes these tokens,
whatever stands behind it. -/
def Reads (source : Text) (level offset : Nat) (text : Text) (tokens : List Token) : Prop :=
  ∀ (yard : Yard) (rest : Text), rest.BreaksRun → yard.Guards level →
    ∃ after, Takes level tokens yard after ∧
      yard.run source ⟨offset, text ++ rest⟩ =
        after.run source ⟨offset + text.byteLength, rest⟩

theorem reads_number (source : Text) (level offset : Nat) {run : Text} (hrun : run.IsRun) :
    Reads source level offset run [⟨.number, run, offset⟩] := by
  intro yard rest hrest _
  refine ⟨_, ⟨[⟨.number, run, offset⟩], [], rfl, by simp, rfl⟩, ?_⟩
  exact run_run source yard offset hrun hrest

/-- Inside a group, the opening parenthesis guards the yard against every operator. -/
theorem Reads.group {source : Text} {offset : Nat} {text : Text} {tokens : List Token}
    (hinside : Reads source 1 (offset + 1) text tokens) (level : Nat) :
    Reads source level offset ('(' :: text ++ [')']) tokens := by
  intro yard rest _ _
  let opened : Yard := ⟨yard.emitted, ⟨.leftParen, ['('], offset⟩ :: yard.pending⟩
  have hopened : opened.Guards 1 := by
    simp [opened, Guards, Token.BindsAtLeast]
  have hclose : Text.BreaksRun (')' :: rest) := by
    rw [Text.breaksRun_cons]
    rfl
  obtain ⟨after, htakes, hrun⟩ := hinside opened (')' :: rest) hclose hopened
  refine ⟨⟨tokens.reverse ++ yard.emitted, yard.pending⟩,
    ⟨tokens, [], by simp, by simp, rfl⟩, ?_⟩
  have htext : '(' :: text ++ [')'] ++ rest = '(' :: (text ++ ')' :: rest) := by simp
  rw [htext, run_symbol source yard offset Token.Kind.ofChar?_leftParen]
  change opened.run source ⟨offset + 1, text ++ ')' :: rest⟩ = _
  rw [hrun, run_symbol source after _ Token.Kind.ofChar?_rightParen,
    step_rightParen_of_takes source rfl rfl htakes]
  have hposition : offset + 1 + text.byteLength + Char.utf8Size ')' =
      offset + Text.byteLength ('(' :: text ++ [')']) := by
    simp only [Text.byteLength_append, Text.byteLength_cons, Text.byteLength_nil]
    have hsize : Char.utf8Size '(' = 1 := rfl
    omega
  rw [hposition]
  rfl

/-- The operator makes all of its left operand leave and stays below what waits of
its right one. -/
theorem Reads.binary {source : Text} {level offset : Nat} {applied : Operator}
    {left right : Text} {leftTokens rightTokens : List Token}
    (hlevel : level ≤ applied.precedence)
    (hleft : Reads source applied.precedence offset left leftTokens)
    (hright : Reads source (applied.precedence + 1)
      (offset + left.byteLength + applied.symbol.utf8Size) right rightTokens) :
    Reads source level offset (left ++ applied.symbol :: right)
      (leftTokens ++ rightTokens ++
        [⟨.operator applied, [applied.symbol], offset + left.byteLength⟩]) := by
  intro yard rest hrest hguards
  let token : Token := ⟨.operator applied, [applied.symbol], offset + left.byteLength⟩
  have hguarded : yard.Guards applied.precedence := hguards.mono hlevel
  have hsymbol : Text.BreaksRun (applied.symbol :: (right ++ rest)) := by simp
  obtain ⟨middle, htakesLeft, hrunLeft⟩ := hleft yard _ hsymbol hguarded
  let between : Yard := ⟨leftTokens.reverse ++ yard.emitted, token :: yard.pending⟩
  have hbetween : between.Guards (applied.precedence + 1) := by
    simp [between, token, Guards, Token.BindsAtLeast]
  obtain ⟨after, ⟨leaving, waiting, htokens, hwaiting, hafter⟩, hrunRight⟩ :=
    hright between rest hrest hbetween
  refine ⟨after, ⟨leftTokens ++ leaving, waiting ++ [token], ?_, ?_, ?_⟩, ?_⟩
  · simp [htokens, token]
  · intro member hmem
    rcases List.mem_append.1 hmem with hmem | hmem
    · exact (hwaiting member hmem).mono (by omega)
    · rw [List.mem_singleton.1 hmem]
      exact ⟨applied, rfl, hlevel⟩
  · simp [hafter, between]
  · have htext : left ++ applied.symbol :: right ++ rest =
        left ++ applied.symbol :: (right ++ rest) := by simp
    have hposition : offset + Text.byteLength (left ++ applied.symbol :: right) =
        offset + left.byteLength + applied.symbol.utf8Size + right.byteLength := by
      simp only [Text.byteLength_append, Text.byteLength_cons]
      omega
    rw [htext, hrunLeft, run_symbol source middle _ (Token.Kind.ofChar?_symbol applied),
      step_operator_of_takes source rfl htakesLeft hguarded, hposition]
    exact hrunRight

end Yard

namespace Expr

/-- Reading a written tree takes its postorder into the yard. -/
theorem Written.reads {level offset : Nat} {text : Text} {tree : Expr}
    (hwritten : Written level offset text tree) (source : Text) :
    Yard.Reads source level offset text tree.postorder := by
  induction hwritten with
  | number hrun => exact Yard.reads_number source _ _ hrun
  | group _ ih => exact ih.group _
  | binary hlevel _ _ ihLeft ihRight =>
      rw [← Operator.precedence_eq_level] at hlevel ihLeft ihRight
      exact ihLeft.binary hlevel ihRight

/-- The same tree with no byte positions. -/
def unplaced : Expr → Expr
  | .number literal _ => .number literal 0
  | .binary applied _ left right => .binary applied 0 left.unplaced right.unplaced

/-- The literals of a postorder do not depend on where they are written. -/
theorem map_literal_postorder_unplaced (tree : Expr) :
    tree.unplaced.postorder.map Token.literal = tree.postorder.map Token.literal := by
  induction tree with
  | number literal offset => rfl
  | binary applied offset left right ihLeft ihRight =>
      simp [unplaced, postorder, ihLeft, ihRight]

/-- Puts one token of a postorder on a stack of trees. -/
def regrow (stack : List Expr) (token : Token) : List Expr :=
  match token.kind, stack with
  | .number, stack => .number token.literal token.offset :: stack
  | .operator applied, right :: left :: below =>
      .binary applied token.offset left right :: below
  | _, stack => stack

theorem foldl_regrow_postorder (tree : Expr) (stack : List Expr) :
    tree.postorder.foldl regrow stack = tree :: stack := by
  induction tree generalizing stack with
  | number literal offset => rfl
  | binary applied offset left right ihLeft ihRight =>
      simp only [postorder, List.foldl_append, ihLeft, ihRight]
      rfl

theorem postorder_injective {left right : Expr} (heq : left.postorder = right.postorder) :
    left = right := by
  have hleft := foldl_regrow_postorder left []
  rw [heq, foldl_regrow_postorder right []] at hleft
  exact (List.cons.inj hleft).1.symm

theorem Parses.ofText {text : Text} {tree : Expr} (hparses : Parses text tree) :
    Rpn.ofText text = .ok ⟨text, tree.postorder⟩ := by
  have hguards : Yard.empty.Guards 1 := by
    simp [Yard.empty, Yard.Guards]
  obtain ⟨after, ⟨leaving, waiting, hpostorder, hbinds, rfl⟩, hrun⟩ :=
    hparses.reads text Yard.empty [] Text.breaksRun_nil hguards
  rw [List.append_nil, Yard.run_nil] at hrun
  refine Rpn.ofText_eq_ok_iff.2 ⟨_, hrun, ?_, ?_⟩
  · intro token hmem
    exact (hbinds token (by simpa [Yard.empty] using hmem)).not_isParen
  · simp [hpostorder, Yard.empty]

/-- A text writes at most one tree. -/
theorem Parses.unique {text : Text} {left right : Expr} (hleft : Parses text left)
    (hright : Parses text right) : left = right := by
  have heq := hleft.ofText
  rw [hright.ofText] at heq
  apply postorder_injective
  exact (congrArg Rpn.tokens (Except.ok.inj heq)).symm

end Expr

/-- The postfix form of a written tree is its postorder, with every kind, literal
and offset; the tree is the only one that the text writes.  Texts that write one
tree at different places, with different parentheses, have the same literals. -/
theorem ofText_eq_postorder {text : Text} {tree : Expr} (hparses : Expr.Parses text tree) :
    Rpn.ofText text = .ok ⟨text, tree.postorder⟩ ∧
      (∀ other, Expr.Parses text other → other = tree) ∧
      ∀ otherText other, Expr.Parses otherText other → other.unplaced = tree.unplaced →
        ∃ rpn, Rpn.ofText otherText = .ok rpn ∧
          rpn.tokens.map Token.literal = tree.postorder.map Token.literal := by
  refine ⟨hparses.ofText, fun other hother => hother.unique hparses, ?_⟩
  intro otherText other hother hsame
  refine ⟨_, hother.ofText, ?_⟩
  have hliterals := congrArg (fun tree => tree.postorder.map Token.literal) hsame
  simpa only [Expr.map_literal_postorder_unplaced] using hliterals

/-- A difference with a root on its right, written bare and with parentheses. -/
theorem ofText_root_in_difference :
    Rpn.ofText ['2', '-', '3', '√', '4'] =
        .ok ⟨['2', '-', '3', '√', '4'],
          [⟨.number, ['2'], 0⟩, ⟨.number, ['3'], 2⟩, ⟨.number, ['4'], 6⟩,
            ⟨.operator .root, ['√'], 3⟩, ⟨.operator .minus, ['-'], 1⟩]⟩ ∧
      ∃ rpn, Rpn.ofText ['2', '-', '(', '(', '3', ')', '√', '4', ')'] = .ok rpn ∧
        rpn.tokens.map Token.literal = [['2'], ['3'], ['4'], ['√'], ['-']] := by
  have hbare : Expr.Parses ['2', '-', '3', '√', '4']
      (.binary .minus 1 (.number ['2'] 0)
        (.binary .root 3 (.number ['3'] 2) (.number ['4'] 6))) :=
    @Expr.Written.binary 1 0 .minus ['2'] ['3', '√', '4'] _ _ (by decide)
      (.number (by decide))
      (@Expr.Written.binary 2 2 .root ['3'] ['4'] _ _ (by decide) (.number (by decide))
        (.number (by decide)))
  have hroot : Expr.Written 1 3 ['(', '3', ')', '√', '4']
      (.binary .root 6 (.number ['3'] 4) (.number ['4'] 9)) :=
    @Expr.Written.binary 1 3 .root ['(', '3', ')'] ['4'] _ _ (by decide)
      (.group (@Expr.Written.number 1 4 ['3'] (by decide))) (.number (by decide))
  have hgrouped : Expr.Parses ['2', '-', '(', '(', '3', ')', '√', '4', ')']
      (.binary .minus 1 (.number ['2'] 0)
        (.binary .root 6 (.number ['3'] 4) (.number ['4'] 9))) :=
    @Expr.Written.binary 1 0 .minus ['2'] ['(', '(', '3', ')', '√', '4', ')'] _ _ (by decide)
      (.number (by decide)) (.group hroot)
  obtain ⟨htokens, -, hliterals⟩ := ofText_eq_postorder hbare
  exact ⟨htokens, hliterals _ _ hgrouped rfl⟩

end Calculator

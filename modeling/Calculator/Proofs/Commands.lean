import Calculator.CommandLine
import Calculator.Proofs.Lines
import Calculator.Proofs.OutputOrder
import Calculator.Proofs.Refusal
import Calculator.Proofs.Tiling
import Calculator.Proofs.Words

/-!
# What the commands say of one expression

One command only cuts an expression into tokens, one converts it and one evaluates it, so
each can fail where the one before it succeeds, and never the other way round.  The tokens
are shown up to the first foreign character, line by line, and their literals make up that
part of the expression; the postfix form of an expression that converts has the same
literals, parentheses left out.
-/

namespace Calculator

namespace Text

/-- The second word of every line that has one. -/
def secondWords (text : Text) : List Text :=
  (text.splitOn '\n').filterMap fun line : Text => line.words[1]?

theorem secondWords_ofLines {lines : List Text} (hlines : ∀ line ∈ lines, '\n' ∉ line) :
    secondWords (ofLines lines) = lines.filterMap fun line : Text => line.words[1]? := by
  induction lines with
  | nil => simp [secondWords, ofLines]
  | cons line lines ih =>
      obtain ⟨hline, hrest⟩ := List.forall_mem_cons.1 hlines
      rw [ofLines_cons, secondWords, List.splitOn_append_cons_self_of_not_mem hline,
        List.filterMap_cons, List.filterMap_cons, ← ih hrest]
      rfl

theorem IsWord.newline_not_mem {word : Text} (hword : word.IsWord) : '\n' ∉ word := by
  intro hmem
  have hblank := hword.2 _ hmem
  exact absurd hblank (by decide)

theorem newline_not_mem_join {parts : List Text} (hparts : ∀ part ∈ parts, '\n' ∉ part) :
    '\n' ∉ join [' '] parts := by
  induction parts with
  | nil => exact List.not_mem_nil
  | cons first rest ih =>
      obtain ⟨hfirst, hrest⟩ := List.forall_mem_cons.1 hparts
      cases rest with
      | nil => exact hfirst
      | cons second more =>
          rw [join_cons_cons]
          simp [hfirst, ih hrest]

end Text

namespace Token

theorem Kind.isWord_name (kind : Kind) : kind.name.IsWord := by
  cases kind with
  | number => decide +kernel
  | operator applied => cases applied <;> decide +kernel
  | leftParen => decide +kernel
  | rightParen => decide +kernel

theorem IsSpelled.words_display {token : Token} (hspelled : token.IsSpelled) :
    token.display.words = [token.kind.name, token.literal] := by
  have hspace : Text.isBlank ' ' = true := by decide
  rw [display, Text.words_append_blank hspace, token.kind.isWord_name.words_eq,
    hspelled.isWord.words_eq]
  rfl

theorem IsSpelled.newline_not_mem_display {token : Token} (hspelled : token.IsSpelled) :
    '\n' ∉ token.display := by
  have hname := token.kind.isWord_name.newline_not_mem
  have hliteral := hspelled.isWord.newline_not_mem
  simp [display, hname, hliteral]

/-- The second words of the lines of tokens are their literals; a line of one word adds
nothing. -/
theorem secondWords_display {tokens : List Token} {rest : List Text}
    (hspelled : ∀ token ∈ tokens, token.IsSpelled) (hrest : ∀ line ∈ rest, line.IsWord) :
    (Text.ofLines (tokens.map display ++ rest)).secondWords = tokens.map literal := by
  have hlines : ∀ line ∈ tokens.map display ++ rest, '\n' ∉ line := by
    rw [List.forall_mem_append, List.forall_mem_map]
    exact ⟨fun token hmem => (hspelled token hmem).newline_not_mem_display,
      fun line hmem => (hrest line hmem).newline_not_mem⟩
  rw [Text.secondWords_ofLines hlines, List.filterMap_append, List.filterMap_map]
  have hnone : rest.filterMap (fun line : Text => line.words[1]?) = [] := by
    rw [List.filterMap_eq_nil_iff]
    intro line hmem
    rw [(hrest line hmem).words_eq]
    rfl
  have hsome : ∀ token ∈ tokens,
      ((fun line : Text => line.words[1]?) ∘ display) token = some token.literal := by
    intro token hmem
    rw [Function.comp_apply, (hspelled token hmem).words_display]
    rfl
  rw [hnone, List.append_nil, List.filterMap_congr hsome]
  exact congrFun List.filterMap_eq_map tokens

/-- A parenthesis can be told from its literal. -/
theorem IsSpelled.isParen_iff {token : Token} (hspelled : token.IsSpelled) :
    token.isParen = true ↔ token.literal = ['('] ∨ token.literal = [')'] := by
  constructor
  · intro hparen
    unfold isParen at hparen
    unfold IsSpelled at hspelled
    cases hkind : token.kind <;> rw [hkind] at hparen hspelled
    · cases hparen
    · cases hparen
    · exact Or.inl hspelled
    · exact Or.inr hspelled
  · intro hliteral
    have hwritten : ∀ character kind, Kind.ofChar? character = some kind →
        token.literal = [character] → token.kind = kind := fun character kind hkind heq =>
      (hspelled.alike (isSpelled_of_ofChar? hkind 0) heq).1
    rcases hliteral with hleft | hright
    · rw [isParen, hwritten '(' .leftParen rfl hleft]
    · rw [isParen, hwritten ')' .rightParen rfl hright]

theorem map_literal_withoutParens {tokens : List Token}
    (hspelled : ∀ token ∈ tokens, token.IsSpelled) :
    (withoutParens tokens).map literal =
      (tokens.map literal).filter fun literal => literal ≠ ['('] ∧ literal ≠ [')'] := by
  rw [List.filter_map, withoutParens]
  congr 1
  refine List.filter_congr fun token hmem => ?_
  have hparen := (hspelled token hmem).isParen_iff
  cases htoken : token.isParen with
  | false => simp [htoken] at hparen ⊢; tauto
  | true => simp [htoken] at hparen ⊢; tauto

end Token

namespace Cursor

/-- The literals of a text of the alphabet make up the text. -/
theorem flatten_literals {text : Text}
    (hallowed : ∀ character ∈ text, isAllowed character = true) :
    ((start text).tokens.map Token.literal).flatten = text := by
  obtain ⟨final, hdrives⟩ := (start text).exists_drives
  have hslices := hdrives.covers.1
  rw [← List.flatMap_map Prod.fst] at hslices
  change (start text).items.flatMap Item.slice = text at hslices
  rw [start, items_of_isAllowed hallowed, List.flatMap_map] at hslices
  rwa [← List.flatMap_def]

end Cursor

/-- A run ends with this exit code, and these lines are its output. -/
def Outcome.Shows (outcome : Outcome) (lines : List Text) (code : UInt8) : Prop :=
  outcome.output = Text.ofLines lines ∧ outcome.status.code = code

/-- The two lines of an evaluation. -/
def resultsOf (expression : Text) : List Text :=
  [("Result: " : Text) ++ (evaluate expression).1,
    ("Intermediate: " : Text) ++ (evaluate expression).2]

namespace Command

theorem tokenLines_append (tokens : List Token) (items : List Item) :
    tokenLines (tokens.map Item.token ++ items) =
      ⟨Text.ofLines (tokens.map Token.display) ++ (tokenLines items).output,
        (tokenLines items).status⟩ := by
  induction tokens with
  | nil => rfl
  | cons token tokens ih =>
      rw [List.map_cons, List.cons_append, tokenLines, ih, List.map_cons, Text.ofLines_cons,
        List.append_assoc, List.cons_append]

theorem tokenLines_of_isAllowed {text : Text}
    (hallowed : ∀ character ∈ text, isAllowed character = true) :
    tokenLines text.items =
      ⟨Text.ofLines ((Cursor.start text).tokens.map Token.display ++ [("EOF" : Text)]),
        .success⟩ := by
  have hend : (tokenLines []).output = Text.ofLines [("EOF" : Text)] := by decide +kernel
  change tokenLines (Cursor.start text).items = _
  rw [Cursor.start, Cursor.items_of_isAllowed hallowed,
    ← List.append_nil (List.map Item.token _), tokenLines_append, hend, Text.ofLines_append]
  rfl

/-- Behind a foreign character nothing is shown. -/
theorem tokenLines_of_foreign {front rest : Text} {character : Char}
    (hallowed : ∀ earlier ∈ front, isAllowed earlier = true)
    (hforeign : isAllowed character = false) :
    tokenLines (front ++ character :: rest).items =
      ⟨Text.ofLines ((Cursor.start front).tokens.map Token.display), .badExpression⟩ := by
  change tokenLines (Cursor.items ⟨0, front ++ character :: rest⟩) = _
  rw [Cursor.items_of_foreign hallowed hforeign, tokenLines_append]
  simp [tokenLines, Cursor.start]

variable (input : List UInt8) {expression : Text}

/-- What the runs of the commands on one expression say of each other. -/
structure AgreeOn (expression : Text) : Prop where
  /-- There is a line for each token before the first foreign character, and one for the end
  of the expression unless there is such a character.  The literals of the lines make up that
  part of the expression, and by itself it gives the same lines. -/
  tokenize : ∃ (front rest : Text) (tokens : List Token), expression.strip = front ++ rest ∧
    (∀ character ∈ front, isAllowed character = true) ∧
    (∀ character ∈ rest.head?, isAllowed character = false) ∧
    front.items = tokens.map Item.token ∧
    (run input (.tokenize expression)).output.secondWords.flatten = front ∧
    (run input (.tokenize front)).Shows (tokens.map Token.display ++ [("EOF" : Text)]) 0 ∧
    if rest = []
    then (run input (.tokenize expression)).Shows (tokens.map Token.display ++ [("EOF" : Text)]) 0
    else (run input (.tokenize expression)).Shows (tokens.map Token.display) 65
  rpn_of_diagnostic : (run input (.eval expression true)).status.code = 0 →
    (run input (.rpn expression)).status.code = 0
  tokenize_of_rpn : (run input (.rpn expression)).status.code = 0 →
    (run input (.tokenize expression)).status.code = 0
  /-- The postfix form is one line, and its words are the literals of the tokens without the
  parentheses. -/
  words_perm : (run input (.rpn expression)).status.code = 0 →
    ∃ line : Text, '\n' ∉ line ∧ (run input (.rpn expression)).Shows [line] 0 ∧
      line.words.Perm ((run input (.tokenize expression)).output.secondWords.filter
        fun literal => literal ≠ ['('] ∧ literal ≠ [')'])
  rpn_fails : (run input (.rpn expression)).status.code ≠ 0 →
    (run input (.rpn expression)).Shows [] 1
  eval : (run input (.eval expression false)).Shows (resultsOf expression) 0
  diagnostic : ∀ value, calculate expression.strip = .ok value →
    (run input (.eval expression true)).Shows (resultsOf expression) 0
  diagnostic_fails : ∀ fault, calculate expression.strip = .error fault →
    (run input (.eval expression true)).Shows [] 65

section Tokenize

variable {front rest : Text} (hcut : expression.strip = front ++ rest)
  (hallowed : ∀ character ∈ front, isAllowed character = true)
  (hforeign : ∀ character ∈ rest.head?, isAllowed character = false)

include hcut hallowed hforeign

theorem run_tokenize :
    if rest = []
    then (run input (.tokenize expression)).Shows
      ((Cursor.start front).tokens.map Token.display ++ [("EOF" : Text)]) 0
    else (run input (.tokenize expression)).Shows
      ((Cursor.start front).tokens.map Token.display) 65 := by
  rw [run, hcut]
  cases rest with
  | nil =>
      rw [if_pos rfl, List.append_nil, tokenLines_of_isAllowed hallowed]
      exact ⟨rfl, rfl⟩
  | cons character rest =>
      rw [if_neg (List.cons_ne_nil _ _), tokenLines_of_foreign hallowed (hforeign character rfl)]
      exact ⟨rfl, rfl⟩

theorem secondWords_run_tokenize :
    (run input (.tokenize expression)).output.secondWords =
      (Cursor.start front).tokens.map Token.literal := by
  have hspelled : ∀ token ∈ (Cursor.start front).tokens, token.IsSpelled :=
    Cursor.isSpelled_of_mem_tokens
  have hword : ("EOF" : Text).IsWord := by decide +kernel
  have hrun := run_tokenize input hcut hallowed hforeign
  split at hrun
  · rw [hrun.1]
    exact Token.secondWords_display hspelled (List.forall_mem_singleton.2 hword)
  · have hnone := Token.secondWords_display hspelled (List.forall_mem_nil Text.IsWord)
    rwa [List.append_nil, ← hrun.1] at hnone

end Tokenize

/-- Without foreign characters the whole expression is cut into tokens. -/
theorem run_tokenize_of_isAllowed
    (hallowed : ∀ character ∈ expression.strip, isAllowed character = true) :
    (run input (.tokenize expression)).Shows
        ((Cursor.start expression.strip).tokens.map Token.display ++ [("EOF" : Text)]) 0 ∧
      (run input (.tokenize expression)).output.secondWords =
        (Cursor.start expression.strip).tokens.map Token.literal := by
  have hcut : expression.strip = expression.strip ++ [] := (List.append_nil _).symm
  have hforeign : ∀ character ∈ ([] : Text).head?, isAllowed character = false := by simp
  have hrun := run_tokenize input hcut hallowed hforeign
  rw [if_pos rfl] at hrun
  exact ⟨hrun, secondWords_run_tokenize input hcut hallowed hforeign⟩

theorem run_rpn_of_ok {rpn : Rpn} (hconvert : convert expression.strip = .ok rpn) :
    (run input (.rpn expression)).Shows [rpn.toText] 0 := by
  simp only [run, hconvert]
  exact ⟨(List.append_nil _).symm, rfl⟩

theorem run_rpn_of_error {fault : Fault} (hfails : convert expression.strip = .error fault) :
    (run input (.rpn expression)).Shows [] 1 := by
  simp only [run, hfails]
  exact ⟨rfl, rfl⟩

theorem exists_rpn_of_code (hcode : (run input (.rpn expression)).status.code = 0) :
    ∃ rpn, convert expression.strip = .ok rpn := by
  cases hconvert : convert expression.strip with
  | ok rpn => exact ⟨rpn, rfl⟩
  | error fault =>
      rw [(run_rpn_of_error input hconvert).2] at hcode
      exact absurd hcode (by decide)

theorem run_eval : (run input (.eval expression false)).Shows (resultsOf expression) 0 :=
  ⟨(Text.ofLines_results _ _).symm, rfl⟩

theorem run_diagnostic_of_ok {value : Binary64} (hvalue : calculate expression.strip = .ok value) :
    (run input (.eval expression true)).Shows (resultsOf expression) 0 := by
  have hresult : (Evaluation.ofText expression).result = .ok value := hvalue
  have hsame : run input (.eval expression true) = run input (.eval expression false) := by
    simp only [run, hresult]
  rw [hsame]
  exact run_eval input

theorem run_diagnostic_of_error {fault : Fault}
    (hfails : calculate expression.strip = .error fault) :
    (run input (.eval expression true)).Shows [] 65 := by
  have hresult : (Evaluation.ofText expression).result = .error fault := hfails
  simp only [run, hresult]
  exact ⟨rfl, rfl⟩

theorem exists_value_of_code (hcode : (run input (.eval expression true)).status.code = 0) :
    ∃ value, calculate expression.strip = .ok value := by
  cases hcalculate : calculate expression.strip with
  | ok value => exact ⟨value, rfl⟩
  | error fault =>
      rw [(run_diagnostic_of_error input hcalculate).2] at hcode
      exact absurd hcode (by decide)

end Command

/-- What the commands say of any one expression, whatever stands on the input. -/
theorem commands_agreeOn (input : List UInt8) (expression : Text) :
    Command.AgreeOn input expression where
  tokenize := by
    obtain ⟨front, rest, hcut, hallowed, hforeign⟩ := Text.exists_allowed_front expression.strip
    have hfront : front.strip = front := Text.strip_of_isAllowed hallowed
    have hallowedFront : ∀ character ∈ front.strip, isAllowed character = true := by
      rwa [hfront]
    have hrunFront := (Command.run_tokenize_of_isAllowed input hallowedFront).1
    rw [hfront] at hrunFront
    refine ⟨front, rest, (Cursor.start front).tokens, hcut, hallowed, hforeign,
      Cursor.items_of_isAllowed hallowed 0, ?_, hrunFront,
      Command.run_tokenize input hcut hallowed hforeign⟩
    rw [Command.secondWords_run_tokenize input hcut hallowed hforeign,
      Cursor.flatten_literals hallowed]
  rpn_of_diagnostic := by
    intro hcode
    obtain ⟨value, hvalue⟩ := Command.exists_value_of_code input hcode
    obtain ⟨rpn, hconvert, -⟩ := bind_eq_ok_iff.1 hvalue
    exact (Command.run_rpn_of_ok input hconvert).2
  tokenize_of_rpn := by
    intro hcode
    obtain ⟨rpn, hconvert⟩ := Command.exists_rpn_of_code input hcode
    have hallowed := (convert_eq_ok_iff.1 hconvert).1
    exact (Command.run_tokenize_of_isAllowed input hallowed).1.2
  words_perm := by
    intro hcode
    obtain ⟨rpn, hconvert⟩ := Command.exists_rpn_of_code input hcode
    obtain ⟨hallowed, hconverts⟩ := convert_eq_ok_iff.1 hconvert
    have hspelled := Rpn.isSpelled_of_mem hconverts
    refine ⟨rpn.toText, ?_, Command.run_rpn_of_ok input hconvert, ?_⟩
    · apply Text.newline_not_mem_join
      rw [List.forall_mem_map]
      exact fun token hmem => (hspelled token hmem).isWord.newline_not_mem
    · rw [Rpn.words_toText hconverts, (Command.run_tokenize_of_isAllowed input hallowed).2,
        ← Token.map_literal_withoutParens Cursor.isSpelled_of_mem_tokens]
      exact (Rpn.perm_tokens_of_ofText hconverts).map Token.literal
  rpn_fails := by
    intro hcode
    cases hconvert : convert expression.strip with
    | ok rpn => exact absurd (Command.run_rpn_of_ok input hconvert).2 hcode
    | error fault => exact Command.run_rpn_of_error input hconvert
  eval := Command.run_eval input
  diagnostic := fun _ => Command.run_diagnostic_of_ok input
  diagnostic_fails := fun _ => Command.run_diagnostic_of_error input

end Calculator

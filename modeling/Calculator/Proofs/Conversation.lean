import Calculator.CommandLine
import Calculator.Proofs.Lines
import Calculator.Proofs.Words

/-!
# A conversation at the prompt

The prompt answers one line after the other until a line says that it ends, a line is no text
or there are none left.  Typing a line fills an empty input with its first fifty characters
and submitting it leaves the input empty again, so an answer depends on its own line only.
-/

namespace Calculator

namespace Text

/-- Trimming takes blank characters away from both ends. -/
theorem exists_trim (text : Text) :
    ∃ front back : Text, text = front ++ (text.trim ++ back) ∧
      (∀ character ∈ front, isBlank character = true) ∧
      ∀ character ∈ back, isBlank character = true := by
  have hback : text.dropWhile isBlank =
      text.trim ++ ((text.dropWhile isBlank).reverse.takeWhile isBlank).reverse := by
    rw [trim, ← List.reverse_append, List.takeWhile_append_dropWhile, List.reverse_reverse]
  refine ⟨text.takeWhile isBlank, ((text.dropWhile isBlank).reverse.takeWhile isBlank).reverse, ?_,
    fun _ hmem => List.mem_takeWhile_imp hmem, fun _ hmem =>
      List.mem_takeWhile_imp (List.mem_reverse.1 hmem)⟩
  rw [← hback]
  exact List.takeWhile_append_dropWhile.symm

theorem IsWord.trim_eq {front word back : Text} (hword : word.IsWord)
    (hfront : ∀ character ∈ front, isBlank character = true)
    (hback : ∀ character ∈ back, isBlank character = true) :
    trim (front ++ (word ++ back)) = word := by
  have hhead : ∀ character ∈ (word ++ back).head?, isBlank character = false := by
    intro character hmem
    rw [List.head?_append_of_ne_nil _ hword.1] at hmem
    exact hword.2 character (List.mem_of_mem_head? hmem)
  have hlast : ∀ character ∈ word.reverse.head?, isBlank character = false := fun character hmem =>
    hword.2 character (List.mem_reverse.1 (List.mem_of_mem_head? hmem))
  have hbackReverse : ∀ character ∈ back.reverse, isBlank character = true := fun character hmem =>
    hback character (List.mem_reverse.1 hmem)
  rw [trim, dropWhile_append_of_boundary hfront hhead, List.reverse_append,
    dropWhile_append_of_boundary hbackReverse hlast, List.reverse_reverse]

end Text

/-- Inserting the characters of a text fills the input up to its limit. -/
theorem Edit.foldl_insert {input : Text} (hinput : input.length ≤ inputLimit) (text : Text) :
    (text.map Edit.insert).foldl Edit.apply input = (input ++ text).take inputLimit := by
  induction text generalizing input with
  | nil =>
      rw [List.append_nil, List.take_of_length_le hinput]
      rfl
  | cons character text ih =>
      rw [List.map_cons, List.foldl_cons, Edit.apply]
      split
      · next hroom =>
          have hnext : (input ++ [character]).length ≤ inputLimit := by
            rw [List.length_append, List.length_singleton]
            exact hroom
          rw [ih hnext, List.append_assoc, List.singleton_append]
      · next hfull =>
          -- A full input is its own first part, with the rest of the text and without.
          have hlength : inputLimit = input.length := by omega
          rw [ih hinput, hlength, List.take_left, List.take_left]

namespace Session

/-- The lines that show these results over an empty input. -/
def shownLines (results : Text × Text) : List Text :=
  [("Result: " : Text) ++ results.1, ("Intermediate: " : Text) ++ results.2, "> ",
    "Press Enter to evaluate, Ctrl+C to quit."]

/-- An expression was submitted, and nothing was typed since. -/
def answered (expression : Text) : Session :=
  ⟨[], expression, (evaluate expression).1, (evaluate expression).2⟩

/-- This session, and one after each of the texts that are typed and submitted. -/
def conversation (session : Session) (texts : List Text) : List Session :=
  session :: texts.map fun text => answered (text.take inputLimit)

theorem conversation_cons (session : Session) (text : Text) (texts : List Text) :
    session.conversation (text :: texts) =
      session :: (answered (text.take inputLimit)).conversation texts := rfl

theorem input_of_mem_conversation (texts : List Text) :
    ∀ session ∈ fresh.conversation texts, session.input = [] := by
  simp [conversation, fresh, answered]

theorem results_conversation (texts : List Text) :
    (fresh.conversation texts).map (fun session => (session.result, session.intermediate)) =
      ([], []) :: texts.map fun text => evaluate (text.take inputLimit) := by
  simp [conversation, fresh, answered]

theorem view_of_input_nil {session : Session} (hinput : session.input = []) :
    session.view ++ ['\n'] = Text.ofLines (shownLines (session.result, session.intermediate)) := by
  have hprompt : Text.ofString "\n> " = '\n' :: Text.ofString "> " := by decide +kernel
  have hlines : shownLines (session.result, session.intermediate) =
      [("Result: " : Text) ++ session.result, ("Intermediate: " : Text) ++ session.intermediate] ++
        [("> " : Text), instructions] := rfl
  rw [hlines, Text.ofLines_append, Text.ofLines_results, view, hinput, hprompt]
  simp [Text.ofLines]

theorem views_of_input_nil {sessions : List Session}
    (hinputs : ∀ session ∈ sessions, session.input = []) :
    Text.ofLines (sessions.map view) = Text.ofLines ((sessions.map fun session =>
      (session.result, session.intermediate)).flatMap shownLines) := by
  induction sessions with
  | nil => rfl
  | cons session sessions ih =>
      obtain ⟨hinput, hrest⟩ := List.forall_mem_cons.1 hinputs
      rw [List.map_cons, List.map_cons, List.flatMap_cons, Text.ofLines_append, ← ih hrest,
        ← view_of_input_nil hinput, Text.ofLines_cons, List.append_assoc, List.singleton_append]

theorem updateAll?_edits (session : Session) (edits : List Edit) :
    session.updateAll? (edits.map .edit) = some ⟨edits.foldl Edit.apply session.input,
      session.expression, session.result, session.intermediate⟩ := by
  induction edits generalizing session with
  | nil => rfl
  | cons edit edits ih => exact ih _

/-- Whatever the session showed before, it has answered the line now. -/
theorem updateAll?_typed {session : Session} (hinput : session.input = []) (text : Text) :
    session.updateAll? (text.map (fun character => .edit (.insert character)) ++ [.submit]) =
      some (answered (text.take inputLimit)) := by
  have htyped := updateAll?_edits session (text.map .insert)
  rw [hinput, Edit.foldl_insert (by simp), List.nil_append, List.map_map] at htyped
  rw [updateAll?] at htyped ⊢
  rw [List.foldlM_append]
  change (List.foldlM update? session (text.map (Event.edit ∘ Edit.insert)) >>= _) = _
  rw [htyped]
  rfl

end Session

namespace Prompt

/-- A line that says that the conversation ends. -/
def IsFarewell (text : Text) : Prop :=
  ∃ front word back : Text, text = front ++ (word ++ back) ∧
    (∀ character ∈ front, Text.isBlank character = true) ∧
    (∀ character ∈ back, Text.isBlank character = true) ∧ (word = "quit" ∨ word = "exit")

theorem isFarewell_iff {text : Text} : isFarewell text = true ↔ IsFarewell text := by
  rw [isFarewell, decide_eq_true_eq]
  constructor
  · intro hword
    obtain ⟨front, back, htext, hfront, hback⟩ := text.exists_trim
    exact ⟨front, text.trim, back, htext, hfront, hback, hword⟩
  · rintro ⟨front, word, back, rfl, hfront, hback, hword⟩
    have hisWord : word.IsWord := by
      rcases hword with rfl | rfl <;> decide +kernel
    rwa [hisWord.trim_eq hfront hback]

/-- The lines at which a conversation stops, with its exit code. -/
inductive Stops : List (List UInt8) → UInt8 → Prop
  | endOfInput : Stops [] 0
  | farewell {text : Text} (hfarewell : IsFarewell text) (rest : List (List UInt8)) :
      Stops (Text.encode text :: rest) 0
  | noText {line : List UInt8} (hline : ∀ text, Text.encode text ≠ line)
      (rest : List (List UInt8)) : Stops (line :: rest) 1

theorem reply_farewell (session : Session) {text : Text} (hfarewell : IsFarewell text) :
    reply session (Text.encode text) = .finish .success := by
  have hevents : events text = [.quit] := if_pos (isFarewell_iff.2 hfarewell)
  simp only [reply, Text.decode?_encode, hevents]
  rfl

theorem reply_noText (session : Session) {line : List UInt8}
    (hline : ∀ text, Text.encode text ≠ line) : reply session line = .finish .failure := by
  have hdecode : Text.decode? line = none := by
    rw [Option.eq_none_iff_forall_not_mem]
    exact fun text htext => hline text (Text.decode?_eq_some_iff.1 htext)
  rw [reply, hdecode]

/-- The reply to any other line does not depend on what the session has shown before. -/
theorem reply_typed {session : Session} (hinput : session.input = []) {text : Text}
    (hfarewell : ¬IsFarewell text) :
    reply session (Text.encode text) = .proceed (.answered (text.take inputLimit)) := by
  have hevents : events text = text.map (fun character => .edit (.insert character)) ++ [.submit] :=
    if_neg fun h => hfarewell (isFarewell_iff.1 h)
  simp only [reply, Text.decode?_encode, hevents, Session.updateAll?_typed hinput]

theorem Stops.run_eq {stopped : List (List UInt8)} {code : UInt8} (hstops : Stops stopped code)
    (session : Session) :
    ∃ status : Status, status.code = code ∧ run session stopped = ([session.view], status) := by
  cases hstops with
  | endOfInput => exact ⟨.success, rfl, rfl⟩
  | farewell hfarewell rest =>
      refine ⟨.success, rfl, ?_⟩
      rw [run, reply_farewell session hfarewell]
  | noText hline rest =>
      refine ⟨.failure, rfl, ?_⟩
      rw [run, reply_noText session hline]

/-- Every line before the one at which the conversation stops has its answer. -/
theorem run_of_stops {texts : List Text} {stopped : List (List UInt8)} {code : UInt8}
    (htexts : ∀ text ∈ texts, ¬IsFarewell text) (hstops : Stops stopped code) (session : Session)
    (hinput : session.input = []) :
    ∃ status : Status, status.code = code ∧
      run session (texts.map Text.encode ++ stopped) =
        ((session.conversation texts).map Session.view, status) := by
  induction texts generalizing session with
  | nil => exact hstops.run_eq session
  | cons text texts ih =>
      obtain ⟨htext, hrest⟩ := List.forall_mem_cons.1 htexts
      -- An answer leaves the input empty, so the rest of the run starts as this one did.
      obtain ⟨status, hcode, hrun⟩ := ih hrest (.answered (text.take inputLimit)) rfl
      refine ⟨status, hcode, ?_⟩
      rw [Session.conversation_cons, List.map_cons, List.map_cons, List.cons_append, run,
        reply_typed hinput htext]
      simp only [hrun]

/-- Any lines are texts that say no farewell up to where the conversation stops. -/
theorem exists_stops (lines : List (List UInt8)) :
    ∃ (texts : List Text) (stopped : List (List UInt8)) (code : UInt8),
      lines = texts.map Text.encode ++ stopped ∧ (∀ text ∈ texts, ¬IsFarewell text) ∧
        Stops stopped code := by
  induction lines with
  | nil => exact ⟨[], [], 0, rfl, by simp, .endOfInput⟩
  | cons line lines ih =>
      by_cases hline : ∃ text, Text.encode text = line
      · obtain ⟨text, rfl⟩ := hline
        by_cases hfarewell : IsFarewell text
        · exact ⟨[], _, 0, rfl, by simp, .farewell hfarewell lines⟩
        · obtain ⟨texts, stopped, code, rfl, htexts, hstops⟩ := ih
          exact ⟨text :: texts, stopped, code, rfl,
            List.forall_mem_cons.2 ⟨hfarewell, htexts⟩, hstops⟩
      · exact ⟨[], line :: lines, 1, rfl, by simp, .noText (not_exists.1 hline) lines⟩

end Prompt

theorem Status.code_injective : Function.Injective Status.code := by
  intro left right hcode
  cases left <;> cases right <;> first | rfl | exact absurd hcode (by decide)

theorem run_repl_of_stops {input : List UInt8} {texts : List Text} {stopped : List (List UInt8)}
    {code : UInt8} (hcut : Text.CutInto input (texts.map Text.encode ++ stopped))
    (htexts : ∀ text ∈ texts, ¬Prompt.IsFarewell text) (hstops : Prompt.Stops stopped code) :
    (Command.run input .repl).status.code = code ∧
      (Command.run input .repl).output = Text.ofLines ((([], []) :: texts.map fun text =>
        evaluate (text.take 50)).flatMap Session.shownLines) := by
  obtain ⟨status, hcode, hrun⟩ := Prompt.run_of_stops htexts hstops .fresh rfl
  have houtcome : Command.run input .repl =
      ⟨Text.ofLines ((Session.fresh.conversation texts).map Session.view), status⟩ := by
    simp only [Command.run, hcut.lines_eq, hrun]
    rfl
  have hshown := Session.views_of_input_nil (Session.input_of_mem_conversation texts)
  rw [Session.results_conversation] at hshown
  rw [houtcome]
  exact ⟨hcode, hshown⟩

/-- The output and the exit code of a conversation.  Its input is cut into lines, and each of
them is answered up to the one at which it stops, with the results of the first fifty
characters of that line. -/
theorem run_repl_eq_iff (input : List UInt8) (outcome : Outcome) :
    Command.run input .repl = outcome ↔
      ∃ (texts : List Text) (stopped : List (List UInt8)),
        Text.CutInto input (texts.map Text.encode ++ stopped) ∧
        (∀ text ∈ texts, ¬Prompt.IsFarewell text) ∧ Prompt.Stops stopped outcome.status.code ∧
        outcome.output = Text.ofLines ((([], []) :: texts.map fun text =>
          evaluate (text.take 50)).flatMap Session.shownLines) := by
  constructor
  · rintro rfl
    obtain ⟨texts, stopped, code, hlines, htexts, hstops⟩ := Prompt.exists_stops (Text.lines input)
    have hcut := Text.cutInto_lines input
    rw [hlines] at hcut
    obtain ⟨rfl, houtput⟩ := run_repl_of_stops hcut htexts hstops
    exact ⟨texts, stopped, hcut, htexts, hstops, houtput⟩
  · rintro ⟨texts, stopped, hcut, htexts, hstops, houtput⟩
    obtain ⟨hcode, hshown⟩ := run_repl_of_stops hcut htexts hstops
    rw [← houtput] at hshown
    have hstatus := Status.code_injective hcode
    exact congrArg₂ Outcome.mk hshown hstatus

/-- A line is answered although the next one is no text. -/
example : Command.run ([0x39, 0x0D, 0x0A, 0xE2] : List UInt8) .repl =
    ⟨Text.ofLines (Session.shownLines ([], []) ++
      Session.shownLines (['9', '.', '0', '0'], ['9', '.', '0', '0'])), .failure⟩ := by
  decide +kernel

end Calculator

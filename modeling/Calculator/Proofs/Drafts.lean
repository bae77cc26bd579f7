import Mathlib.Data.List.DropRight
import Calculator.Session

/-!
# What a session remembers

A session that has seen a list of events shows what was typed since the last submission, and
the expression of that submission with its two results.  An edit changes the first and a
submission moves it to the second, so nothing older is left, and neither text ever has more
characters than the input holds.
-/

namespace Calculator

/-- The edits, one after the other, make this text of an empty input. -/
inductive Typing : List Edit → Text → Prop
  | nil : Typing [] []
  | insert {edits : List Edit} {text : Text} {character : Char} (hbefore : Typing edits text)
      (hroom : text.length < inputLimit) :
      Typing (edits ++ [.insert character]) (text ++ [character])
  | full {edits : List Edit} {text : Text} {character : Char} (hbefore : Typing edits text)
      (hfull : text.length = inputLimit) : Typing (edits ++ [.insert character]) text
  | backspace {edits : List Edit} {text : Text} {last : Char}
      (hbefore : Typing edits (text ++ [last])) : Typing (edits ++ [.backspace]) text
  | nothingBehind {edits : List Edit} (hbefore : Typing edits []) :
      Typing (edits ++ [.backspace]) []
  | clear {edits : List Edit} : Typing (edits ++ [.clear]) []

namespace Typing

theorem length_le {edits : List Edit} {text : Text} (htyping : Typing edits text) :
    text.length ≤ inputLimit := by
  induction htyping with
  | nil => exact Nat.zero_le _
  | insert _ hroom _ =>
      rw [List.length_append, List.length_singleton]
      exact hroom
  | full _ _ ih => exact ih
  | backspace _ ih =>
      rw [List.length_append] at ih
      exact Nat.le_of_add_right_le ih
  | nothingBehind => exact Nat.zero_le _
  | clear => exact Nat.zero_le _

theorem concat {edits : List Edit} {text : Text} (htyping : Typing edits text) (edit : Edit) :
    Typing (edits ++ [edit]) (edit.apply text) := by
  cases edit with
  | insert character =>
      rw [Edit.apply]
      split
      · next hroom => exact .insert htyping hroom
      · next hfull =>
          exact .full htyping (Nat.le_antisymm htyping.length_le (Nat.le_of_not_lt hfull))
  | backspace =>
      obtain rfl | ⟨front, last, rfl⟩ := List.eq_nil_or_concat' text
      · exact .nothingBehind htyping
      · rw [Edit.apply, List.dropLast_concat]
        exact .backspace htyping
  | clear => exact .clear

theorem eq_foldl {edits : List Edit} {text : Text} (htyping : Typing edits text) :
    text = edits.foldl Edit.apply [] := by
  induction htyping with
  | nil => rfl
  | insert _ hroom ih =>
      rw [List.foldl_append, ← ih, List.foldl_cons, Edit.apply, if_pos hroom, List.foldl_nil]
  | full _ hfull ih =>
      rw [List.foldl_append, ← ih, List.foldl_cons, Edit.apply, if_neg hfull.not_lt,
        List.foldl_nil]
  | backspace _ ih =>
      rw [List.foldl_append, ← ih, List.foldl_cons, Edit.apply, List.dropLast_concat,
        List.foldl_nil]
  | nothingBehind _ ih =>
      rw [List.foldl_append, ← ih]
      rfl
  | clear => rw [List.foldl_append, List.foldl_cons, Edit.apply, List.foldl_nil]

/-- Edits make one text only. -/
theorem unique {edits : List Edit} {text other : Text} (htyping : Typing edits text)
    (hother : Typing edits other) : text = other :=
  htyping.eq_foldl.trans hother.eq_foldl.symm

end Typing

def Event.edit? : Event → Option Edit
  | .edit change => some change
  | _ => none

/-- The edits since the last submission, or all of them if there is none. -/
def lastDraft (events : List Event) : List Edit :=
  (events.rtakeWhile (· != .submit)).filterMap Event.edit?

theorem lastDraft_concat (events : List Event) (event : Event) :
    lastDraft (events ++ [event]) =
      if event = .submit then [] else lastDraft events ++ event.edit?.toList := by
  by_cases hsubmit : event = .submit
  · rw [lastDraft, List.rtakeWhile_concat_neg _ _ _ (by simp [hsubmit]), if_pos hsubmit]
    rfl
  · have hlast : [event].filterMap Event.edit? = event.edit?.toList := by
      cases event <;> rfl
    rw [lastDraft, List.rtakeWhile_concat_pos _ _ _ (by simpa using hsubmit), if_neg hsubmit,
      List.filterMap_append, hlast]
    rfl

/-- What was typed before a submission is not part of the last draft. -/
theorem lastDraft_append_submit (earlier later : List Event) :
    lastDraft (earlier ++ .submit :: later) = lastDraft later := by
  induction later using List.reverseRecOn with
  | nil => exact lastDraft_concat earlier .submit
  | append_singleton later event ih =>
      rw [← List.cons_append, ← List.append_assoc, lastDraft_concat, lastDraft_concat, ih]

/-- A submission is the last event, or it is one of those before. -/
theorem concat_eq_append_submit_cases {events earlier later : List Event} {event : Event}
    (heq : events ++ [event] = earlier ++ .submit :: later) :
    event = .submit ∧ events = earlier ∧ later = [] ∨
      ∃ before, later = before ++ [event] ∧ events = earlier ++ .submit :: before := by
  obtain rfl | ⟨before, last, rfl⟩ := List.eq_nil_or_concat' later
  · obtain ⟨hevents, hevent⟩ := List.append_inj' heq rfl
    exact Or.inl ⟨(List.cons.inj hevent).1, hevents, rfl⟩
  · rw [← List.cons_append, ← List.append_assoc] at heq
    obtain ⟨hevents, hevent⟩ := List.append_inj' heq rfl
    exact Or.inr ⟨before, by rw [hevent], hevents⟩

theorem exists_last_submission {events : List Event} (hsubmit : .submit ∈ events) :
    ∃ earlier later, events = earlier ++ .submit :: later ∧ .submit ∉ later := by
  obtain ⟨front, back, hreverse, hfront⟩ :=
    List.eq_append_cons_of_mem (List.mem_reverse.2 hsubmit)
  refine ⟨back.reverse, front.reverse, ?_, by simpa using hfront⟩
  have hevents := congrArg List.reverse hreverse
  simpa using hevents

namespace Session

/-- The session is what these events leave of a fresh one. -/
structure Follows (session : Session) (events : List Event) : Prop where
  typing : Typing (lastDraft events) session.input
  unsubmitted : .submit ∉ events →
    session.expression = [] ∧ session.result = [] ∧ session.intermediate = []
  /-- What is shown belongs to the last submission, and that was the draft before it. -/
  submitted : ∀ earlier later, events = earlier ++ .submit :: later → .submit ∉ later →
    Typing (lastDraft earlier) session.expression ∧
      (session.result, session.intermediate) = evaluate session.expression

theorem follows_fresh : fresh.Follows [] where
  typing := .nil
  unsubmitted _ := ⟨rfl, rfl, rfl⟩
  submitted earlier later hevents _ := by simp at hevents

/-- An edit leaves what is shown alone. -/
theorem Follows.edit {session : Session} {events : List Event} (hfollows : session.Follows events)
    (change : Edit) :
    Follows ⟨change.apply session.input, session.expression, session.result,
      session.intermediate⟩ (events ++ [.edit change]) where
  typing := by
    rw [lastDraft_concat, if_neg Event.noConfusion]
    exact hfollows.typing.concat change
  unsubmitted hsubmit := hfollows.unsubmitted fun hmem => hsubmit (List.mem_append_left _ hmem)
  submitted earlier later hevents hlater := by
    obtain ⟨hevent, -⟩ | ⟨before, rfl, hbefore⟩ := concat_eq_append_submit_cases hevents
    · cases hevent
    · exact hfollows.submitted earlier before hbefore fun hmem =>
        hlater (List.mem_append_left _ hmem)

/-- A submission shows what was typed since the one before it. -/
theorem Follows.submit {session : Session} {events : List Event}
    (hfollows : session.Follows events) : session.submit.Follows (events ++ [.submit]) where
  typing := by
    rw [lastDraft_concat]
    exact .nil
  unsubmitted hsubmit := absurd (List.mem_append_right events List.mem_cons_self) hsubmit
  submitted earlier later hevents hlater := by
    obtain ⟨-, rfl, -⟩ | ⟨before, rfl, -⟩ := concat_eq_append_submit_cases hevents
    · exact ⟨hfollows.typing, rfl⟩
    · exact absurd (List.mem_append_right before List.mem_cons_self) hlater

theorem Follows.update {session : Session} {events : List Event} {event : Event}
    (hfollows : session.Follows events) (hquit : event ≠ .quit) :
    ∃ next, session.update? event = some next ∧ next.Follows (events ++ [event]) := by
  cases event with
  | submit => exact ⟨_, rfl, hfollows.submit⟩
  | quit => exact absurd rfl hquit
  | edit change => exact ⟨_, rfl, hfollows.edit change⟩

theorem exists_follows {events : List Event} (hquit : .quit ∉ events) :
    ∃ session, fresh.updateAll? events = some session ∧ session.Follows events := by
  induction events using List.reverseRecOn with
  | nil => exact ⟨fresh, rfl, follows_fresh⟩
  | append_singleton events event ih =>
      obtain ⟨session, hsession, hfollows⟩ := ih fun hmem => hquit (List.mem_append_left _ hmem)
      have hevent : event ≠ .quit := by
        rintro rfl
        exact hquit (List.mem_append_right events List.mem_cons_self)
      obtain ⟨next, hnext, hfollowsNext⟩ := hfollows.update hevent
      refine ⟨next, ?_, hfollowsNext⟩
      rw [updateAll?] at hsession ⊢
      rw [List.foldlM_append, hsession]
      simpa using hnext

theorem Follows.length_expression_le {session : Session} {events : List Event}
    (hfollows : session.Follows events) : session.expression.length ≤ inputLimit := by
  by_cases hsubmit : .submit ∈ events
  · obtain ⟨earlier, later, hevents, hlater⟩ := exists_last_submission hsubmit
    exact (hfollows.submitted earlier later hevents hlater).1.length_le
  · rw [(hfollows.unsubmitted hsubmit).1]
    exact Nat.zero_le _

/-- Events before the last submission but one have left nothing. -/
theorem Follows.eq_of_submit {session other : Session} {front back : List Event}
    (hfollows : session.Follows (front ++ .submit :: back)) (hother : other.Follows back)
    (hsubmit : .submit ∈ back) : session = other := by
  obtain ⟨earlier, later, rfl, hlater⟩ := exists_last_submission hsubmit
  have htyping := hfollows.typing
  rw [lastDraft_append_submit] at htyping
  obtain ⟨hexpression, hresults⟩ :=
    hfollows.submitted (front ++ .submit :: earlier) later (by simp) hlater
  obtain ⟨hexpression', hresults'⟩ := hother.submitted earlier later rfl hlater
  rw [lastDraft_append_submit] at hexpression
  rw [hexpression.unique hexpression', ← hresults'] at hresults
  obtain ⟨hresult, hintermediate⟩ := Prod.mk.inj hresults
  rcases session with ⟨input, expression, result, intermediate⟩
  rw [Session.mk.injEq]
  exact ⟨htyping.unique hother.typing, hexpression.unique hexpression', hresult, hintermediate⟩

/-- Events that do not quit lead to a session that shows the last draft and the last
submission; both fit into the input, and events before the last submission but one make no
difference. -/
theorem updateAll?_fresh_follows {events : List Event} (hquit : .quit ∉ events) :
    ∃ session, fresh.updateAll? events = some session ∧ session.Follows events ∧
      session.input.length ≤ inputLimit ∧ session.expression.length ≤ inputLimit ∧
      ∀ front back, events = front ++ .submit :: back → .submit ∈ back →
        fresh.updateAll? back = some session := by
  obtain ⟨session, hsession, hfollows⟩ := exists_follows hquit
  refine ⟨session, hsession, hfollows, hfollows.typing.length_le,
    hfollows.length_expression_le, ?_⟩
  rintro front back rfl hsubmit
  have hback : .quit ∉ back := fun hmem => hquit (by simp [hmem])
  obtain ⟨other, hother, hfollowsOther⟩ := exists_follows hback
  rw [hfollows.eq_of_submit hfollowsOther hsubmit]
  exact hother

/-- Of two submissions and what was typed around them, only the second one and what follows
it are left. -/
theorem updateAll?_fresh_two_submissions :
    Event.quit ∉ ([.edit (.insert '√'), .submit, .edit (.insert '7'), .edit .backspace,
        .edit (.insert '3'), .submit, .edit .clear, .edit (.insert '√')] : List Event) ∧
      fresh.updateAll? [.edit (.insert '√'), .submit, .edit (.insert '7'), .edit .backspace,
          .edit (.insert '3'), .submit, .edit .clear, .edit (.insert '√')] =
        some ⟨['√'], ['3'], ['3', '.', '0', '0'], ['3', '.', '0', '0']⟩ := by
  have hquit : Event.quit ∉ ([.edit (.insert '√'), .submit, .edit (.insert '7'),
      .edit .backspace, .edit (.insert '3'), .submit, .edit .clear,
      .edit (.insert '√')] : List Event) := by
    decide
  refine ⟨hquit, ?_⟩
  obtain ⟨session, hsession, -, -, -, hback⟩ := updateAll?_fresh_follows hquit
  have hlast := hback [.edit (.insert '√')] [.edit (.insert '7'), .edit .backspace,
    .edit (.insert '3'), .submit, .edit .clear, .edit (.insert '√')] rfl (by decide)
  rw [hsession, ← hlast]
  decide +kernel

end Session

end Calculator

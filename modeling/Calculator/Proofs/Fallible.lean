/-!
# Steps that can fail

A chain of steps succeeds exactly if every step does, and fails with the fault of
the first one that does not.  What every step of a chain preserves, the whole
chain preserves, and a chain that fails does so at one of its steps.
-/

namespace Calculator

section Fallible

variable {Failure State Value Input : Type}

theorem bind_eq_ok_iff {first : Except Failure State} {second : State → Except Failure Value}
    {value : Value} :
    first >>= second = .ok value ↔ ∃ state, first = .ok state ∧ second state = .ok value := by
  cases first with
  | error failure => simp [bind, Except.bind]
  | ok state => simp [bind, Except.bind]

theorem bind_eq_error_iff {first : Except Failure State} {second : State → Except Failure Value}
    {failure : Failure} :
    first >>= second = .error failure ↔
      first = .error failure ∨ ∃ state, first = .ok state ∧ second state = .error failure := by
  cases first with
  | error failure => simp [bind, Except.bind]
  | ok state => simp [bind, Except.bind]

section Chains

variable {step : State → Input → Except Failure State} {state final : State}

theorem foldlM_cons_eq_ok_iff {input : Input} {inputs : List Input} :
    (input :: inputs).foldlM step state = .ok final ↔
      ∃ next, step state input = .ok next ∧ inputs.foldlM step next = .ok final := by
  rw [List.foldlM_cons]
  exact bind_eq_ok_iff

theorem foldlM_append_eq_ok_iff {front back : List Input} :
    (front ++ back).foldlM step state = .ok final ↔
      ∃ reached, front.foldlM step state = .ok reached ∧ back.foldlM step reached = .ok final := by
  rw [List.foldlM_append]
  exact bind_eq_ok_iff

/-- A relation that holds of no inputs, and is extended by a step in front, holds
of every run. -/
theorem foldlM_induction {motive : State → List Input → State → Prop}
    (nil : ∀ state, motive state [] state)
    (cons : ∀ state next final input inputs, step state input = .ok next →
      motive next inputs final → motive state (input :: inputs) final)
    {inputs : List Input} (hrun : inputs.foldlM step state = .ok final) :
    motive state inputs final := by
  induction inputs generalizing state with
  | nil =>
      cases hrun
      exact nil _
  | cons input inputs ih =>
      obtain ⟨next, hstep, hrest⟩ := foldlM_cons_eq_ok_iff.1 hrun
      exact cons state next final input inputs hstep (ih hrest)

/-- A run fails at one of its inputs, behind others that it takes in. -/
theorem foldlM_eq_error {inputs : List Input} {failure : Failure}
    (hrun : inputs.foldlM step state = .error failure) :
    ∃ front input back reached, inputs = front ++ input :: back ∧
      front.foldlM step state = .ok reached ∧ step reached input = .error failure := by
  induction inputs generalizing state with
  | nil => cases hrun
  | cons input inputs ih =>
      rw [List.foldlM_cons] at hrun
      obtain hstep | ⟨next, hstep, hrest⟩ := bind_eq_error_iff.1 hrun
      · exact ⟨[], input, inputs, state, rfl, rfl, hstep⟩
      · obtain ⟨front, failing, back, reached, rfl, hfront, hfailing⟩ := ih hrest
        exact ⟨input :: front, failing, back, reached, rfl,
          foldlM_cons_eq_ok_iff.2 ⟨next, hstep, hfront⟩, hfailing⟩

end Chains

end Fallible

end Calculator

import Calculator.Proofs.Guarded
import Calculator.Proofs.Labels

/-!
# No guard fails

Whatever the text, every test of the guarded calculator holds, and with its tests it gives what
the calculator gives without them.  The cursor of a text never leaves it, and stands between two
characters; the tokens of a text, and so those of its postfix form, lie inside it; and the count
of a power never passes the exponent, which fits a word because it is held there.
-/

namespace Calculator

namespace Guarded

section Tests

theorem difference?_of_le {larger smaller : Nat} (hle : smaller ≤ larger) :
    difference? larger smaller = some (larger - smaller) :=
  if_pos hle

theorem advance?_of_le {limit position distance : Nat} (hle : position + distance ≤ limit) :
    advance? limit position distance = some (position + distance) :=
  if_pos hle

theorem span?_add (start length : Nat) : span? start (start + length) = some ⟨start, length⟩ := by
  rw [span?, difference?_of_le (Nat.le_add_right _ _), Nat.add_sub_cancel_left]
  rfl

theorem word?_of_mem {number : Int} (hlower : -2 ^ 63 ≤ number) (hupper : number < 2 ^ 63) :
    word? number = some number :=
  if_pos ⟨hlower, hupper⟩

theorem word?_natCast {number : Nat} (hbound : number < 2 ^ 63) :
    word? number = some (number : Int) :=
  word?_of_mem (by omega) (by omega)

theorem front?_append (front back : Text) :
    front? (front ++ back) front.byteLength = some front := by
  simp [front?]

theorem back?_append (front back : Text) :
    back? (front ++ back) front.byteLength = some back := by
  simp [back?]

/-- No text is cut inside a character. -/
example : front? ['√', '2'] 1 = none ∧ back? ['√', '2'] 2 = none := by decide

end Tests

section Outcomes

variable {Value Next : Type}

theorem ofExcept_bind (outcome : Except Fault Value) (next : Value → Except Fault Next) :
    ofExcept (outcome >>= next) = ofExcept outcome >>= fun value => ofExcept (next value) := by
  cases outcome with
  | ok value => rfl
  | error fault => rfl

theorem ofExcept_ok_bind (value : Value) (next : Value → Guarded Next) :
    ofExcept (.ok value) >>= next = next value := rfl

theorem some_bind (value : Value) (next : Value → Guarded Next) :
    (liftM (some value) : Guarded Value) >>= next = next value := rfl

theorem foldlM_ofExcept {State Input : Type} {guarded : State → Input → Guarded State}
    {step : State → Input → Except Fault State} {inputs : List Input}
    (hstep : ∀ input ∈ inputs, ∀ state, guarded state input = ofExcept (step state input))
    (state : State) : inputs.foldlM guarded state = ofExcept (inputs.foldlM step state) := by
  induction inputs generalizing state with
  | nil => rfl
  | cons input inputs ih =>
      obtain ⟨hfirst, hrest⟩ := List.forall_mem_cons.1 hstep
      rw [List.foldlM_cons, List.foldlM_cons, ofExcept_bind, hfirst]
      congr 1
      funext next
      exact ih hrest next

end Outcomes

section Cutting

section Runs

variable (condition : Char → Bool) (text : Text)

theorem byteLength_takeWhile_add :
    Text.byteLength (text.takeWhile condition) + Text.byteLength (text.dropWhile condition) =
      text.byteLength := by
  rw [← Text.byteLength_append, List.takeWhile_append_dropWhile]

theorem front?_takeWhile :
    front? text (Text.byteLength (text.takeWhile condition)) = some (text.takeWhile condition) := by
  have hfront := front?_append (text.takeWhile condition) (text.dropWhile condition)
  rwa [List.takeWhile_append_dropWhile] at hfront

theorem back?_takeWhile :
    back? text (Text.byteLength (text.takeWhile condition)) = some (text.dropWhile condition) := by
  have hback := back?_append (text.takeWhile condition) (text.dropWhile condition)
  rwa [List.takeWhile_append_dropWhile] at hback

/-- The first other character stands behind the run of those that satisfy the condition. -/
theorem getD_position? :
    (position? (fun character => !condition character) text).getD text.byteLength =
      Text.byteLength (text.takeWhile condition) := by
  induction text with
  | nil => rfl
  | cons character rest ih =>
      rw [position?]
      cases hcondition : condition character with
      | false => simp [hcondition]
      | true =>
          rw [List.takeWhile_cons_of_pos hcondition, Text.byteLength_cons, Text.byteLength_cons,
            ← ih]
          cases position? (fun character => !condition character) rest <;> simp

end Runs

/-- The character that is refused ends inside the text. -/
theorem validate_eq (text : Text) : validate text = ofExcept text.validate := by
  rw [validate, Text.validate]
  cases hrest : text.dropWhile isAllowed with
  | nil => rfl
  | cons character rest =>
      have hinside : Text.byteLength (text.takeWhile isAllowed) + character.utf8Size ≤
          text.byteLength := by
        have hlength := byteLength_takeWhile_add isAllowed text
        rw [hrest, Text.byteLength_cons] at hlength
        omega
      simp only [advance?_of_le hinside, span?_add, some_bind]
      rfl

/-- A cursor that stands in front of all that is left of a text cuts inside it. -/
theorem next?_eq {limit : Nat} {cursor : Cursor}
    (hinside : cursor.position + cursor.rest.byteLength ≤ limit) :
    next? limit cursor = some cursor.next? := by
  rcases cursor with ⟨position, _ | ⟨first, rest⟩⟩
  · rfl
  · simp only [Text.byteLength_cons] at hinside
    have hsymbol : front? (first :: rest) first.utf8Size = some [first] := by
      simpa using front?_append [first] rest
    have hposition : advance? limit position first.utf8Size = some (position + first.utf8Size) :=
      advance?_of_le (by omega)
    simp only [next?, Cursor.next?, hsymbol, hposition, Option.bind_eq_bind, Option.bind_some]
    split
    · next hnumeral =>
        have hrun := List.takeWhile_cons_of_pos (l := rest) hnumeral
        have hliteral := front?_takeWhile Cursor.isNumeral (first :: rest)
        have hextra : difference? (Text.byteLength (first :: rest.takeWhile Cursor.isNumeral))
            first.utf8Size = some (Text.byteLength (rest.takeWhile Cursor.isNumeral)) := by
          rw [Text.byteLength_cons, difference?_of_le (Nat.le_add_right _ _),
            Nat.add_sub_cancel_left]
        have hfinish : position + first.utf8Size +
            Text.byteLength (rest.takeWhile Cursor.isNumeral) ≤ limit := by
          have hlength := byteLength_takeWhile_add Cursor.isNumeral rest
          omega
        rw [hrun] at hliteral
        rw [getD_position?, hrun, hliteral]
        simp only [Option.bind_some, hextra, advance?_of_le hfinish, back?_takeWhile]
        rw [Text.byteLength_cons, Nat.add_assoc]
        rfl
    · cases Token.Kind.ofChar? first with
      | some kind => rfl
      | none =>
          rw [span?_add]
          rfl

theorem items?_of_end {limit : Nat} {cursor : Cursor} (hnext : next? limit cursor = some none) :
    items? limit cursor = some [] := by
  rw [items?]
  split
  · next hnone => rw [hnext] at hnone; cases hnone
  · rfl
  · next hsome => rw [hnext] at hsome; cases hsome

theorem items?_of_next? {limit : Nat} {cursor behind : Cursor} {item : Item}
    (hnext : next? limit cursor = some (some (item, behind))) :
    items? limit cursor = (items? limit behind).map (item :: ·) := by
  rw [items?]
  split
  · next hnone => rw [hnext] at hnone; cases hnone
  · next hend => rw [hnext] at hend; cases hend
  · next hsome =>
      rw [hnext] at hsome
      cases hsome
      rfl

theorem items?_eq {limit : Nat} {cursor : Cursor}
    (hinside : cursor.position + cursor.rest.byteLength ≤ limit) :
    items? limit cursor = some cursor.items := by
  induction cursor using Cursor.steps.induct with
  | case1 cursor hend =>
      rw [items?_of_end (by rw [next?_eq hinside, hend]), Cursor.items, Cursor.steps]
      split
      · rfl
      · next hsome => rw [hend] at hsome; cases hsome
  | case2 cursor item behind hnext hshorter ih =>
      obtain ⟨hrest, -, hposition⟩ := Cursor.next?_eq_some hnext
      have hbehind : behind.position + behind.rest.byteLength ≤ limit := by
        rw [hrest, Text.byteLength_append, ← Nat.add_assoc, ← hposition] at hinside
        exact hinside
      rw [items?_of_next? (by rw [next?_eq hinside, hnext]), ih hbehind,
        Cursor.items_of_next? hnext]
      rfl

end Cutting

section Conversion

/-- A token of a text ends inside it. -/
theorem finish_le_of_mem {source : Text} {token : Token}
    (hmem : token ∈ (Cursor.start source).tokens) : token.finish ≤ source.byteLength := by
  obtain ⟨before, after, hstands⟩ := Cursor.exists_standsBetween_start hmem
  rw [Token.finish, hstands.offset_eq, hstands.source_eq, Text.byteLength_append,
    Text.byteLength_append]
  omega

theorem fault?_eq {source : Text} {token : Token} (hinside : token.finish ≤ source.byteLength)
    (cause : Cause) : fault? source token cause = some (token.fault source cause) := by
  rw [fault?, advance?_of_le hinside]
  simp [span?_add, Token.fault, Token.span]

theorem stepItem_eq {source : Text} {item : Item} (hmem : item ∈ source.items) (yard : Yard) :
    stepItem source yard item = ofExcept (yard.stepItem source item) := by
  cases item with
  | stray character position => rfl
  | token found =>
      have hinside := finish_le_of_mem (Cursor.mem_tokens_iff.2 hmem)
      have hitem : yard.stepItem source (.token found) = yard.step source found := rfl
      rw [hitem, stepItem, Item.toToken, ofExcept_ok_bind]
      cases hstep : yard.step source found with
      | ok next => rfl
      | error fault =>
          obtain ⟨-, -, rfl⟩ := Yard.step_eq_error_iff.1 hstep
          simp only [fault?_eq hinside, some_bind]
          rfl

theorem drain_eq {source : Text} {yard : Yard}
    (hpending : ∀ token ∈ yard.pending, token.finish ≤ source.byteLength) :
    drain source yard = ofExcept (yard.drain source) := by
  rw [drain, Yard.drain]
  cases hfind : yard.pending.find? Token.isParen with
  | none => rfl
  | some token =>
      simp only [fault?_eq (hpending token (List.mem_of_find?_eq_some hfind)), some_bind]
      rfl

theorem ofText_eq (source : Text) : ofText source = ofExcept (Rpn.ofText source) := by
  have hitems : items? source.byteLength (Cursor.start source) = some source.items :=
    items?_eq (Nat.zero_add _).le
  rw [ofText, hitems, some_bind, foldlM_ofExcept fun item hmem yard => stepItem_eq hmem yard,
    Rpn.ofText, ofExcept_bind]
  cases hrun : source.items.foldlM (Yard.stepItem source) Yard.empty with
  | error fault => rfl
  | ok yard =>
      have htracks : yard.Tracks (Cursor.start source).tokens := Yard.tracks_of_run hrun
      have hdrain := drain_eq fun token hmem => finish_le_of_mem (htracks.mem_of_mem_pending hmem)
      change drain source yard >>= _ = ofExcept (yard.drain source >>= _)
      rw [hdrain, ofExcept_bind]
      rfl

end Conversion

section Running

/-- An exponent is held within the range of a word. -/
theorem truncate_mem (value : Binary64) : -2 ^ 63 ≤ value.truncate ∧ value.truncate < 2 ^ 63 := by
  cases value with
  | nan => decide
  | infinity negative => cases negative <;> decide
  | finite negative magnitude =>
      rw [Binary64.truncate]
      generalize magnitude.units / Binary64.unitsInOne = whole
      cases negative with
      | false =>
          have hheld : min whole (2 ^ 63 - 1) ≤ 2 ^ 63 - 1 := Nat.min_le_right _ _
          rw [if_neg Bool.false_ne_true]
          generalize min whole (2 ^ 63 - 1) = held at hheld ⊢
          omega
      | true =>
          have hheld : min whole (2 ^ 63) ≤ 2 ^ 63 := Nat.min_le_right _ _
          rw [if_pos rfl]
          generalize min whole (2 ^ 63) = held at hheld ⊢
          omega

theorem powerFrom?_of_lt (base : Binary64) {count done reached : Int} (hless : done < count)
    (hreached : word? (done + 1) = some reached) (value : Binary64) :
    powerFrom? base count value done =
      if base.isSettled (value.mul base) then do
        let remaining ← word? (count - reached)
        return ⟨if base.signBit && remaining.tmod 2 == 1 then (value.mul base).neg
          else value.mul base, reached.toNat⟩
      else powerFrom? base count (value.mul base) reached := by
  rw [powerFrom?, dif_pos hless]
  split
  · next hnone => rw [hreached] at hnone; cases hnone
  · next other hother =>
      rw [hreached] at hother
      cases hother
      rfl

/-- What is done and what is left both stay within the exponent. -/
theorem powerFrom?_eq (base : Binary64) {remaining done : Nat} (hcount : done + remaining < 2 ^ 63)
    (value : Binary64) :
    powerFrom? base (done + remaining : Nat) value done =
      some (base.powerFrom remaining value done) := by
  induction remaining generalizing value done with
  | zero =>
      rw [powerFrom?, dif_neg (by omega)]
      rfl
  | succ remaining ih =>
      have hreached : word? ((done : Int) + 1) = some ((done + 1 : Nat) : Int) := by
        rw [← Int.natCast_succ]
        exact word?_natCast (by omega)
      have hless : (done : Int) < (done + (remaining + 1) : Nat) := by omega
      have hdifference : ((done + (remaining + 1) : Nat) : Int) - ((done + 1 : Nat) : Int) =
          (remaining : Int) := by omega
      have hleft : word? (remaining : Int) = some (remaining : Int) := word?_natCast (by omega)
      have hparity : ((remaining : Int).tmod 2 == 1) = (remaining % 2 == 1) := by
        rw [Bool.eq_iff_iff, beq_iff_eq, beq_iff_eq, Int.tmod_eq_emod_of_nonneg (by omega)]
        omega
      rw [powerFrom?_of_lt base hless hreached, hdifference, hleft, Binary64.powerFrom]
      simp only [Option.bind_eq_bind, Option.bind_some, hparity]
      split
      · rfl
      · have hsplit : done + (remaining + 1) = done + 1 + remaining := by omega
        rw [hsplit]
        exact ih (by omega) _

theorem power?_eq (base exponent : Binary64) :
    power? base exponent = some (base.power exponent) := by
  obtain ⟨hlower, hupper⟩ := truncate_mem exponent
  have hrun : powerFrom? base exponent.truncate .one 0 = some (base.powerRun exponent) := by
    rw [Binary64.powerRun, Binary64.repetitions]
    rcases Int.lt_or_le 0 exponent.truncate with hpositive | hnonpos
    · have hbound : 0 + exponent.truncate.toNat < 2 ^ 63 := by omega
      have hcount := powerFrom?_eq base hbound .one
      rw [Nat.zero_add, Int.toNat_of_nonneg (Int.le_of_lt hpositive)] at hcount
      exact hcount
    · rw [powerFrom?, dif_neg (Int.not_lt.2 hnonpos), Int.toNat_of_nonpos hnonpos]
      rfl
  rw [power?, word?_of_mem hlower hupper, Option.bind_eq_bind, Option.bind_some, hrun]
  rfl

theorem combine?_eq (token : Token) (left right : Binary64) :
    combine? token left right = some (token.combine left right) := by
  rw [combine?, Token.combine]
  cases token.kind with
  | number => rfl
  | leftParen => rfl
  | rightParen => rfl
  | operator applied =>
    cases applied with
    | caret => simp [power?_eq, Operator.apply]
    | _ => rfl

theorem lowest_length (upper lower : List Binary64) :
    lowest lower.length (upper ++ lower) = lower := by
  simp [lowest]

theorem step_eq {source : Text} {token : Token} (hinside : token.finish ≤ source.byteLength)
    (stack : List Binary64) : step source stack token = ofExcept (Rpn.step source stack token) := by
  unfold step Rpn.step
  cases token.value? with
  | some value => rfl
  | none =>
      rcases stack with _ | ⟨right, _ | ⟨left, below⟩⟩
      · simp only [fault?_eq hinside, some_bind]
        rfl
      · simp only [fault?_eq hinside, some_bind]
        rfl
      · have hheight : difference? (right :: left :: below).length 2 = some below.length :=
          difference?_of_le (Nat.le_add_left _ _)
        have hlowest : lowest below.length (right :: left :: below) = below :=
          lowest_length [right, left] below
        simp only [hheight, combine?_eq, hlowest, some_bind]
        cases token.combine left right with
        | ok value => rfl
        | error cause =>
            simp only [fault?_eq hinside, some_bind]
            rfl

theorem result_eq (source : Text) (stack : List Binary64) :
    result source stack = ofExcept (Rpn.result source stack) := by
  have hspan : span? 0 source.byteLength = some ⟨0, source.byteLength⟩ := by
    simpa using span?_add 0 source.byteLength
  rcases stack with _ | ⟨value, _ | ⟨other, below⟩⟩
  · simp only [result, hspan, some_bind]
    rfl
  · rfl
  · simp only [result, hspan, some_bind]
    rfl

theorem evaluateRpn_eq {source : Text} {rpn : Rpn} (hconverts : Rpn.ofText source = .ok rpn) :
    evaluateRpn rpn = ofExcept rpn.evaluate := by
  obtain ⟨yard, hrun, hpending, rfl⟩ := Rpn.ofText_eq_ok_iff.1 hconverts
  obtain ⟨-, -, -, -, htokens⟩ := Rpn.exists_tracks_of_ofText hconverts
  have hsteps : ∀ token ∈ yard.emitted.reverse ++ yard.pending, ∀ stack,
      step source stack token = ofExcept (Rpn.step source stack token) :=
    fun token hmem stack => step_eq (finish_le_of_mem (htokens token hmem).1) stack
  rw [evaluateRpn, foldlM_ofExcept hsteps, Rpn.evaluate, ofExcept_bind]
  simp only [result_eq]

end Running

theorem calculate_eq (text : Text) : calculate text = ofExcept (Calculator.calculate text) := by
  rw [calculate, Calculator.calculate, convert, validate_eq, ofText_eq]
  cases text.validate with
  | error fault => rfl
  | ok =>
      cases hconverts : Rpn.ofText text with
      | error fault => rfl
      | ok rpn => exact evaluateRpn_eq hconverts

theorem evaluation?_eq (text : Text) : evaluation? text = some (Evaluation.ofText text) := by
  rw [evaluation?, Evaluation.ofText]
  simp only [calculate_eq]
  cases Calculator.calculate text.strip with
  | error fault => rfl
  | ok value => rfl

end Guarded

/-- Every stage has its outcome under guard, and the same as without: no text is cut outside a
boundary of its characters, no difference of lengths and no span is negative, and no position
or count leaves its range. -/
theorem guards_hold (text : Text) :
    Guarded.validate text = Guarded.ofExcept text.validate ∧
      Guarded.items? text.byteLength (Cursor.start text) = some text.items ∧
      Guarded.ofText text = Guarded.ofExcept (Rpn.ofText text) ∧
      (∀ rpn, Rpn.ofText text = .ok rpn →
        Guarded.evaluateRpn rpn = Guarded.ofExcept rpn.evaluate) ∧
      Guarded.calculate text = Guarded.ofExcept (calculate text) ∧
      Guarded.evaluate? text = some (evaluate text) ∧
      ∀ base exponent, Guarded.power? base exponent = some (base.power exponent) := by
  refine ⟨Guarded.validate_eq text, Guarded.items?_eq (Nat.zero_add _).le, Guarded.ofText_eq text,
    fun rpn hconverts => Guarded.evaluateRpn_eq hconverts, Guarded.calculate_eq text, ?_,
    Guarded.power?_eq⟩
  rw [Guarded.evaluate?, Guarded.evaluation?_eq]
  rfl

/-- A root is three bytes long: its fault starts and ends between characters. -/
theorem guards_hold_root :
    Rpn.ofText ['√', '1'] =
        .ok ⟨['√', '1'], [⟨.number, ['1'], 3⟩, ⟨.operator .root, ['√'], 0⟩]⟩ ∧
      Guarded.evaluateRpn
          ⟨['√', '1'], [⟨.number, ['1'], 3⟩, ⟨.operator .root, ['√'], 0⟩]⟩ =
        Guarded.ofExcept (.error ⟨.missingOperands ['√'], ⟨0, 3⟩, ['√', '1']⟩) := by
  have hconverts : Rpn.ofText ['√', '1'] =
      .ok ⟨['√', '1'], [⟨.number, ['1'], 3⟩, ⟨.operator .root, ['√'], 0⟩]⟩ := by
    decide +kernel
  obtain ⟨-, -, -, hevaluate, -⟩ := guards_hold ['√', '1']
  have hfails : Rpn.evaluate ⟨['√', '1'], [⟨.number, ['1'], 3⟩, ⟨.operator .root, ['√'], 0⟩]⟩ =
      .error ⟨.missingOperands ['√'], ⟨0, 3⟩, ['√', '1']⟩ := by
    decide +kernel
  rw [← hfails]
  exact ⟨hconverts, hevaluate _ hconverts⟩

end Calculator

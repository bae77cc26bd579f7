import Calculator.Evaluation

/-!
# The calculator under guard

The stages of the calculator once more, on byte positions and machine words.  A text is cut
only at a position between two of its characters, a difference of lengths is no less than zero,
a position stays inside its text, a span ends no earlier than it starts, and what a power
counts fits a signed 64-bit word.  Each of these is tested where it is relied on, and a test
that fails leaves the stage without any outcome, neither a value nor a fault.
-/

namespace Calculator

/-- The outcome of a guarded stage: a value or a fault, or nothing when a test fails. -/
abbrev Guarded := ExceptT Fault Option

namespace Guarded

/-- The guarded form of an outcome that tests nothing. -/
def ofExcept {Value : Type} (outcome : Except Fault Value) : Guarded Value :=
  ExceptT.mk (some outcome)

section Tests

/-- A difference that is not less than zero. -/
def difference? (larger smaller : Nat) : Option Nat :=
  if smaller ≤ larger then some (larger - smaller) else none

/-- A position moved on, but not out of a text that has `limit` bytes. -/
def advance? (limit position distance : Nat) : Option Nat :=
  if position + distance ≤ limit then some (position + distance) else none

/-- The span from one position to another that is not before it. -/
def span? (start finish : Nat) : Option Span :=
  (difference? finish start).map fun length => ⟨start, length⟩

/-- A number that a signed 64-bit word holds. -/
def word? (number : Int) : Option Int :=
  if -2 ^ 63 ≤ number ∧ number < 2 ^ 63 then some number else none

/-- The part of a text before a position between two of its characters. -/
def front? (text : Text) (position : Nat) : Option Text :=
  (text.divide? position).map Prod.fst

/-- The part of a text behind a position between two of its characters. -/
def back? (text : Text) (position : Nat) : Option Text :=
  (text.divide? position).map Prod.snd

end Tests

theorem length_le_of_divide? {text front back : Text} {position : Nat}
    (hdivide : text.divide? position = some (front, back)) : back.length ≤ text.length := by
  induction text generalizing front position with
  | nil =>
      cases position with
      | zero =>
          cases hdivide
          exact Nat.le_refl _
      | succ position => cases hdivide
  | cons character rest ih =>
      cases position with
      | zero =>
          cases hdivide
          exact Nat.le_refl _
      | succ position =>
          rw [Text.divide?] at hdivide
          split at hdivide
          · obtain ⟨⟨before, behind⟩, hrest, hparts⟩ := Option.map_eq_some_iff.1 hdivide
            cases hparts
            exact Nat.le_succ_of_le (ih hrest)
          · cases hdivide

theorem length_le_of_back? {text behind : Text} {position : Nat}
    (hback : back? text position = some behind) : behind.length ≤ text.length := by
  obtain ⟨⟨front, back⟩, hdivide, rfl⟩ := Option.map_eq_some_iff.1 hback
  exact length_le_of_divide? hdivide

section Cutting

/-- The position of the first character that satisfies a condition. -/
def position? (condition : Char → Bool) : Text → Option Nat
  | [] => none
  | character :: rest =>
      if condition character then some 0
      else (position? condition rest).map (character.utf8Size + ·)

/-- Refuses a text at its first character outside the alphabet. -/
def validate (text : Text) : Guarded Unit :=
  match text.dropWhile isAllowed with
  | [] => return ()
  | character :: _ => do
      let offset := Text.byteLength (text.takeWhile isAllowed)
      let finish ← advance? text.byteLength offset character.utf8Size
      throw ⟨.unexpectedCharacter character, ← span? offset finish, text⟩

/-- A step of a cursor over a text of `limit` bytes.  A number is cut off at the position
where the first other character stands. -/
def next? (limit : Nat) (cursor : Cursor) : Option (Option (Item × Cursor)) :=
  match cursor.rest with
  | [] => some none
  | first :: rest => do
      let symbol ← front? (first :: rest) first.utf8Size
      let position ← advance? limit cursor.position first.utf8Size
      if Cursor.isNumeral first then
        let finish :=
          (position? (fun character => !Cursor.isNumeral character) (first :: rest)).getD
            (Text.byteLength (first :: rest))
        let literal ← front? (first :: rest) finish
        let extra ← difference? literal.byteLength first.utf8Size
        let position ← advance? limit position extra
        let behind ← back? rest extra
        return some (.token ⟨.number, literal, cursor.position⟩, ⟨position, behind⟩)
      else
        match Token.Kind.ofChar? first with
        | some kind => return some (.token ⟨kind, symbol, cursor.position⟩, ⟨position, rest⟩)
        | none =>
            let span ← span? cursor.position position
            return some (.stray first span.offset, ⟨position, rest⟩)

theorem next?_shorter {limit : Nat} {cursor behind : Cursor} {item : Item}
    (hnext : next? limit cursor = some (some (item, behind))) :
    behind.rest.length < cursor.rest.length := by
  unfold next? at hnext
  split at hnext
  · cases hnext
  · next first rest hrest =>
      rw [hrest]
      simp only [Option.bind_eq_bind, Option.bind_eq_some_iff] at hnext
      obtain ⟨symbol, -, position, -, hnext⟩ := hnext
      split at hnext
      · simp only [Option.bind_eq_some_iff] at hnext
        obtain ⟨literal, -, extra, -, finish, -, tail, hback, hnext⟩ := hnext
        cases hnext
        exact Nat.lt_succ_of_le (length_le_of_back? hback)
      · split at hnext
        · cases hnext
          exact Nat.lt_succ_self _
        · simp only [Option.bind_eq_some_iff] at hnext
          obtain ⟨span, -, hnext⟩ := hnext
          cases hnext
          exact Nat.lt_succ_self _

/-- The items that a cursor finds up to the end. -/
def items? (limit : Nat) (cursor : Cursor) : Option (List Item) :=
  match hnext : next? limit cursor with
  | none => none
  | some none => some []
  | some (some (item, behind)) =>
      have := next?_shorter hnext
      (items? limit behind).map (item :: ·)
termination_by cursor.rest.length

end Cutting

section Conversion

/-- The fault of a token of the source, with the span from its start to its end. -/
def fault? (source : Text) (token : Token) (cause : Cause) : Option Fault := do
  let finish ← advance? source.byteLength token.offset token.literal.byteLength
  return ⟨cause, ← span? token.offset finish, source⟩

/-- Takes in the token that an item is. -/
def stepItem (source : Text) (yard : Yard) (item : Item) : Guarded Yard := do
  let token ← ofExcept (item.toToken source)
  match yard.step source token with
  | .ok next => return next
  | .error fault => throw (← fault? source token fault.cause)

def drain (source : Text) (yard : Yard) : Guarded (List Token) :=
  match yard.pending.find? Token.isParen with
  | some token => do throw (← fault? source token .unbalancedParenthesis)
  | none => return yard.emitted.reverse ++ yard.pending

def ofText (source : Text) : Guarded Rpn := do
  let items ← items? source.byteLength (Cursor.start source)
  let yard ← items.foldlM (stepItem source) Yard.empty
  return ⟨source, ← drain source yard⟩

end Conversion

section Running

theorem toNat_sub_lt {count done reached : Int} (hless : done < count)
    (hreached : word? (done + 1) = some reached) :
    (count - reached).toNat < (count - done).toNat := by
  unfold word? at hreached
  split at hreached
  · cases hreached
    omega
  · cases hreached

/-- Counts the multiplications done in a word, up to `count`. -/
def powerFrom? (base : Binary64) (count : Int) (value : Binary64) (done : Int) :
    Option Binary64.PowerRun :=
  if hless : done < count then
    match hreached : word? (done + 1) with
    | none => none
    | some reached =>
        let next := value.mul base
        if base.isSettled next then do
          let remaining ← word? (count - reached)
          return ⟨if base.signBit && remaining.tmod 2 == 1 then next.neg else next, reached.toNat⟩
        else
          have := toNat_sub_lt hless hreached
          powerFrom? base count next reached
  else some ⟨value, done.toNat⟩
termination_by (count - done).toNat

def power? (base exponent : Binary64) : Option Binary64 := do
  let count ← word? exponent.truncate
  let run ← powerFrom? base count .one 0
  return run.value

/-- What a token makes of its operands. -/
def combine? (token : Token) (left right : Binary64) : Option (Except Cause Binary64) :=
  match token.kind with
  | .operator .caret => (power? left right).map .ok
  | _ => some (token.combine left right)

/-- The lowest values of a stack, its top first, up to a height. -/
def lowest (height : Nat) (stack : List Binary64) : List Binary64 :=
  stack.drop (stack.length - height)

def step (source : Text) (stack : List Binary64) (token : Token) : Guarded (List Binary64) :=
  match token.value? with
  | some value => return value :: stack
  | none =>
      match stack with
      | right :: left :: _ => do
          let height ← difference? stack.length 2
          match ← combine? token left right with
          | .ok value => return value :: lowest height stack
          | .error cause => throw (← fault? source token cause)
      | _ => do throw (← fault? source token (.missingOperands token.literal))

def result (source : Text) : List Binary64 → Guarded Binary64
  | [value] => return value
  | stack => do throw ⟨.leftoverValues stack.length, ← span? 0 source.byteLength, source⟩

def evaluateRpn (rpn : Rpn) : Guarded Binary64 := do
  let stack ← rpn.tokens.foldlM (step rpn.source) []
  result rpn.source stack

end Running

def calculate (text : Text) : Guarded Binary64 := do
  validate text
  evaluateRpn (← ofText text)

def evaluation? (text : Text) : Option Evaluation := do
  let expression := text.strip
  let result ← (calculate expression).run
  let intermediate ←
    match result with
    | .ok _ => (calculate expression.relaxed).run.map Except.toOption
    | .error _ => some none
  return ⟨expression, result, intermediate⟩

def evaluate? (text : Text) : Option (Text × Text) := do
  let evaluation ← evaluation? text
  return (evaluation.resultText, evaluation.intermediateText)

end Guarded

end Calculator

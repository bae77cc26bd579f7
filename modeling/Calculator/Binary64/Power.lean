import Calculator.Binary64.Arithmetic

/-!
# Powers by repeated multiplication

A power multiplies one by its base as often as the truncated exponent says, and
not at all when that is negative.  A run stops early once the value is zero,
infinite or not a number, or when the base is one or minus one: from then on
only the sign can change, and it follows the parity of what is left to do.  The
plain product, which never stops early, is the definition to compare it with.
-/

namespace Calculator.Binary64

/-- The outcome of a run, with the number of multiplications it made. -/
structure PowerRun where
  value : Binary64
  multiplications : Nat
deriving DecidableEq

/-- Only the sign of a power can still change. -/
def isSettled (base value : Binary64) : Bool :=
  value.isZero || !value.isFinite || base.isUnit

/-- Runs the `remaining` multiplications of a power that has reached `value`
after `done` of them. -/
def powerFrom (base : Binary64) : Nat → Binary64 → Nat → PowerRun
  | 0, value, done => ⟨value, done⟩
  | remaining + 1, value, done =>
      let next := mul value base
      if isSettled base next then
        ⟨if base.signBit && remaining % 2 == 1 then neg next else next, done + 1⟩
      else powerFrom base remaining next (done + 1)

/-- The number of multiplications that an exponent asks for. -/
def repetitions (exponent : Binary64) : Nat :=
  exponent.truncate.toNat

def powerRun (base exponent : Binary64) : PowerRun :=
  powerFrom base (repetitions exponent) one 0

def power (base exponent : Binary64) : Binary64 :=
  (powerRun base exponent).value

/-- One multiplied by the base `count` times. -/
def product (base : Binary64) : Nat → Binary64
  | 0 => one
  | count + 1 => mul (product base count) base

end Calculator.Binary64

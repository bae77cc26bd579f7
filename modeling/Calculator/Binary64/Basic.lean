import Calculator.Binary64.Rounding

/-!
# Binary64 values

A finite binary64 value is a sign and a magnitude, and a magnitude is a whole
number of least subnormals: one such unit is `2 ^ -1074`.  The numbers of units
that occur are those on the grid below the units of `2 ^ 1024`, so a value is determined by
its sign and its number of units, zeros of both signs included.  There is one
value that is not a number.
-/

namespace Calculator

namespace Binary64

/-- The least subnormal is `2 ^ -fractionBits`. -/
def fractionBits : Nat := 1074

/-- The number of units in one. -/
def unitsInOne : Nat := 2 ^ fractionBits

/-- The number of units at which rounding overflows. -/
def overflowUnits : Nat := 2 ^ (fractionBits + 1024)

/-- The absolute value of a finite value, in units of the least subnormal. -/
structure Magnitude where
  units : Nat
  onGrid : OnGrid units
  bounded : units < overflowUnits
deriving DecidableEq

end Binary64

/-- A value of the IEEE 754 format binary64. -/
inductive Binary64
  | nan
  | infinity (negative : Bool)
  | finite (negative : Bool) (magnitude : Binary64.Magnitude)
deriving DecidableEq

namespace Binary64

/-- The value of a number of units on the grid, infinite when that overflows. -/
def ofUnits (negative : Bool) (units : Nat) (hgrid : OnGrid units) : Binary64 :=
  if hbounded : units < overflowUnits then .finite negative ⟨units, hgrid, hbounded⟩
  else .infinity negative

/-- The value nearest to a quotient in units. -/
def ofQuotient (negative : Bool) (numerator denominator : Nat) : Binary64 :=
  ofUnits negative (roundToGrid numerator denominator) (onGrid_roundToGrid numerator denominator)

theorem ofQuotient_of_magnitude (negative : Bool) (magnitude : Magnitude) {denominator : Nat}
    (hpositive : 0 < denominator) :
    ofQuotient negative (magnitude.units * denominator) denominator =
      .finite negative magnitude := by
  have hround := roundToGrid_of_onGrid magnitude.onGrid hpositive
  simp [ofQuotient, ofUnits, hround, magnitude.bounded]

theorem onGrid_unitsInOne : OnGrid unitsInOne :=
  onGrid_two_pow fractionBits

theorem unitsInOne_lt_overflowUnits : unitsInOne < overflowUnits :=
  Nat.pow_lt_pow_right Nat.one_lt_two (Nat.lt_add_of_pos_right (by decide))

theorem unitsInOne_pos : 0 < unitsInOne :=
  Nat.two_pow_pos fractionBits

theorem overflowUnits_pos : 0 < overflowUnits :=
  Nat.lt_trans unitsInOne_pos unitsInOne_lt_overflowUnits

def zero (negative : Bool) : Binary64 :=
  .finite negative ⟨0, by decide, overflowUnits_pos⟩

def one : Binary64 :=
  .finite false ⟨unitsInOne, onGrid_unitsInOne, unitsInOne_lt_overflowUnits⟩

def isNan : Binary64 → Bool
  | .nan => true
  | _ => false

def isFinite : Binary64 → Bool
  | .finite _ _ => true
  | _ => false

/-- Equal to zero, of either sign. -/
def isZero : Binary64 → Bool
  | .finite _ magnitude => magnitude.units == 0
  | _ => false

/-- The sign bit. -/
def signBit : Binary64 → Bool
  | .nan => false
  | .infinity negative => negative
  | .finite negative _ => negative

/-- Less than zero; neither zero is. -/
def isNegative : Binary64 → Bool
  | .nan => false
  | .infinity negative => negative
  | .finite negative magnitude => negative && magnitude.units != 0

/-- Equal to one or to minus one. -/
def isUnit : Binary64 → Bool
  | .finite _ magnitude => magnitude.units == unitsInOne
  | _ => false

def neg : Binary64 → Binary64
  | .nan => .nan
  | .infinity negative => .infinity !negative
  | .finite negative magnitude => .finite (!negative) magnitude

instance : Neg Binary64 := ⟨neg⟩

@[simp]
theorem neg_neg (value : Binary64) : neg (neg value) = value := by
  cases value <;> simp [neg]

end Binary64

end Calculator

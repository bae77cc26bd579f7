import Calculator.Binary64.Basic

/-!
# Arithmetic on binary64 values

Each operation on finite values computes its exact result in units and rounds
once, to the nearest value with ties to even.  The rules for infinities, for
values that are not numbers and for the sign of zero stand in front.
-/

namespace Calculator.Binary64

/-- A magnitude with its sign, as an integer number of units. -/
def signedUnits (negative : Bool) (magnitude : Magnitude) : Int :=
  if negative then -(magnitude.units : Int) else magnitude.units

/-- A sum of zero is negative only if both terms are. -/
def add : Binary64 → Binary64 → Binary64
  | .nan, _ => .nan
  | _, .nan => .nan
  | .infinity left, .infinity right => if left = right then .infinity left else .nan
  | .infinity left, .finite _ _ => .infinity left
  | .finite _ _, .infinity right => .infinity right
  | .finite left leftMagnitude, .finite right rightMagnitude =>
      let total := signedUnits left leftMagnitude + signedUnits right rightMagnitude
      let negative := if total = 0 then left && right else total < 0
      ofQuotient negative total.natAbs 1

def sub (left right : Binary64) : Binary64 :=
  add left (neg right)

/-- A zero times an infinity is not a number. -/
def mul : Binary64 → Binary64 → Binary64
  | .nan, _ => .nan
  | _, .nan => .nan
  | .infinity left, .infinity right => .infinity (left ^^ right)
  | .infinity left, .finite right magnitude =>
      if magnitude.units = 0 then .nan else .infinity (left ^^ right)
  | .finite left magnitude, .infinity right =>
      if magnitude.units = 0 then .nan else .infinity (left ^^ right)
  | .finite left leftMagnitude, .finite right rightMagnitude =>
      ofQuotient (left ^^ right) (leftMagnitude.units * rightMagnitude.units) unitsInOne

/-- A quotient of two zeros or of two infinities is not a number; any other
quotient by zero is infinite. -/
def div : Binary64 → Binary64 → Binary64
  | .nan, _ => .nan
  | _, .nan => .nan
  | .infinity _, .infinity _ => .nan
  | .infinity left, .finite right _ => .infinity (left ^^ right)
  | .finite left _, .infinity right => zero (left ^^ right)
  | .finite left leftMagnitude, .finite right rightMagnitude =>
      if rightMagnitude.units = 0 then
        if leftMagnitude.units = 0 then .nan else .infinity (left ^^ right)
      else ofQuotient (left ^^ right) (leftMagnitude.units * unitsInOne) rightMagnitude.units

/-- The square root of a number of units, rounded.  A root that is no integer
lies strictly between two of them; no boundary of rounding does, so half a unit
above the lower one stands for it. -/
def rootOfUnits (units : Nat) : Binary64 :=
  let square := units * unitsInOne
  let root := Nat.sqrt square
  ofQuotient false (2 * root + if root * root = square then 0 else 1) 2

/-- Zero of either sign is its own root; no other negative value has one. -/
def sqrt : Binary64 → Binary64
  | .nan => .nan
  | .infinity negative => if negative then .nan else .infinity false
  | .finite negative magnitude =>
      if magnitude.units = 0 then .finite negative magnitude
      else if negative then .nan
      else rootOfUnits magnitude.units

instance : Add Binary64 := ⟨add⟩
instance : Sub Binary64 := ⟨sub⟩
instance : Mul Binary64 := ⟨mul⟩
instance : Div Binary64 := ⟨div⟩

/-- The integer part, held within the range of a signed 64-bit integer; what is
not a number counts as zero. -/
def truncate : Binary64 → Int
  | .nan => 0
  | .infinity negative => if negative then -2 ^ 63 else 2 ^ 63 - 1
  | .finite negative magnitude =>
      let whole := magnitude.units / unitsInOne
      if negative then -(min whole (2 ^ 63) : Nat) else (min whole (2 ^ 63 - 1) : Nat)

end Calculator.Binary64

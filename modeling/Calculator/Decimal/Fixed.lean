import Calculator.Decimal.Basic

/-!
# Values with two decimal places

A finite value is written as its sign and the nearest multiple of one
hundredth, a half going to the even hundredth.  The sign is that of the value
itself, so what rounds to zero from below keeps it.
-/

namespace Calculator

/-- The multiple of one hundredth nearest to a magnitude. -/
def Decimal.nearestHundredth (magnitude : Binary64.Magnitude) : Decimal :=
  ⟨Binary64.roundQuotient (magnitude.units * 100) Binary64.unitsInOne, 2⟩

namespace Binary64

def signText (negative : Bool) : Text :=
  if negative then ['-'] else []

/-- The text of a value with two decimal places. -/
def fixedText : Binary64 → Text
  | .nan => ['N', 'a', 'N']
  | .infinity negative => signText negative ++ ['i', 'n', 'f']
  | .finite negative magnitude =>
      signText negative ++ (Decimal.nearestHundredth magnitude).toText

end Binary64

end Calculator

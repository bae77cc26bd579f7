import Calculator.Decimal.Fixed

/-!
# The shortest text that reads back

A value is written with the fewest digits that read back as the same value:
the multiples of a power of ten form a grid, and of the grids that have such a
number the coarsest is taken.  On a grid only the two neighbours of the value
can be it; if both read back the nearer one is written, and the upper one when
they are equally near.  No exponent is ever written.
-/

namespace Calculator

namespace Decimal

/-- The decimal `count * 10 ^ exponent`. -/
def scaled (count : Nat) (exponent : Int) : Decimal :=
  ⟨count * 10 ^ exponent.toNat, (-exponent).toNat⟩

def readsBack (magnitude : Binary64.Magnitude) (decimal : Decimal) : Bool :=
  decimal.toBinary64 = .finite false magnitude

/-- The nearer neighbour of a magnitude on the grid of multiples of
`10 ^ exponent`, of those that read back. -/
def neighbour? (magnitude : Binary64.Magnitude) (exponent : Int) : Option Decimal :=
  let numerator := magnitude.units * 10 ^ (-exponent).toNat
  let denominator := Binary64.unitsInOne * 10 ^ exponent.toNat
  let lower := scaled (numerator / denominator) exponent
  let upper := scaled (numerator / denominator + 1) exponent
  let upperIsNear := denominator ≤ 2 * (numerator % denominator)
  if readsBack magnitude upper ∧ (upperIsNear ∨ ¬readsBack magnitude lower) then some upper
  else if readsBack magnitude lower then some lower
  else none

/-- The exponents of the grids, coarsest first.  On the last one every magnitude
lies exactly. -/
def gridExponents : List Int :=
  (List.range (308 + Binary64.fractionBits + 1)).map fun (index : Nat) => 308 - index

/-- A magnitude in full. -/
def exactly (magnitude : Binary64.Magnitude) : Decimal :=
  ⟨magnitude.units * 5 ^ Binary64.fractionBits, Binary64.fractionBits⟩

def shortest (magnitude : Binary64.Magnitude) : Decimal :=
  (gridExponents.findSome? (neighbour? magnitude)).getD (exactly magnitude)

theorem readsBack_of_neighbour? {magnitude : Binary64.Magnitude} {exponent : Int}
    {decimal : Decimal} (hneighbour : neighbour? magnitude exponent = some decimal) :
    readsBack magnitude decimal := by
  simp only [neighbour?] at hneighbour
  split at hneighbour
  · next hupper =>
      cases hneighbour
      exact hupper.1
  · split at hneighbour
    · next hlower =>
        cases hneighbour
        exact hlower
    · cases hneighbour

private theorem mul_five_pow_mul_two_pow (units places : Nat) :
    units * 5 ^ places * 2 ^ places = units * 10 ^ places := by
  rw [Nat.mul_assoc, ← Nat.mul_pow]

theorem readsBack_exactly (magnitude : Binary64.Magnitude) :
    readsBack magnitude (exactly magnitude) := by
  have hexact := Binary64.ofQuotient_of_magnitude false magnitude
    (Nat.pow_pos (show 0 < 10 by decide) : 0 < 10 ^ Binary64.fractionBits)
  rw [← mul_five_pow_mul_two_pow] at hexact
  exact decide_eq_true hexact

/-- The shortest decimal of a magnitude is read as that magnitude. -/
theorem toBinary64_shortest (magnitude : Binary64.Magnitude) :
    (shortest magnitude).toBinary64 = .finite false magnitude := by
  have hreads : readsBack magnitude (shortest magnitude) := by
    unfold shortest
    cases hfound : gridExponents.findSome? (neighbour? magnitude) with
    | none => exact readsBack_exactly magnitude
    | some decimal =>
        rcases List.exists_of_findSome?_eq_some hfound with ⟨exponent, _, hneighbour⟩
        exact readsBack_of_neighbour? hneighbour
  simpa [readsBack] using hreads

end Decimal

/-- The text of a value with the fewest digits that read back. -/
def Binary64.shortestText : Binary64 → Text
  | .nan => ['N', 'a', 'N']
  | .infinity negative => signText negative ++ ['i', 'n', 'f']
  | .finite negative magnitude => signText negative ++ (Decimal.shortest magnitude).toText

end Calculator

import Mathlib.Data.Nat.Cast.Order.Field
import Mathlib.Tactic.Linarith
import Mathlib.Tactic.Ring
import Calculator.Proofs.Rounding

/-!
# Rounding goes to the nearest value

The exact numbers here are rational.  Rounding a quotient to an integer goes to the nearest one,
and a half to the even one.  A number on the grid is a multiple of the step of the binade where
the quotient lies, or lies below that binade, whose first number is then nearer; so the number
that a quotient is rounded to is the nearest on the whole grid.  Of two numbers on the grid with
none between them one has an even significand and the other an odd one, so the nearest value is
unique.  The numbers from halfway between the greatest magnitude and the next power of two on
are rounded to infinity.
-/

namespace Calculator.Binary64

/-- Every other value of a grid is further away from a number than the chosen one, or just as
far if the chosen one is even. -/
def IsNearestEven {Index : Type} (place : Index → ℚ) (even : Index → Prop) (exact : ℚ)
    (chosen : Index) : Prop :=
  ∀ other ≠ chosen, |exact - place chosen| < |exact - place other| ∨
    |exact - place chosen| = |exact - place other| ∧ even chosen

theorem IsNearestEven.le {Index : Type} {place : Index → ℚ} {even : Index → Prop} {exact : ℚ}
    {chosen : Index} (hnearest : IsNearestEven place even exact chosen) (other : Index) :
    |exact - place chosen| ≤ |exact - place other| := by
  by_cases hsame : other = chosen
  · rw [hsame]
  · rcases hnearest other hsame with hless | ⟨hequal, -⟩
    · exact hless.le
    · exact hequal.le

section Halfway

variable {lower upper exact : ℚ}

/-- From halfway on, the upper of two numbers is no further away. -/
theorem abs_sub_upper_le_iff (hless : lower < upper) :
    |exact - upper| ≤ |exact - lower| ↔ lower + upper ≤ 2 * exact := by
  rw [← sq_le_sq, ← sub_nonneg, show (exact - lower) ^ 2 - (exact - upper) ^ 2 =
    (upper - lower) * (2 * exact - (lower + upper)) by ring,
    mul_nonneg_iff_of_pos_left (sub_pos.2 hless), sub_nonneg]

theorem abs_sub_lower_le_iff (hless : lower < upper) :
    |exact - lower| ≤ |exact - upper| ↔ 2 * exact ≤ lower + upper := by
  rw [← sq_le_sq, ← sub_nonneg, show (exact - upper) ^ 2 - (exact - lower) ^ 2 =
    (upper - lower) * (lower + upper - 2 * exact) by ring,
    mul_nonneg_iff_of_pos_left (sub_pos.2 hless), sub_nonneg]

end Halfway

/-- If two values of a grid are both nearest, both are even and none lies between them. -/
theorem IsNearestEven.of_lt {Index : Type} {place : Index → ℚ} {even : Index → Prop} {exact : ℚ}
    {lower upper : Index} (hlower : IsNearestEven place even exact lower)
    (hupper : IsNearestEven place even exact upper) (hless : place lower < place upper) :
    even lower ∧ even upper ∧
      ∀ between, place lower < place between → place upper ≤ place between := by
  have hne : upper ≠ lower := fun hsame => hless.ne' (congrArg place hsame)
  obtain ⟨hequal, hlowerEven⟩ := (hlower upper hne).resolve_left (hupper.le lower).not_gt
  obtain ⟨-, hupperEven⟩ := (hupper lower hne.symm).resolve_left (hlower.le upper).not_gt
  have hhalf := (abs_sub_upper_le_iff hless).1 hequal.ge
  refine ⟨hlowerEven, hupperEven, fun between habove => ?_⟩
  have hshort := (abs_sub_lower_le_iff habove).1 (hlower.le between)
  linarith

section Integers

/-- A number that is within a half of an integer has no nearer one. -/
theorem isNearestEven_of_half {exact : ℚ} {count : ℤ} (hhalf : |exact - count| ≤ 1 / 2)
    (heven : |exact - count| = 1 / 2 → Even count) :
    IsNearestEven (fun index : ℤ => (index : ℚ)) Even exact count := by
  intro other hne
  have hgap : (1 : ℚ) ≤ |(other : ℚ) - count| := by
    exact_mod_cast Int.one_le_abs (sub_ne_zero.2 hne)
  have htriangle : |(other : ℚ) - count| ≤ |exact - other| + |exact - count| := by
    rw [abs_sub_comm exact (other : ℚ)]
    exact abs_sub_le _ _ _
  rcases lt_or_eq_of_le hhalf with hless | hequal
  · left
    linarith
  · rcases lt_or_eq_of_le (show |exact - count| ≤ |exact - other| by linarith) with hless | hsame
    · exact Or.inl hless
    · exact Or.inr ⟨hsame, heven hequal⟩

/-- A quotient is rounded to an integer no further away than a half, and a half to an even one. -/
theorem two_mul_natAbs_sub_roundQuotient (numerator : Nat) {denominator : Nat}
    (hpositive : 0 < denominator) :
    2 * (numerator - roundQuotient numerator denominator * denominator : ℤ).natAbs ≤ denominator ∧
      (2 * (numerator - roundQuotient numerator denominator * denominator : ℤ).natAbs =
        denominator → Even (roundQuotient numerator denominator)) := by
  have hrest := Nat.mod_lt numerator hpositive
  have hparity := Nat.mod_two_eq_zero_or_one (numerator / denominator)
  have hsplit : (numerator : ℤ) = (numerator / denominator : ℕ) * denominator +
      (numerator % denominator : ℕ) := by
    exact_mod_cast (Nat.div_add_mod' numerator denominator).symm
  unfold roundQuotient
  dsimp only
  generalize numerator / denominator = quotient at *
  generalize numerator % denominator = rest at *
  have hlower : (numerator - quotient * denominator : ℤ) = rest := by
    rw [hsplit, add_sub_cancel_left]
  have hupper : (numerator - (quotient + 1 : ℕ) * denominator : ℤ) = rest - denominator := by
    push_cast
    rw [hsplit, add_mul, one_mul, add_sub_add_left_eq_sub]
  rw [Nat.even_iff]
  split
  · rw [hlower]
    omega
  · split
    · rw [hupper]
      omega
    · rcases hparity with heven | hodd
      · rw [heven, Nat.add_zero, hlower]
        omega
      · rw [hodd, hupper]
        omega

theorem abs_sub_roundQuotient (numerator : Nat) {denominator : Nat} (hpositive : 0 < denominator) :
    |(numerator / denominator : ℚ) - roundQuotient numerator denominator| ≤ 1 / 2 ∧
      (|(numerator / denominator : ℚ) - roundQuotient numerator denominator| = 1 / 2 →
        Even (roundQuotient numerator denominator)) := by
  obtain ⟨hhalf, heven⟩ := two_mul_natAbs_sub_roundQuotient numerator hpositive
  have hdenominator : (0 : ℚ) < denominator := by exact_mod_cast hpositive
  have hdistance : |(numerator / denominator : ℚ) - roundQuotient numerator denominator| =
      (numerator - roundQuotient numerator denominator * denominator : ℤ).natAbs /
        denominator := by
    rw [div_sub' hdenominator.ne', abs_div, abs_of_pos hdenominator, mul_comm, Nat.cast_natAbs]
    push_cast
    rfl
  generalize (numerator - roundQuotient numerator denominator * denominator : ℤ).natAbs =
    distance at *
  rw [hdistance, div_le_div_iff₀ hdenominator two_pos, div_eq_div_iff hdenominator.ne' two_ne_zero,
    one_mul, mul_comm]
  exact ⟨by exact_mod_cast hhalf, fun hequal => heven (by exact_mod_cast hequal)⟩

/-- A quotient is rounded to the nearest integer. -/
theorem isNearestEven_roundQuotient (numerator : Nat) {denominator : Nat}
    (hpositive : 0 < denominator) :
    IsNearestEven (fun index : ℤ => (index : ℚ)) Even (numerator / denominator)
      (roundQuotient numerator denominator : ℕ) := by
  obtain ⟨hhalf, heven⟩ := abs_sub_roundQuotient numerator hpositive
  apply isNearestEven_of_half
  · exact_mod_cast hhalf
  · intro hequal
    exact_mod_cast heven (by exact_mod_cast hequal)

theorem IsNearestEven.not_lt_int {exact : ℚ} {lower upper : ℤ}
    (hlower : IsNearestEven (fun index : ℤ => (index : ℚ)) Even exact lower)
    (hupper : IsNearestEven (fun index : ℤ => (index : ℚ)) Even exact upper) :
    ¬lower < upper := by
  intro hless
  obtain ⟨hlowerEven, hupperEven, hbetween⟩ := hlower.of_lt hupper (Int.cast_lt.2 hless)
  have hnext : upper ≤ lower + 1 :=
    Int.cast_le.1 (hbetween (lower + 1) (Int.cast_lt.2 (Int.lt_succ lower)))
  have hsame : upper = lower + 1 := by omega
  rw [hsame, Int.even_add_one] at hupperEven
  exact hupperEven hlowerEven

theorem IsNearestEven.unique_int {exact : ℚ} {first second : ℤ}
    (hfirst : IsNearestEven (fun index : ℤ => (index : ℚ)) Even exact first)
    (hsecond : IsNearestEven (fun index : ℤ => (index : ℚ)) Even exact second) :
    first = second :=
  le_antisymm (not_lt.1 (hsecond.not_lt_int hfirst)) (not_lt.1 (hfirst.not_lt_int hsecond))

/-- A coarser or finer grid has its nearest value at the same index. -/
theorem isNearestEven_scale_iff {Index : Type} {place : Index → ℚ} {even : Index → Prop}
    {exact : ℚ} {chosen : Index} {factor : ℚ} (hpositive : 0 < factor) :
    IsNearestEven (fun index => place index * factor) even (exact * factor) chosen ↔
      IsNearestEven place even exact chosen := by
  have hdistance : ∀ index,
      |exact * factor - place index * factor| = |exact - place index| * factor := by
    intro index
    rw [← sub_mul, abs_mul, abs_of_pos hpositive]
  refine forall₂_congr fun other _ => ?_
  rw [hdistance, hdistance, mul_lt_mul_iff_left₀ hpositive, mul_left_inj' hpositive.ne']

end Integers

/-- The bits of a number that are kept in its binade. -/
def significand (units : Nat) : Nat :=
  units / 2 ^ droppedBits units

section Significands

variable {kept dropped : Nat}

theorem droppedBits_mul_two_pow (hnormal : 2 ^ 52 ≤ kept ∨ dropped = 0) (hbound : kept < 2 ^ 53) :
    droppedBits (kept * 2 ^ dropped) = dropped := by
  rcases hnormal with hnormal | rfl
  · have hpositive : kept * 2 ^ dropped ≠ 0 :=
      Nat.mul_ne_zero (by omega) (Nat.two_pow_pos dropped).ne'
    have hlog : (kept * 2 ^ dropped).log2 = 52 + dropped := by
      rw [Nat.log2_eq_iff hpositive, Nat.pow_add, Nat.add_right_comm, Nat.pow_add]
      exact ⟨Nat.mul_le_mul_right _ hnormal,
        Nat.mul_lt_mul_of_pos_right hbound (Nat.two_pow_pos dropped)⟩
    rw [droppedBits, hlog, Nat.add_sub_cancel_left]
  · have hsmall : droppedBits kept ≤ droppedBits (2 ^ 53 - 1) := droppedBits_mono (by omega)
    rw [show droppedBits (2 ^ 53 - 1) = 0 by decide] at hsmall
    rw [Nat.pow_zero, Nat.mul_one, Nat.le_zero.1 hsmall]

theorem even_significand_iff (hnormal : 2 ^ 52 ≤ kept ∨ dropped = 0) (hbound : kept ≤ 2 ^ 53) :
    Even (significand (kept * 2 ^ dropped)) ↔ Even kept := by
  rcases Nat.lt_or_eq_of_le hbound with hless | rfl
  · rw [significand, droppedBits_mul_two_pow hnormal hless,
      Nat.mul_div_cancel _ (Nat.two_pow_pos dropped)]
  · -- The first number of the next binade keeps one bit less.
    have hnext : 2 ^ 53 * 2 ^ dropped = 2 ^ 52 * 2 ^ (dropped + 1) := by
      rw [Nat.pow_succ 2 dropped]
      omega
    rw [significand, hnext, droppedBits_mul_two_pow (Or.inl (Nat.le_refl _)) (by decide),
      Nat.mul_div_cancel _ (Nat.two_pow_pos _)]
    decide

end Significands

section Grid

variable {numerator denominator : Nat}

/-- What a quotient is rounded to in its binade. -/
theorem roundQuotient_binade (numerator : Nat) (hpositive : 0 < denominator) :
    (2 ^ 52 ≤ roundQuotient numerator (denominator * 2 ^ droppedBits (numerator / denominator)) ∨
        droppedBits (numerator / denominator) = 0) ∧
      roundQuotient numerator (denominator * 2 ^ droppedBits (numerator / denominator)) ≤
        2 ^ 53 := by
  have hupper := lt_two_pow_mul_droppedBits (numerator / denominator)
  have hlower := @two_pow_mul_droppedBits_le (numerator / denominator)
  generalize droppedBits (numerator / denominator) = dropped at *
  have hscale : 0 < denominator * 2 ^ dropped := Nat.mul_pos hpositive (Nat.two_pow_pos dropped)
  constructor
  · by_cases hzero : dropped = 0
    · exact Or.inr hzero
    · left
      have hbound := hlower (Nat.pos_of_ne_zero hzero)
      rw [Nat.le_div_iff_mul_le hpositive, Nat.mul_assoc, Nat.mul_comm _ denominator] at hbound
      rw [← roundQuotient_mul_left (2 ^ 52) hscale]
      exact roundQuotient_mono hbound _
  · rw [Nat.div_lt_iff_lt_mul hpositive, Nat.mul_assoc, Nat.mul_comm _ denominator] at hupper
    rw [← roundQuotient_mul_left (2 ^ 53) hscale]
    exact roundQuotient_mono hupper.le _

/-- A number on the grid is a multiple of the step of any binade, or lies below that binade. -/
theorem OnGrid.dvd_or_lt {units other : Nat} (hgrid : OnGrid other) :
    2 ^ droppedBits units ∣ other ∨
      other < 2 ^ 52 * 2 ^ droppedBits units ∧ 2 ^ 52 * 2 ^ droppedBits units ≤ units := by
  by_cases hbits : droppedBits units ≤ droppedBits other
  · exact Or.inl (Nat.dvd_trans (Nat.pow_dvd_pow 2 hbits) hgrid)
  · have hless : droppedBits other < droppedBits units := Nat.lt_of_not_le hbits
    refine Or.inr ⟨?_, two_pow_mul_droppedBits_le (Nat.zero_lt_of_lt hless)⟩
    calc other
      _ < 2 ^ 53 * 2 ^ droppedBits other := lt_two_pow_mul_droppedBits other
      _ = 2 ^ 52 * 2 ^ (droppedBits other + 1) := by
        rw [Nat.pow_succ 2 (droppedBits other)]
        omega
      _ ≤ 2 ^ 52 * 2 ^ droppedBits units :=
        Nat.mul_le_mul_left _ (Nat.pow_le_pow_right Nat.two_pos hless)

/-- A quotient is rounded to the nearest number on the grid. -/
theorem isNearestEven_roundToGrid (numerator : Nat) (hpositive : 0 < denominator) :
    IsNearestEven (fun units : {units : Nat // OnGrid units} => (units : ℚ))
      (fun units => Even (significand units)) (numerator / denominator)
      ⟨roundToGrid numerator denominator, onGrid_roundToGrid numerator denominator⟩ := by
  have hbinade := roundQuotient_binade numerator hpositive
  have hround : roundToGrid numerator denominator =
      roundQuotient numerator (denominator * 2 ^ droppedBits (numerator / denominator)) *
        2 ^ droppedBits (numerator / denominator) := rfl
  have hcases := fun other hgrid => @OnGrid.dvd_or_lt (numerator / denominator) other hgrid
  have hfloor : ((numerator / denominator : ℕ) : ℚ) ≤ numerator / denominator := Nat.cast_div_le
  generalize droppedBits (numerator / denominator) = dropped at *
  generalize hkept : roundQuotient numerator (denominator * 2 ^ dropped) = kept at *
  have hstep : (0 : ℚ) < 2 ^ dropped := by positivity
  have hnearest : IsNearestEven (fun index : ℤ => (index : ℚ) * 2 ^ dropped) Even
      (numerator / denominator) kept := by
    have hscaled := (isNearestEven_scale_iff hstep).2 (isNearestEven_roundQuotient numerator
      (Nat.mul_pos hpositive (Nat.two_pow_pos dropped)))
    rw [hkept, Nat.cast_mul, Nat.cast_pow, Nat.cast_ofNat, ← div_div,
      div_mul_cancel₀ _ hstep.ne'] at hscaled
    exact hscaled
  rintro ⟨other, hgrid⟩ hne
  replace hne : other ≠ kept * 2 ^ dropped := fun hsame =>
    hne (Subtype.ext (hsame.trans hround.symm))
  simp only [hround, even_significand_iff hbinade.1 hbinade.2]
  rcases hcases other hgrid with ⟨index, rfl⟩ | ⟨hbelow, hstart⟩
  · have hindex : (index : ℤ) ≠ kept := by
      rintro hsame
      rw [Int.natCast_inj.1 hsame, Nat.mul_comm] at hne
      exact hne rfl
    have hfurther := hnearest index hindex
    push_cast at hfurther ⊢
    rwa [mul_comm (2 ^ dropped) (index : ℚ), ← Int.even_coe_nat]
  · -- The first number of the binade lies between the other one and the quotient.
    left
    have hfirst : ((2 ^ 52 * 2 ^ dropped : ℕ) : ℚ) ≤ numerator / denominator :=
      le_trans (by exact_mod_cast hstart) hfloor
    have hother : (other : ℚ) < (2 ^ 52 * 2 ^ dropped : ℕ) := by exact_mod_cast hbelow
    have hle := hnearest.le (2 ^ 52)
    push_cast at hle hfirst hother ⊢
    rw [abs_of_nonneg (sub_nonneg.2 hfirst)] at hle
    rw [abs_of_pos (sub_pos.2 (hother.trans_le hfirst))]
    linarith

/-- Of two neighbours on the grid one has an even significand and the other an odd one. -/
theorem OnGrid.even_significand_add_step {units : Nat} (hgrid : OnGrid units) :
    Even (significand (units + 2 ^ droppedBits units)) ↔ ¬Even (significand units) := by
  obtain ⟨kept, hbound, hunits⟩ := hgrid.exists_significand
  have hnormal : 2 ^ 52 ≤ kept ∨ droppedBits units = 0 := by
    by_cases hzero : droppedBits units = 0
    · exact Or.inr hzero
    · have hlower := (two_pow_mul_droppedBits_le (Nat.pos_of_ne_zero hzero)).trans_eq hunits
      exact Or.inl (Nat.le_of_mul_le_mul_right hlower (Nat.two_pow_pos _))
  generalize droppedBits units = dropped at hunits hnormal ⊢
  have hnext : 2 ^ 52 ≤ kept + 1 ∨ dropped = 0 := hnormal.imp_left fun hle => by omega
  rw [hunits, ← Nat.succ_mul, even_significand_iff hnext hbound,
    even_significand_iff hnormal hbound.le, Nat.even_add_one]

end Grid

section Overflow

variable {dropped : Nat}

/-- Below a power of two the greatest number on the grid has only ones for bits. -/
theorem OnGrid.le_pred_two_pow {units : Nat} (hgrid : OnGrid units)
    (hless : units < 2 ^ 53 * 2 ^ dropped) : units ≤ (2 ^ 53 - 1) * 2 ^ dropped := by
  refine Nat.le_of_not_lt fun hgreater => ?_
  have hpred : OnGrid ((2 ^ 53 - 1) * 2 ^ dropped) := onGrid_mul_pow (by decide) dropped
  have hnext := hpred.add_step_le hgrid hgreater
  rw [droppedBits_mul_two_pow (Or.inl (by decide)) (by decide), ← Nat.succ_mul] at hnext
  exact absurd hnext (Nat.not_le_of_lt hless)

/-- Rounding reaches a power of two from halfway between it and the number before it. -/
theorem two_pow_le_roundToGrid_iff (numerator : Nat) {denominator : Nat}
    (hpositive : 0 < denominator) (dropped : Nat) :
    2 ^ 53 * 2 ^ dropped ≤ roundToGrid numerator denominator ↔
      (((2 ^ 53 - 1) * 2 ^ dropped : ℕ) : ℚ) + (2 ^ 53 * 2 ^ dropped : ℕ) ≤
        2 * (numerator / denominator) := by
  have hgrid := onGrid_roundToGrid numerator denominator
  have hnearest := isNearestEven_roundToGrid numerator hpositive
  have hpred := hnearest.le ⟨_, onGrid_mul_pow (show 2 ^ 53 - 1 ≤ 2 ^ 53 by decide) dropped⟩
  have hpower := hnearest ⟨_, onGrid_mul_pow (Nat.le_refl (2 ^ 53)) dropped⟩
  have hodd : ¬Even (significand ((2 ^ 53 - 1) * 2 ^ dropped)) := by
    rw [even_significand_iff (Or.inl (by decide)) (by decide)]
    decide
  have hbelow := @OnGrid.le_pred_two_pow dropped _ hgrid
  have hless : (2 ^ 53 - 1) * 2 ^ dropped < 2 ^ 53 * 2 ^ dropped :=
    Nat.mul_lt_mul_of_pos_right (by decide) (Nat.two_pow_pos dropped)
  simp only [ne_eq, Subtype.mk.injEq] at hpred hpower
  generalize roundToGrid numerator denominator = rounded at hgrid hpred hpower hbelow ⊢
  generalize 2 ^ 53 * 2 ^ dropped = power at *
  generalize (2 ^ 53 - 1) * 2 ^ dropped = pred at *
  constructor
  · intro hreaches
    have hrounded : (power : ℚ) ≤ rounded := by exact_mod_cast hreaches
    have hpast := (abs_sub_upper_le_iff (by exact_mod_cast hless.trans_le hreaches)).1 hpred
    linarith
  · intro habove
    refine Nat.le_of_not_lt fun hshort => ?_
    have hrounded : (rounded : ℚ) ≤ pred := by exact_mod_cast hbelow hshort
    have hshortRat : (rounded : ℚ) < power := by exact_mod_cast hshort
    have hnearer := (abs_sub_upper_le_iff hshortRat).2 (by linarith)
    rcases hpower hshort.ne' with hfurther | ⟨hequal, heven⟩
    · exact hfurther.not_ge hnearer
    · -- Only halfway is the power of two no nearer, and the number before it is odd.
      have hhalf := (abs_sub_lower_le_iff hshortRat).1 hequal.le
      have hsame : rounded = pred := by
        have : (rounded : ℚ) = pred := by linarith
        exact_mod_cast this
      rw [hsame] at heven
      exact hodd heven

end Overflow

/-- The number that a magnitude stands for. -/
def Magnitude.toRat (magnitude : Magnitude) : ℚ :=
  magnitude.units / unitsInOne

/-- The magnitude is nearest to a number; of two that are equally near, the one with the even
significand. -/
def Magnitude.IsNearest (exact : ℚ) (magnitude : Magnitude) : Prop :=
  IsNearestEven Magnitude.toRat (fun other => Even (significand other.units)) exact magnitude

/-- Halfway between the greatest magnitude and the next power of two. -/
def overflowThreshold : ℚ :=
  2 ^ 1024 - 2 ^ 970

/-- What a number that is not negative is rounded to: the nearest magnitude, and infinity from
the threshold on. -/
inductive IsRounded (exact : ℚ) : Binary64 → Prop
  | finite {magnitude : Magnitude} (hbelow : exact < overflowThreshold)
      (hnearest : magnitude.IsNearest exact) : IsRounded exact (.finite false magnitude)
  | infinity (hover : overflowThreshold ≤ exact) : IsRounded exact (.infinity false)

section Rounded

theorem unitsInOne_pos_rat : (0 : ℚ) < unitsInOne := by
  exact_mod_cast unitsInOne_pos

theorem overflowUnits_eq : overflowUnits = 2 ^ 53 * 2 ^ (fractionBits + 971) := by
  unfold overflowUnits
  generalize fractionBits = bits
  rw [← Nat.pow_add, show bits + 1024 = 53 + (bits + 971) by omega]

theorem two_mul_overflowThreshold :
    2 * (overflowThreshold * unitsInOne) =
      (((2 ^ 53 - 1) * 2 ^ (fractionBits + 971) : ℕ) : ℚ) +
        (2 ^ 53 * 2 ^ (fractionBits + 971) : ℕ) := by
  rw [overflowThreshold, unitsInOne]
  generalize fractionBits = bits
  rw [show (1024 : ℕ) = 54 + 970 from rfl, pow_add (2 : ℚ) 54 970,
    show bits + 971 = 1 + bits + 970 by omega]
  push_cast
  rw [pow_add, pow_add]
  generalize (2 : ℚ) ^ 970 = low
  ring

/-- A quotient of units overflows from the threshold on. -/
theorem overflowUnits_le_roundToGrid_iff (numerator : Nat) {denominator : Nat}
    (hpositive : 0 < denominator) :
    overflowUnits ≤ roundToGrid numerator denominator ↔
      overflowThreshold ≤ numerator / denominator / unitsInOne := by
  rw [overflowUnits_eq, two_pow_le_roundToGrid_iff numerator hpositive,
    ← two_mul_overflowThreshold, le_div_iff₀ unitsInOne_pos_rat, mul_le_mul_iff_right₀ two_pos]

theorem abs_sub_toRat (exact : ℚ) (magnitude : Magnitude) :
    |exact / unitsInOne - magnitude.toRat| = |exact - magnitude.units| / unitsInOne := by
  rw [Magnitude.toRat, ← sub_div, abs_div, abs_of_pos unitsInOne_pos_rat]

/-- Rounding a quotient of units gives the value nearest to the number that it is. -/
theorem isRounded_ofQuotient (numerator : Nat) {denominator : Nat} (hpositive : 0 < denominator) :
    IsRounded (numerator / denominator / unitsInOne) (ofQuotient false numerator denominator) := by
  have hoverflow := overflowUnits_le_roundToGrid_iff numerator hpositive
  have hnearest := isNearestEven_roundToGrid numerator hpositive
  unfold ofQuotient ofUnits
  split
  · next hbounded =>
      refine .finite (lt_of_not_ge fun hover => ?_) fun other hne => ?_
      · exact Nat.not_le_of_lt hbounded (hoverflow.2 hover)
      · have hunits : other.units ≠ roundToGrid numerator denominator := fun hsame =>
          hne (Magnitude.eq_of_units_eq hsame)
        have hfurther := hnearest ⟨other.units, other.onGrid⟩
          fun hsame => hunits (congrArg Subtype.val hsame)
        rw [abs_sub_toRat, abs_sub_toRat, div_lt_div_iff_of_pos_right unitsInOne_pos_rat,
          div_left_inj' unitsInOne_pos_rat.ne']
        exact hfurther
  · next hbounded => exact .infinity (hoverflow.1 (Nat.le_of_not_lt hbounded))

theorem Magnitude.toRat_lt_toRat_iff {lower upper : Magnitude} :
    lower.toRat < upper.toRat ↔ lower.units < upper.units := by
  rw [toRat, toRat, div_lt_div_iff_of_pos_right unitsInOne_pos_rat, Nat.cast_lt]

/-- Two neighbours on the grid are not both even, so only one magnitude is nearest. -/
theorem Magnitude.IsNearest.not_lt {exact : ℚ} {lower upper : Magnitude}
    (hlower : lower.IsNearest exact) (hupper : upper.IsNearest exact) :
    ¬lower.units < upper.units := by
  intro hless
  obtain ⟨hlowerEven, hupperEven, hbetween⟩ :=
    IsNearestEven.of_lt hlower hupper (toRat_lt_toRat_iff.2 hless)
  have hnext := lower.onGrid.add_step_le upper.onGrid hless
  rcases Nat.lt_or_eq_of_le hnext with hshort | hsame
  · obtain ⟨between, hunits⟩ : ∃ between : Magnitude,
        between.units = lower.units + 2 ^ droppedBits lower.units :=
      ⟨⟨_, lower.onGrid.add_step, hshort.trans upper.bounded⟩, rfl⟩
    have habove : lower.toRat < between.toRat :=
      toRat_lt_toRat_iff.2 (hunits ▸ Nat.lt_add_of_pos_right (Nat.two_pow_pos _))
    have hbelow : between.toRat < upper.toRat := toRat_lt_toRat_iff.2 (hunits ▸ hshort)
    exact absurd hbelow (hbetween between habove).not_gt
  · rw [← hsame, lower.onGrid.even_significand_add_step] at hupperEven
    exact hupperEven hlowerEven

theorem Magnitude.IsNearest.unique {exact : ℚ} {first second : Magnitude}
    (hfirst : first.IsNearest exact) (hsecond : second.IsNearest exact) : first = second := by
  apply eq_of_units_eq
  rcases Nat.lt_trichotomy first.units second.units with hless | hsame | hgreater
  · exact absurd hless (hfirst.not_lt hsecond)
  · exact hsame
  · exact absurd hgreater (hsecond.not_lt hfirst)

theorem IsRounded.unique {exact : ℚ} {first second : Binary64} (hfirst : IsRounded exact first)
    (hsecond : IsRounded exact second) : first = second := by
  cases hfirst with
  | finite hbelow hnearest =>
      cases hsecond with
      | finite _ hother => rw [hnearest.unique hother]
      | infinity hover => exact absurd hover hbelow.not_ge
  | infinity hover =>
      cases hsecond with
      | finite hbelow _ => exact absurd hover hbelow.not_ge
      | infinity _ => rfl

end Rounded

end Calculator.Binary64

import Calculator.Proofs.Powers
import Calculator.Proofs.Rounding

/-!
# How long a power runs

A run stops at the first product that is settled.  A product whose magnitude the next
multiplication leaves alone is settled, unless the base lies strictly between one half and one
in magnitude.  The products of such a base decrease among the finitely many magnitudes until
rounding gives one of them back, never reach zero, and are never settled: a run makes all its
multiplications however early the magnitude has come to rest.
-/

namespace Calculator

namespace Binary64

/-- The magnitude lies strictly between one half and one. -/
def BetweenHalfAndOne : Binary64 → Prop
  | .finite _ magnitude => unitsInOne < 2 * magnitude.units ∧ magnitude.units < unitsInOne
  | _ => False

instance : DecidablePred BetweenHalfAndOne := fun base =>
  match base with
  | .nan => isFalse id
  | .infinity _ => isFalse id
  | .finite _ magnitude => inferInstanceAs (Decidable
      (unitsInOne < 2 * magnitude.units ∧ magnitude.units < unitsInOne))

theorem roundToGrid_of_ofQuotient_eq {negative other : Bool} {numerator denominator : Nat}
    {magnitude : Magnitude}
    (hquotient : ofQuotient negative numerator denominator = .finite other magnitude) :
    roundToGrid numerator denominator = magnitude.units := by
  unfold ofQuotient ofUnits at hquotient
  split at hquotient
  · cases hquotient
    rfl
  · cases hquotient

section Settled

variable {base : Binary64}

/-- A run does not go on behind a settled product. -/
theorem multiplications_powerFrom_le {count : Nat}
    (hsettled : isSettled base (product base count) = true) (remaining : Nat) {done : Nat}
    (hdone : done < count) :
    (powerFrom base remaining (product base done) done).multiplications ≤ count := by
  induction remaining generalizing done with
  | zero => exact hdone.le
  | succ remaining ih =>
      cases hstop : isSettled base (product base (done + 1)) with
      | true =>
          rw [powerFrom_settled hstop]
          exact hdone
      | false =>
          rw [powerFrom_running hstop]
          apply ih
          refine Nat.lt_of_le_of_ne hdone ?_
          rintro rfl
          rw [hsettled] at hstop
          cases hstop

/-- The products of a base above one in magnitude do not fall below one. -/
theorem unitsInOne_le_of_product {other negative : Bool} {factor magnitude : Magnitude}
    (hfactor : unitsInOne < factor.units) {count : Nat}
    (hproduct : product (.finite other factor) count = .finite negative magnitude) :
    unitsInOne ≤ magnitude.units := by
  induction count generalizing negative magnitude with
  | zero =>
      cases hproduct
      exact Nat.le_refl _
  | succ count ih =>
      rw [product_succ] at hproduct
      cases hprevious : product (.finite other factor) count with
      | nan =>
          rw [hprevious] at hproduct
          cases hproduct
      | infinity sign =>
          rw [hprevious, mul] at hproduct
          split at hproduct <;> cases hproduct
      | finite sign previous =>
          rw [hprevious, mul] at hproduct
          rw [← roundToGrid_of_ofQuotient_eq hproduct]
          apply le_roundToGrid onGrid_unitsInOne unitsInOne_pos
          exact Nat.mul_le_mul (ih hprevious) hfactor.le

/-- A finite product other than zero that rests has been rounded back to its magnitude. -/
theorem roundToGrid_of_rests {other negative : Bool} {factor magnitude : Magnitude}
    (hrests : Rests (.finite other factor) (.finite negative magnitude)) :
    roundToGrid (magnitude.units * factor.units) unitsInOne = magnitude.units := by
  rw [Rests, mul] at hrests
  cases other with
  | false => exact roundToGrid_of_ofQuotient_eq hrests
  | true => exact roundToGrid_of_ofQuotient_eq hrests

/-- A product that rests is settled, unless the base lies between one half and one. -/
theorem isSettled_of_rests {count : Nat} (hbase : ¬base.BetweenHalfAndOne)
    (hrests : Rests base (product base count)) : isSettled base (product base count) = true := by
  cases hproduct : product base count with
  | nan => rfl
  | infinity negative => rfl
  | finite negative magnitude =>
      by_cases hzero : magnitude.units = 0
      · simp [isSettled, isZero, hzero]
      rw [hproduct] at hrests
      cases base with
      | nan => cases hrests
      | infinity other =>
          rw [Rests, mul, if_neg hzero] at hrests
          cases other <;> cases hrests
      | finite other factor =>
          have hround := roundToGrid_of_rests hrests
          rcases Nat.lt_trichotomy factor.units unitsInOne with hless | hone | hgreater
          · have hhalf : 2 * factor.units ≤ unitsInOne := by
              by_contra hlarge
              exact hbase ⟨Nat.lt_of_not_le hlarge, hless⟩
            have hshrinks := roundToGrid_mul_lt magnitude.onGrid (Nat.pos_of_ne_zero hzero)
              unitsInOne_pos hhalf
            exact absurd hround hshrinks.ne
          · simp [isSettled, isUnit, hone]
          · have hgrows := lt_roundToGrid_mul magnitude.onGrid factor.onGrid
              (unitsInOne_le_of_product hgreater hproduct) hgreater
            exact absurd hround hgrows.ne'

end Settled

namespace BetweenHalfAndOne

variable {base : Binary64}

/-- Such a base makes no magnitude greater and none zero. -/
theorem exists_mul (hbase : base.BetweenHalfAndOne) (negative : Bool) {magnitude : Magnitude}
    (hpositive : 0 < magnitude.units) :
    ∃ other next, mul (.finite negative magnitude) base = .finite other next ∧
      0 < next.units ∧ next.units ≤ magnitude.units := by
  cases base with
  | nan => exact hbase.elim
  | infinity other => exact hbase.elim
  | finite other factor =>
      obtain ⟨hhalf, hone⟩ := hbase
      have hle : roundToGrid (magnitude.units * factor.units) unitsInOne ≤ magnitude.units :=
        roundToGrid_le magnitude.onGrid unitsInOne_pos (Nat.mul_le_mul_left _ hone.le)
      have hnext : 0 < roundToGrid (magnitude.units * factor.units) unitsInOne := by
        apply roundToGrid_pos unitsInOne_pos
        refine Nat.lt_of_lt_of_le hhalf (Nat.mul_le_mul_left 2 ?_)
        exact Nat.le_mul_of_pos_left _ hpositive
      have hbounded := Nat.lt_of_le_of_lt hle magnitude.bounded
      refine ⟨negative ^^ other, ⟨_, onGrid_roundToGrid _ _, hbounded⟩, ?_, hnext, hle⟩
      rw [mul, ofQuotient, ofUnits, dif_pos hbounded]

/-- The products of such a base are finite and not zero. -/
theorem exists_product (hbase : base.BetweenHalfAndOne) (count : Nat) :
    ∃ negative magnitude, product base count = .finite negative magnitude ∧
      0 < magnitude.units := by
  induction count with
  | zero => exact ⟨false, _, rfl, unitsInOne_pos⟩
  | succ count ih =>
      obtain ⟨negative, magnitude, hproduct, hpositive⟩ := ih
      obtain ⟨other, next, hnext, hunits, -⟩ := hbase.exists_mul negative hpositive
      rw [product_succ, hproduct]
      exact ⟨other, next, hnext, hunits⟩

theorem isSettled_product (hbase : base.BetweenHalfAndOne) (count : Nat) :
    isSettled base (product base count) = false := by
  obtain ⟨negative, magnitude, hproduct, hpositive⟩ := hbase.exists_product count
  cases base with
  | nan => exact hbase.elim
  | infinity other => exact hbase.elim
  | finite other factor =>
      rw [hproduct]
      simp [isSettled, isZero, isFinite, isUnit, hpositive.ne', hbase.2.ne]

/-- A run with such a base makes all its multiplications. -/
theorem multiplications_powerFrom (hbase : base.BetweenHalfAndOne) (remaining done : Nat) :
    (powerFrom base remaining (product base done) done).multiplications = done + remaining := by
  induction remaining generalizing done with
  | zero => rfl
  | succ remaining ih =>
      rw [powerFrom_running (hbase.isSettled_product _), ih]
      omega

/-- As long as no product has come to rest, each one has a lower rank than the one before. -/
theorem exists_rests_or_rank_add_le (hbase : base.BetweenHalfAndOne) (count : Nat) :
    (∃ earlier < count, Rests base (product base earlier)) ∨
      ∃ negative magnitude, product base count = .finite negative magnitude ∧
        0 < magnitude.units ∧ magnitude.rank + count ≤ 1023 * 2 ^ 52 := by
  induction count with
  | zero => exact Or.inr ⟨false, _, rfl, unitsInOne_pos, (Nat.add_zero _).trans_le rank_one.le⟩
  | succ count ih =>
      obtain ⟨earlier, hearlier, hrests⟩ | ⟨negative, magnitude, hproduct, hpositive, hrank⟩ := ih
      · exact Or.inl ⟨earlier, Nat.lt_succ_of_lt hearlier, hrests⟩
      obtain ⟨other, next, hnext, hunits, hle⟩ := hbase.exists_mul negative hpositive
      rcases Nat.lt_or_eq_of_le hle with hless | hequal
      · have hlower := Magnitude.rank_lt_rank hless
        rw [product_succ, hproduct]
        exact Or.inr ⟨other, next, hnext, hunits, by omega⟩
      · refine Or.inl ⟨count, Nat.lt_succ_self _, rests_iff.2 (Or.inr ?_)⟩
        rw [hproduct, hnext, Magnitude.eq_of_units_eq hequal]
        rfl

/-- The products come to rest, since there are only so many magnitudes up to one. -/
theorem exists_rests (hbase : base.BetweenHalfAndOne) :
    ∃ count ≤ 1023 * 2 ^ 52, Rests base (product base count) := by
  obtain ⟨count, hcount, hrests⟩ | ⟨negative, magnitude, -, -, hrank⟩ :=
    hbase.exists_rests_or_rank_add_le (1023 * 2 ^ 52 + 1)
  · exact ⟨count, Nat.le_of_lt_succ hcount, hrests⟩
  · omega

/-- The products that follow are at rest as well. -/
theorem rests_product (hbase : base.BetweenHalfAndOne) {count : Nat}
    (hcount : 1023 * 2 ^ 52 ≤ count) : Rests base (product base count) := by
  obtain ⟨earlier, hearlier, hrests⟩ := hbase.exists_rests
  obtain ⟨remaining, rfl⟩ := Nat.exists_eq_add_of_le (hearlier.trans hcount)
  rw [hrests.product_add]
  exact rests_negIf hrests _

theorem multiplications_powerRun (hbase : base.BetweenHalfAndOne) (exponent : Binary64) :
    (powerRun base exponent).multiplications = repetitions exponent := by
  have hall := hbase.multiplications_powerFrom (repetitions exponent) 0
  rw [Nat.zero_add] at hall
  exact hall

end BetweenHalfAndOne

/-- An exponent that asks for more multiplications than there are magnitudes below one. -/
theorem repetitions_two_pow : repetitions (ofBits 0x43D0000000000000) = 2 ^ 62 := by
  decide +kernel

/-- A power makes no more than `count` multiplications if their product is not a number or
keeps its magnitude in the next one. -/
def StopsAtRest (base : Binary64) : Prop :=
  ∀ exponent count, 0 < count →
    (product base count).isNan = true ∨
      abs (mul (product base count) base) = abs (product base count) →
    (powerRun base exponent).multiplications ≤ count

/-- Exactly the bases strictly between one half and one in magnitude run on when their products
have come to rest. -/
theorem stopsAtRest_iff (base : Binary64) : StopsAtRest base ↔ ¬base.BetweenHalfAndOne := by
  constructor
  · intro hstops hbase
    have hfew := hstops (ofBits 0x43D0000000000000) (1023 * 2 ^ 52) (by decide)
      (rests_iff.1 (hbase.rests_product le_rfl))
    rw [hbase.multiplications_powerRun, repetitions_two_pow] at hfew
    exact absurd hfew (by decide)
  · intro hbase exponent count hcount hmagnitude
    have hrests : Rests base (product base count) := rests_iff.2 hmagnitude
    exact multiplications_powerFrom_le (isSettled_of_rests hbase hrests) _ hcount

/-- The products of three quarters rest, but a power goes on multiplying. -/
theorem three_quarters_runs_on :
    abs (mul (product (ofBits 0x3FE8000000000000) (1023 * 2 ^ 52)) (ofBits 0x3FE8000000000000)) =
        abs (product (ofBits 0x3FE8000000000000) (1023 * 2 ^ 52)) ∧
      (powerRun (ofBits 0x3FE8000000000000) (ofBits 0x43D0000000000000)).multiplications =
        2 ^ 62 ∧
      1023 * 2 ^ 52 < 2 ^ 62 := by
  have hbase : BetweenHalfAndOne (ofBits 0x3FE8000000000000) := by
    decide +kernel
  have hrests := hbase.rests_product (Nat.le_refl (1023 * 2 ^ 52))
  refine ⟨?_, ?_, by decide⟩
  · rw [hrests, abs_negIf]
  · rw [hbase.multiplications_powerRun, repetitions_two_pow]

end Binary64

end Calculator

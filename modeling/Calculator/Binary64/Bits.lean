import Calculator.Binary64.Basic

/-!
# The interchange format

Sixty-four bits hold a value: the sign, eleven bits of exponent and fifty-two
bits of fraction.  Below the highest exponent, the sixty-three low bits count
the magnitudes in increasing order.  Every value can be read back from its
bits; what is not a number has one pattern of its own when written and any
other when read.
-/

namespace Calculator.Binary64

/-- The magnitude with these exponent and fraction fields. -/
def Magnitude.ofFields (exponent fraction : Nat) (hexponent : exponent < 2047)
    (hfraction : fraction < 2 ^ 52) : Magnitude :=
  match exponent with
  | 0 => ⟨fraction, onGrid_of_lt (Nat.lt_trans hfraction (by decide)), by
      have hlarge : 2 ^ 52 ≤ unitsInOne :=
        Nat.pow_le_pow_right Nat.two_pos (show 52 ≤ fractionBits by decide)
      have := unitsInOne_lt_overflowUnits
      omega⟩
  | exponent + 1 => ⟨(2 ^ 52 + fraction) * 2 ^ exponent, onGrid_mul_pow (by omega) exponent, by
      have hless : (2 ^ 52 + fraction) * 2 ^ exponent < 2 ^ 53 * 2 ^ exponent :=
        Nat.mul_lt_mul_of_pos_right (by omega) (Nat.two_pow_pos exponent)
      rw [← Nat.pow_add] at hless
      refine Nat.lt_of_lt_of_le hless (Nat.pow_le_pow_right Nat.two_pos ?_)
      have : fractionBits = 1074 := rfl
      omega⟩

/-- The position of a magnitude in increasing order, counted from zero. -/
def Magnitude.rank (magnitude : Magnitude) : Nat :=
  droppedBits magnitude.units * 2 ^ 52 + magnitude.units / 2 ^ droppedBits magnitude.units

/-- The value with these three fields. -/
def ofFields (negative : Bool) (exponent fraction : Nat) : Binary64 :=
  if hfields : exponent < 2047 ∧ fraction < 2 ^ 52 then
    .finite negative (.ofFields exponent fraction hfields.1 hfields.2)
  else if fraction = 0 then .infinity negative
  else .nan

def ofBits (bits : UInt64) : Binary64 :=
  ofFields (2 ^ 63 ≤ bits.toNat) (bits.toNat / 2 ^ 52 % 2 ^ 11) (bits.toNat % 2 ^ 52)

/-- The sixty-three bits below the sign. -/
def lowBits : Binary64 → Nat
  | .nan => 2047 * 2 ^ 52 + 2 ^ 51
  | .infinity _ => 2047 * 2 ^ 52
  | .finite _ magnitude => magnitude.rank

def toBits (value : Binary64) : UInt64 :=
  .ofNat (value.signBit.toNat * 2 ^ 63 + value.lowBits)

theorem Magnitude.eq_of_units_eq {left right : Magnitude} (hunits : left.units = right.units) :
    left = right := by
  cases left
  cases right
  cases hunits
  rfl

theorem Magnitude.units_ofFields_succ (exponent fraction : Nat) (hexponent : exponent + 1 < 2047)
    (hfraction : fraction < 2 ^ 52) :
    (ofFields (exponent + 1) fraction hexponent hfraction).units =
      (2 ^ 52 + fraction) * 2 ^ exponent := rfl

theorem droppedBits_eq_of_normal {units : Nat} (hnormal : 2 ^ 52 ≤ units) :
    2 ^ 52 * 2 ^ droppedBits units ≤ units ∧ units < 2 ^ 53 * 2 ^ droppedBits units := by
  have hzero : units ≠ 0 := by
    rintro rfl
    exact absurd hnormal (by decide)
  have hlog : 52 ≤ units.log2 := (Nat.le_log2 hzero).2 hnormal
  have hlower : 2 ^ units.log2 ≤ units := Nat.log2_self_le hzero
  have hupper : units < 2 ^ (units.log2 + 1) := Nat.lt_log2_self
  have hbits : units.log2 = 52 + droppedBits units := by
    unfold droppedBits
    omega
  rw [← Nat.pow_add, ← Nat.pow_add]
  rw [hbits] at hlower hupper
  refine ⟨hlower, ?_⟩
  rwa [show 53 + droppedBits units = 52 + droppedBits units + 1 by omega]

/-- A magnitude is found again from the exponent and the fraction of its rank. -/
theorem Magnitude.ofFields_rank (magnitude : Magnitude) :
    ∃ (exponent fraction : Nat) (hexponent : exponent < 2047) (hfraction : fraction < 2 ^ 52),
      magnitude.rank = exponent * 2 ^ 52 + fraction ∧
        ofFields exponent fraction hexponent hfraction = magnitude := by
  rcases magnitude with ⟨units, hgrid, hbounded⟩
  by_cases hsmall : units < 2 ^ 52
  · have hdropped : droppedBits units = 0 := by
      have hlog : units.log2 ≤ 52 := by
        by_cases hzero : units = 0
        · simp [hzero]
        · exact Nat.le_of_lt ((Nat.log2_lt hzero).2 hsmall)
      exact Nat.sub_eq_zero_of_le hlog
    refine ⟨0, units, by decide, hsmall, ?_, rfl⟩
    simp [rank, hdropped]
  · rcases hgrid with ⟨significand, hunits⟩
    have hnormal := droppedBits_eq_of_normal (Nat.le_of_not_lt hsmall)
    have hstep := Nat.two_pow_pos (droppedBits units)
    have hlower : 2 ^ 52 ≤ significand := by
      refine Nat.le_of_mul_le_mul_left ?_ hstep
      rw [Nat.mul_comm, ← hunits]
      exact hnormal.1
    have hupper : significand < 2 ^ 53 := by
      have hless : 2 ^ droppedBits units * significand < 2 ^ droppedBits units * 2 ^ 53 := by
        rw [← hunits, Nat.mul_comm]
        exact hnormal.2
      exact Nat.lt_of_mul_lt_mul_left hless
    have hexponent : droppedBits units + 1 < 2047 := by
      have hless : 2 ^ (52 + droppedBits units) < 2 ^ (fractionBits + 1024) := by
        rw [Nat.pow_add]
        exact Nat.lt_of_le_of_lt hnormal.1 hbounded
      have := (Nat.pow_lt_pow_iff_right Nat.one_lt_two).1 hless
      have : fractionBits = 1074 := rfl
      omega
    refine ⟨droppedBits units + 1, significand - 2 ^ 52, hexponent, by omega, ?_, ?_⟩
    · have hquotient : units / 2 ^ droppedBits units = significand :=
        Nat.div_eq_of_eq_mul_right hstep hunits
      simp only [rank, hquotient]
      omega
    · have hsum : 2 ^ 52 + (significand - 2 ^ 52) = significand := by omega
      apply eq_of_units_eq
      rw [units_ofFields_succ, hsum, Nat.mul_comm]
      exact hunits.symm

private theorem ofBits_of_toNat {negative : Bool} {exponent fraction : Nat} {bits : UInt64}
    (hexponent : exponent < 2 ^ 11) (hfraction : fraction < 2 ^ 52)
    (hbits : bits.toNat = negative.toNat * 2 ^ 63 + (exponent * 2 ^ 52 + fraction)) :
    ofBits bits = ofFields negative exponent fraction := by
  have hnegative : decide (2 ^ 63 ≤ bits.toNat) = negative := by
    cases negative with
    | false =>
        rw [hbits, decide_eq_false_iff_not, Bool.toNat_false]
        omega
    | true =>
        rw [hbits, decide_eq_true_iff, Bool.toNat_true]
        omega
  have hlow : bits.toNat % 2 ^ 52 = fraction := by
    rw [hbits]
    omega
  have hhigh : bits.toNat / 2 ^ 52 % 2 ^ 11 = exponent := by
    rw [hbits]
    omega
  rw [ofBits, hnegative, hlow, hhigh]

/-- Every value is read back from its bits. -/
theorem ofBits_toBits (value : Binary64) : ofBits (toBits value) = value := by
  cases value with
  | nan => decide
  | infinity negative => cases negative <;> decide
  | finite negative magnitude =>
      rcases magnitude.ofFields_rank with ⟨exponent, fraction, hexponent, hfraction, hrank, hfields⟩
      have hsign : negative.toNat ≤ 1 := by cases negative <;> decide
      have hword : (toBits (.finite negative magnitude)).toNat =
          negative.toNat * 2 ^ 63 + (exponent * 2 ^ 52 + fraction) := by
        rw [toBits, lowBits, hrank, signBit]
        refine UInt64.toNat_ofNat_of_lt' ?_
        unfold UInt64.size
        omega
      rw [ofBits_of_toNat (Nat.lt_of_lt_of_le hexponent (by decide)) hfraction hword]
      rw [ofFields, dif_pos ⟨hexponent, hfraction⟩, hfields]

end Calculator.Binary64

import Mathlib.Algebra.Order.Field.Rat
import Mathlib.Tactic.FieldSimp
import Mathlib.Tactic.LinearCombination
import Scim.Number.Double

/-!
Doubles that lie halfway between two decimals in the same place, of which the even one reads back as the
double too. One printer gives the upper of the two, so the lower one is never printed.
-/
namespace Scim.Double

variable {digits : ℕ} {exponent : ℤ}

/-- The number that steps count. -/
def value (steps : ℕ) : ℚ := steps / stepsPerOne

theorem value_nonneg (steps : ℕ) : 0 ≤ value steps :=
  div_nonneg (Nat.cast_nonneg _) (Nat.cast_nonneg _)

theorem stepsPerOne_pos : 0 < stepsPerOne := by
  unfold stepsPerOne
  generalize 1074 = bits
  exact Nat.two_pow_pos bits

theorem inPowers_pos (steps : ℕ) (exponent : ℤ) : 0 < (inPowers steps exponent).2 :=
  Nat.mul_pos stepsPerOne_pos (Nat.pow_pos (by decide))

theorem value_eq_inPowers (steps : ℕ) (exponent : ℤ) :
    value steps = (inPowers steps exponent).1 / (inPowers steps exponent).2 * 10 ^ exponent := by
  have hone : (stepsPerOne : ℚ) ≠ 0 := Nat.cast_ne_zero.2 stepsPerOne_pos.ne'
  have hparts : exponent = (exponent.toNat : ℤ) - ((-exponent).toNat : ℤ) := by omega
  have hpower : (10 : ℚ) ^ exponent = 10 ^ exponent.toNat / 10 ^ (-exponent).toNat := by
    rw [← zpow_natCast, ← zpow_natCast, ← zpow_sub₀ (by norm_num), ← hparts]
  rw [value, inPowers, hpower]
  generalize exponent.toNat = up
  generalize (-exponent).toNat = down
  simp only [Nat.pow_eq]
  push_cast
  field_simp

/-- In the middle between two whole numbers. -/
theorem div_mod_of_halfway {num den : ℕ} (hpos : 0 < den) (h : 2 * num + den = 2 * (den * digits)) :
    num / den + 1 = digits ∧ 2 * (num % den) = den := by
  have hsplit := Nat.div_add_mod num den
  have hrest := Nat.mod_lt num hpos
  generalize num / den = below at hsplit ⊢
  generalize num % den = rest at hsplit hrest ⊢
  have hlower : den * below < den * digits := by omega
  have hupper : den * digits < den * (below + 2) := by
    rw [Nat.mul_add]
    omega
  obtain rfl : digits = below + 1 := by
    have := Nat.lt_of_mul_lt_mul_left hlower
    have := Nat.lt_of_mul_lt_mul_left hupper
    omega
  rw [Nat.mul_add] at h
  omega

/-- Odd digits are halfway exactly if their double lies in the middle between them and the even digits
below them and these read back as the same double. -/
theorem isHalfway_iff : isHalfway digits exponent = true ↔ digits % 2 = 1 ∧
    value (ofDecimal digits exponent) = (digits - 1 / 2) * 10 ^ exponent ∧
    ofDecimal (digits - 1) exponent = ofDecimal digits exponent := by
  have hpos := inPowers_pos (ofDecimal digits exponent) exponent
  have hden : ((inPowers (ofDecimal digits exponent) exponent).2 : ℚ) ≠ 0 :=
    Nat.cast_ne_zero.2 hpos.ne'
  have hten : (10 : ℚ) ^ exponent ≠ 0 := zpow_ne_zero _ (by norm_num)
  rw [value_eq_inPowers _ exponent, mul_left_inj' hten, div_eq_iff hden]
  simp only [isHalfway, Bool.and_eq_true, beq_iff_eq, and_assoc]
  refine and_congr_right fun _ => and_congr_left fun _ => ?_
  rw [← Nat.cast_inj (R := ℚ)]
  push_cast
  constructor
  · intro h
    linear_combination h / 2
  · intro h
    linear_combination 2 * h

theorem odd_of_isHalfway (h : isHalfway digits exponent = true) : digits % 2 = 1 :=
  (isHalfway_iff.1 h).1

/-- A half goes up, so the even digits below it are not printed. -/
theorem not_isPrinted_of_isHalfway (h : isHalfway digits exponent = true) :
    isPrinted (digits - 1) exponent = false := by
  simp only [isHalfway, Bool.and_eq_true, beq_iff_eq] at h
  obtain ⟨⟨hodd, hhalf⟩, hsame⟩ := h
  have hpos := inPowers_pos (ofDecimal digits exponent) exponent
  obtain ⟨hbelow, hrest⟩ := div_mod_of_halfway hpos hhalf
  have hupper : digits - 1 ≠ digits := by omega
  simp [isPrinted, hsame, hrest, hbelow, hupper]

theorem not_isPrinted_zero (exponent : ℤ) : isPrinted 0 exponent = false := by
  have hsteps : ofDecimal 0 exponent = 0 := by
    simp [ofDecimal, nearest, roundEven]
  simp [isPrinted, hsteps]

end Scim.Double

import Mathlib.Data.Rat.Cast.Order
import Mathlib.Tactic.NormNum
import Scim.Proofs.Number.Decimal

/-!
The rational numbers that decimals stand for. Comparing decimals is comparing these numbers, and the
text of a decimal determines its number.
-/
namespace Scim.Decimal

def value (d : Decimal) : ℚ := d.coefficient * 10 ^ (-d.scale)

def size (d : Decimal) : ℚ := d.magnitude * 10 ^ (-d.scale)

variable {a b d : Decimal}

theorem ten_zpow_pos (n : ℤ) : (0 : ℚ) < 10 ^ n := zpow_pos (by norm_num) n

theorem value_of_nonneg (h : 0 ≤ d.coefficient) : d.value = d.size := by
  have hnat : d.coefficient = (d.magnitude : ℤ) := by
    unfold magnitude
    omega
  rw [value, size, hnat, Int.cast_natCast]

theorem value_of_nonpos (h : d.coefficient ≤ 0) : d.value = -d.size := by
  have hnat : d.coefficient = -(d.magnitude : ℤ) := by
    unfold magnitude
    omega
  rw [value, size, hnat, Int.cast_neg, Int.cast_natCast, neg_mul]

theorem size_pos (h : d.coefficient ≠ 0) : 0 < d.size := by
  have hmagnitude : 0 < d.magnitude := Int.natAbs_pos.2 h
  exact mul_pos (Nat.cast_pos.2 hmagnitude) (ten_zpow_pos _)

/-- The leading digit bounds the size from above. -/
theorem size_lt (d : Decimal) : d.size < 10 ^ d.leading := by
  have hdigits : d.magnitude < 10 ^ (Nat.toDigits 10 d.magnitude).length :=
    (Nat.length_toDigits_le_iff (by decide) Nat.length_toDigits_pos).1 (Nat.le_refl _)
  rw [size, leading, sub_eq_add_neg, zpow_add₀ (by norm_num), zpow_natCast]
  refine mul_lt_mul_of_pos_right ?_ (ten_zpow_pos _)
  exact_mod_cast hdigits

/-- It also bounds the size from below. -/
theorem le_size (h : d.coefficient ≠ 0) : (10 : ℚ) ^ (d.leading - 1) ≤ d.size := by
  have hmagnitude : 0 < d.magnitude := Int.natAbs_pos.2 h
  obtain ⟨k, hk⟩ : ∃ k, (Nat.toDigits 10 d.magnitude).length = k + 1 :=
    Nat.exists_eq_succ_of_ne_zero (Nat.ne_of_gt Nat.length_toDigits_pos)
  have hdigits : 10 ^ k ≤ d.magnitude := by
    by_cases hzero : k = 0
    · subst hzero
      exact hmagnitude
    · have hnot := (Nat.length_toDigits_le_iff (b := 10) (n := d.magnitude) (by decide)
        (Nat.pos_of_ne_zero hzero)).not.1 (by omega)
      omega
  have hleading : d.leading - 1 = k + -d.scale := by
    rw [leading, hk]
    omega
  rw [size, hleading, zpow_add₀ (by norm_num), zpow_natCast]
  refine mul_le_mul_of_nonneg_right ?_ (ten_zpow_pos _).le
  exact_mod_cast hdigits

theorem size_lt_size (hb : b.coefficient ≠ 0) (h : a.leading < b.leading) : a.size < b.size := by
  calc
    a.size < 10 ^ a.leading := size_lt a
    _ ≤ 10 ^ (b.leading - 1) := zpow_le_zpow_right₀ (by norm_num) (by omega)
    _ ≤ b.size := le_size hb

/-- A coefficient brought to the greater of two scales. -/
theorem cast_magnitude_mul (d : Decimal) (scale : ℤ) :
    ((d.magnitude * Nat.pow 10 (scale - d.scale).toNat : ℕ) : ℚ) =
      d.size * 10 ^ max d.scale scale := by
  have hscale : ((scale - d.scale).toNat : ℤ) = -d.scale + max d.scale scale := by omega
  rw [size, mul_assoc, ← zpow_add₀ (by norm_num), ← hscale, zpow_natCast]
  push_cast [Nat.pow_eq]
  rfl

/-- Magnitudes are ordered by size. -/
theorem orderMagnitude_eq_compare (ha : a.coefficient ≠ 0) (hb : b.coefficient ≠ 0) :
    orderMagnitude a b = compare a.size b.size := by
  unfold orderMagnitude
  rcases lt_trichotomy a.leading b.leading with hlt | heq | hgt
  · rw [compare_lt_iff_lt.2 hlt, compare_lt_iff_lt.2 (size_lt_size hb hlt)]
    rfl
  · -- the coefficients are compared at the greater of the two scales
    have hscale := ten_zpow_pos (max a.scale b.scale)
    have hleft := cast_magnitude_mul a b.scale
    have hright := cast_magnitude_mul b a.scale
    rw [max_comm] at hright
    rw [compare_eq_iff_eq.2 heq, Ordering.eq_then, ← cmp_eq_compare, ← cmp_eq_compare,
      ← (Nat.strictMono_cast (α := ℚ)).cmp_map_eq, hleft, hright, cmp_mul_pos_right hscale]
  · rw [compare_gt_iff_gt.2 hgt, compare_gt_iff_gt.2 (size_lt_size ha hgt)]
    rfl

theorem value_pos (h : 0 < d.coefficient) : 0 < d.value := by
  rw [value_of_nonneg (by omega)]
  exact size_pos (by omega)

theorem value_neg (h : d.coefficient < 0) : d.value < 0 := by
  rw [value_of_nonpos (by omega), neg_lt_zero]
  exact size_pos (by omega)

theorem value_eq_zero (h : d.coefficient = 0) : d.value = 0 := by
  rw [value, h, Int.cast_zero, zero_mul]

theorem value_lt_of_sign_lt (h : a.coefficient.sign < b.coefficient.sign) : a.value < b.value := by
  rcases lt_trichotomy a.coefficient 0 with ha | ha | ha
  · rcases lt_trichotomy b.coefficient 0 with hb | hb | hb
    · rw [Int.sign_eq_neg_one_of_neg ha, Int.sign_eq_neg_one_of_neg hb] at h
      exact absurd h (lt_irrefl _)
    · rw [value_eq_zero hb]
      exact value_neg ha
    · exact (value_neg ha).trans (value_pos hb)
  · rw [ha, Int.sign_zero, Int.sign_pos_iff] at h
    rw [value_eq_zero ha]
    exact value_pos h
  · rw [Int.sign_eq_one_of_pos ha] at h
    rcases Int.sign_trichotomy b.coefficient with hb | hb | hb
    · omega
    · omega
    · omega

/-- The order of decimals is the order of their numbers. -/
theorem order_eq_compare (a b : Decimal) : a.order b = compare a.value b.value := by
  unfold order
  rcases lt_trichotomy a.coefficient.sign b.coefficient.sign with hlt | heq | hgt
  · rw [compare_lt_iff_lt.2 hlt, compare_lt_iff_lt.2 (value_lt_of_sign_lt hlt)]
    rfl
  · rw [compare_eq_iff_eq.2 heq, Ordering.eq_then]
    split
    · rename_i ha
      have hb : b.coefficient = 0 := by
        rwa [ha, Int.sign_zero, eq_comm, Int.sign_eq_zero_iff_zero] at heq
      rw [value_eq_zero ha, value_eq_zero hb, compare_eq_iff_eq.2 rfl]
    split
    · rename_i ha
      have hb : 0 < b.coefficient := by
        rwa [Int.sign_eq_one_of_pos ha, eq_comm, Int.sign_eq_one_iff_pos] at heq
      rw [orderMagnitude_eq_compare (by omega) (by omega), value_of_nonneg (by omega),
        value_of_nonneg (by omega)]
    · have ha : a.coefficient < 0 := by omega
      have hb : b.coefficient < 0 := by
        rwa [Int.sign_eq_neg_one_of_neg ha, eq_comm, Int.sign_eq_neg_one_iff_neg] at heq
      rw [orderMagnitude_eq_compare (by omega) (by omega), value_of_nonpos (by omega),
        value_of_nonpos (by omega), ← cmp_eq_compare, ← cmp_eq_compare]
      have hanti : StrictAnti fun q : ℚ => -q := fun _ _ hlt => neg_lt_neg hlt
      exact (hanti.cmp_map_eq a.size b.size).symm
  · rw [compare_gt_iff_gt.2 hgt, compare_gt_iff_gt.2 (value_lt_of_sign_lt hgt)]
    rfl

theorem order_self (d : Decimal) : d.order d = .eq := by
  rw [order_eq_compare, compare_eq_iff_eq]

/-- Decimals with the same text stand for the same number. -/
theorem value_eq_of_text_eq (ha : a.scale ≤ 9223372036854775807) (hb : b.scale ≤ 9223372036854775807)
    (h : a.text = b.text) : a.value = b.value := by
  obtain ⟨c, hread, horder, -⟩ := exists_read_text ha
  obtain ⟨c', hread', horder', -⟩ := exists_read_text hb
  obtain rfl : c = c' := by
    rw [h, hread'] at hread
    exact (Option.some.inj hread).symm
  rw [order_eq_compare, compare_eq_iff_eq] at horder horder'
  rw [horder, horder']

end Scim.Decimal

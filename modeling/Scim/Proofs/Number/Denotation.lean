import Mathlib.Tactic.FieldSimp
import Mathlib.Tactic.Ring
import Scim.Filter.Evaluation
import Scim.Proofs.Attribute.Path
import Scim.Proofs.Number.Value

/-!
The rational number that a literal denotes, told by the literal alone: its digits before and behind
the point, its exponent and its sign. A literal of ASCII digits is read as a decimal of this number
whenever its last digit stands at a place that decimals have, and any other literal is not read. So
comparing two literals is comparing their numbers.
-/
namespace Scim

namespace Numeral

def power (n : Numeral) : ℤ := Decimal.signed n.exponentNegative (Nat.ofDigitChars 10 n.exponent 0)

def unsigned (n : Numeral) : ℚ :=
  Nat.ofDigitChars 10 n.whole 0 + Nat.ofDigitChars 10 n.fraction 0 / 10 ^ n.fraction.length

def value (n : Numeral) : ℚ := (if n.negative then -n.unsigned else n.unsigned) * 10 ^ n.power

end Numeral

/-- A text is a literal of ASCII digits that denotes a number, in the range of decimals. -/
inductive Denotes : String → ℚ → Prop
  | literal {text : String} {n : Numeral} (hspelled : Numeral.Spelled text.toList n)
      (hdigits : ∀ c ∈ n.whole ++ n.fraction ++ n.exponent, c.isDigit = true)
      (hrange : Decimal.InRange (n.fraction.length - n.power)) : Denotes text n.value

variable {text : String} {a b : ℚ}

/-- The fraction of a literal is part of the coefficient, and its length is part of the scale. -/
theorem Decimal.value_of_parts (n : Numeral) :
    Decimal.value ⟨signed n.negative (Nat.ofDigitChars 10 (n.whole ++ n.fraction) 0),
      n.fraction.length - n.power⟩ = n.value := by
  have hcoefficient : (Nat.ofDigitChars 10 (n.whole ++ n.fraction) 0 : ℚ) =
      n.unsigned * 10 ^ n.fraction.length := by
    rw [Nat.ofDigitChars_append, Nat.ofDigitChars_eq_ofDigitChars_zero, Numeral.unsigned]
    push_cast
    field_simp
  have hscale : (10 : ℚ) ^ (-(n.fraction.length - n.power : ℤ)) * 10 ^ n.fraction.length =
      10 ^ n.power := by
    rw [← zpow_natCast, ← zpow_add₀ (by norm_num)]
    congr 1
    ring
  have hsigned : (signed n.negative (Nat.ofDigitChars 10 (n.whole ++ n.fraction) 0) : ℚ) =
      (if n.negative then -n.unsigned else n.unsigned) * 10 ^ n.fraction.length := by
    cases n.negative
    · simp only [signed, Bool.false_eq_true, if_false, Int.cast_natCast, hcoefficient]
    · simp only [signed, if_true, Int.cast_neg, Int.cast_natCast, hcoefficient, neg_mul]
  rw [Decimal.value, hsigned, Numeral.value, ← hscale]
  ring

/-- A literal is a decimal exactly if its digits are ASCII and its scale is in range. -/
theorem Decimal.ofNumeral?_eq_some_iff {n : Numeral} {d : Decimal} : ofNumeral? n = some d ↔
    (∀ c ∈ n.whole ++ n.fraction ++ n.exponent, c.isDigit = true) ∧
      InRange (n.fraction.length - n.power) ∧
      d = ⟨signed n.negative (Nat.ofDigitChars 10 (n.whole ++ n.fraction) 0),
        n.fraction.length - n.power⟩ := by
  rw [← List.all_eq_true, ← and_assoc, eq_comm (a := d), ofNumeral?, Numeral.power]
  split
  · rename_i h
    rw [and_iff_right h, Option.some.injEq]
  · rename_i h
    exact iff_of_false (by simp) fun hread => h hread.1

/-- The texts that are read as decimals are the literals that denote a number, and it is the number of
the decimal. -/
theorem denotes_iff_read : Denotes text a ↔ ∃ d, Decimal.read text = some d ∧ d.value = a := by
  constructor
  · rintro ⟨hspelled, hdigits, hrange⟩
    refine ⟨_, ?_, Decimal.value_of_parts _⟩
    rw [Decimal.read, Numeral.read_of_spelled hspelled, Option.bind_some]
    exact Decimal.ofNumeral?_eq_some_iff.2 ⟨hdigits, hrange, rfl⟩
  · rintro ⟨d, hread, rfl⟩
    obtain ⟨n, hn, hvalue⟩ := Option.bind_eq_some_iff.1 hread
    obtain ⟨hdigits, hrange, rfl⟩ := Decimal.ofNumeral?_eq_some_iff.1 hvalue
    rw [Decimal.value_of_parts]
    exact .literal (Numeral.spelled_of_read hn) hdigits hrange

/-- A literal denotes one number. -/
theorem Denotes.unique (h : Denotes text a) (h' : Denotes text b) : a = b := by
  obtain ⟨d, hread, rfl⟩ := denotes_iff_read.1 h
  obtain ⟨d', hread', rfl⟩ := denotes_iff_read.1 h'
  rw [Option.some.inj (hread.symm.trans hread')]

/-- A literal starts with a sign or a digit, which no name does. -/
theorem not_denotes_of_leadsName (h : AttributePath.LeadsName text) : ¬Denotes text a := by
  obtain ⟨c, cs, htext, hc⟩ := h
  obtain ⟨hdigit, hplus, hminus⟩ := AttributePath.not_isDigit_of_isNameStart hc
  rintro ⟨hspelled, hdigits, -⟩
  rcases hspelled.head (by rw [htext]; rfl : text.toList.head? = some c) with rfl | rfl | hwhole
  · exact hminus rfl
  · exact hplus rfl
  · rw [hdigits c (by simp [hwhole])] at hdigit
    exact Bool.noConfusion hdigit

def CompareOp.Relates : CompareOp → ℚ → ℚ → Prop
  | eq, a, b => a = b
  | ne, a, b => a ≠ b
  | gt, a, b => a > b
  | ge, a, b => a ≥ b
  | lt, a, b => a < b
  | le, a, b => a ≤ b
  | _, _, _ => False

theorem CompareOp.accepts_compare_iff (op : CompareOp) (a b : ℚ) :
    op.accepts (compare a b) = true ↔ op.Relates a b := by
  cases op with
  | eq => exact beq_iff_eq.trans compare_eq_iff_eq
  | ne => exact bne_iff_ne.trans compare_eq_iff_eq.not
  | gt => exact beq_iff_eq.trans compare_gt_iff_gt
  | ge => exact bne_iff_ne.trans compare_ge_iff_ge
  | lt => exact beq_iff_eq.trans compare_lt_iff_lt
  | le => exact bne_iff_ne.trans compare_le_iff_le
  | _ => simp [accepts, Relates]

end Scim

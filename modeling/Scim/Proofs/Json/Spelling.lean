import Scim.Json.Spelling
import Scim.Proofs.Number.Double
import Scim.Proofs.Number.Notation

/-!
Numbers that are stored by value and spelled anew. The new spelling is a literal of the same number,
or, where a double lies halfway between two decimals, of the even one of the two. It is kept when it is
stored again.
-/
namespace Scim.Json

open Numeral Decimal

variable {n : Numeral} {digits ds : List Char} {zeros : ℕ} {place : ℤ} {spelling : String} {a b : ℚ}

/-- Digits are lowered by one in the last place if their number is odd. -/
theorem exists_lowered (hdigits : ∀ c ∈ digits, c.isDigit = true)
    (hodd : Nat.ofDigitChars 10 digits 0 % 2 = 1) : ∃ front d, d % 2 = 1 ∧ d < 10 ∧
      digits = front ++ [Nat.digitChar d] ∧ lowered digits = front ++ [Nat.digitChar (d - 1)] := by
  rcases List.eq_nil_or_concat' digits with rfl | ⟨front, c, rfl⟩
  · simp at hodd
  obtain ⟨d, hd, rfl⟩ := Digits.exists_digitChar (hdigits c (by simp))
  rw [Nat.ofDigitChars_append, Nat.ofDigitChars_cons_digitChar_of_lt_ten hd, Nat.ofDigitChars_nil] at hodd
  have hpred : ∀ d < 10, d % 2 = 1 →
      Char.ofNat ((Nat.digitChar d).toNat - 1) = Nat.digitChar (d - 1) := by decide
  refine ⟨front, d, by omega, hd, rfl, ?_⟩
  simp [lowered, List.modify_eq_take_drop, hpred d hd (by omega)]

/-- Their number is one less. -/
theorem ofDigitChars_lowered (hdigits : ∀ c ∈ digits, c.isDigit = true)
    (hodd : Nat.ofDigitChars 10 digits 0 % 2 = 1) :
    Nat.ofDigitChars 10 (lowered digits) 0 = Nat.ofDigitChars 10 digits 0 - 1 := by
  obtain ⟨front, d, hd, hlt, rfl, hlowered⟩ := exists_lowered hdigits hodd
  rw [hlowered, Nat.ofDigitChars_append, Nat.ofDigitChars_append,
    Nat.ofDigitChars_cons_digitChar_of_lt_ten hlt,
    Nat.ofDigitChars_cons_digitChar_of_lt_ten (by omega), Nat.ofDigitChars_nil, Nat.ofDigitChars_nil]
  omega

theorem isDigit_of_mem_lowered (hdigits : ∀ c ∈ digits, c.isDigit = true)
    (hodd : Nat.ofDigitChars 10 digits 0 % 2 = 1) : ∀ c ∈ lowered digits, c.isDigit = true := by
  obtain ⟨front, d, hd, hlt, rfl, hlowered⟩ := exists_lowered hdigits hodd
  have hdigit : ∀ d < 10, (Nat.digitChar d).isDigit = true := by decide
  rw [hlowered]
  intro c hc
  rcases List.mem_append.1 hc with hc | hc
  · exact hdigits c (List.mem_append_left _ hc)
  · rw [List.mem_singleton.1 hc]
    exact hdigit (d - 1) (by omega)

theorem length_lowered (digits : List Char) : (lowered digits).length = digits.length := by
  simp [lowered]

theorem lowered_ne_nil (h : digits ≠ []) : lowered digits ≠ [] := by
  rwa [← List.length_pos_iff, length_lowered, List.length_pos_iff]

theorem lowered_append (digits : List Char) {more : List Char} (hmore : more ≠ []) :
    lowered (digits ++ more) = digits ++ lowered more := by
  obtain ⟨front, c, rfl⟩ := (List.eq_nil_or_concat' more).resolve_left hmore
  simp [lowered, List.modify_eq_take_drop, ← List.append_assoc]

/-- The digits of a literal that a double is printed as, between needless zeros, and the power of ten
that the last of them counts. They are few and it is small, as for all doubles. -/
structure Significant (n : Numeral) (digits : List Char) (zeros : ℕ) (place : ℤ) : Prop where
  isDigit : ∀ c ∈ n.whole ++ n.fraction, c.isDigit = true
  exponent : n.exponent = []
  last : n.fraction.getLast? ≠ some '0'
  spread : ∃ front, n.whole ++ n.fraction =
    List.replicate front '0' ++ (digits ++ List.replicate zeros '0')
  place_eq : place = zeros - n.fraction.length
  few : digits.length ≤ 17
  small : (place + digits.length - 1).natAbs ≤ 400
  printed : Double.isPrinted (Nat.ofDigitChars 10 digits 0) place = true

theorem significant_of_spellsDouble (h : spellsDouble n = true) :
    ∃ zeros, Significant n (significant n).1 zeros (significant n).2 := by
  simp only [spellsDouble, Bool.and_eq_true, List.isEmpty_iff, bne_iff_ne, decide_eq_true_eq] at h
  obtain ⟨⟨⟨⟨⟨hascii, hexponent⟩, hlast⟩, hfew⟩, hsmall⟩, hprinted⟩ := h
  refine ⟨_, List.all_eq_true.1 hascii, hexponent, hlast,
    ⟨((n.whole ++ n.fraction).takeWhile (· == '0')).length, ?_⟩, rfl, hfew, hsmall, hprinted⟩
  rw [significant, Digits.take_append_zeros, ← Digits.takeWhile_zero, List.takeWhile_append_dropWhile]

namespace Significant

variable (h : Significant n digits zeros place)

include h

theorem nonempty : digits ≠ [] := by
  rintro rfl
  have hprinted := h.printed
  rw [Nat.ofDigitChars_nil, Double.not_isPrinted_zero] at hprinted
  exact Bool.noConfusion hprinted

theorem isDigit_of_mem : ∀ c ∈ digits, c.isDigit = true := by
  intro c hc
  obtain ⟨front, hspread⟩ := h.spread
  refine h.isDigit c ?_
  rw [hspread]
  simp [hc]

theorem power_eq_zero : n.power = 0 := by
  rw [Numeral.power, h.exponent, Nat.ofDigitChars_nil]
  cases n.exponentNegative <;> rfl

theorem coefficient : Nat.ofDigitChars 10 (n.whole ++ n.fraction) 0 =
    Nat.ofDigitChars 10 digits 0 * 10 ^ zeros := by
  obtain ⟨front, hspread⟩ := h.spread
  rw [hspread, Nat.ofDigitChars_append, Nat.ofDigitChars_append, Nat.ofDigitChars_replicate_zero,
    Nat.ofDigitChars_replicate_zero, Nat.mul_zero, Nat.mul_comm]

/-- The digits between the zeros make up the number. -/
theorem value : n.value = signed n.negative (Nat.ofDigitChars 10 digits 0) * 10 ^ place := by
  have hplaces : (n.fraction.length - n.power : ℤ) = -place + zeros := by
    rw [h.power_eq_zero, h.place_eq]
    ring
  have hscaled := value_scaled n.negative (Nat.ofDigitChars 10 digits 0) zeros (-place)
  rw [neg_neg] at hscaled
  rw [← value_of_parts, h.coefficient, hplaces, ← hscaled, scaled]

/-- A fraction does not end in zero. -/
theorem zeros_eq_zero (hfraction : n.fraction ≠ []) : zeros = 0 := by
  by_contra hzeros
  obtain ⟨front, hspread⟩ := h.spread
  obtain ⟨k, rfl⟩ := Nat.exists_eq_succ_of_ne_zero hzeros
  have hend := congrArg List.getLast? hspread
  rw [List.replicate_succ', ← List.append_assoc, ← List.append_assoc, List.getLast?_concat,
    List.getLast?_append_of_ne_nil _ hfraction] at hend
  exact h.last hend

theorem inRange : InRange (n.fraction.length - n.power) := by
  have hplace := h.place_eq
  have hfew := h.few
  have hsmall := h.small
  rw [h.power_eq_zero, InRange]
  by_cases hfraction : n.fraction = []
  · rw [hfraction, List.length_nil]
    omega
  · have hzeros := h.zeros_eq_zero hfraction
    omega

theorem denotes (hspelled : Spelled spelling.toList n) : Denotes spelling n.value := by
  refine .literal hspelled (fun c hc => ?_) h.inRange
  rw [h.exponent, List.append_nil] at hc
  exact h.isDigit c hc

end Significant

def scientificParts (negative : Bool) (digits : List Char) (power : ℤ) : Numeral :=
  ⟨negative, digits.take 1, digits.drop 1, decide (power < 0), Nat.toDigits 10 power.natAbs⟩

theorem spelled_scientific (negative : Bool) (hne : digits ≠ [])
    (hdigits : ∀ c ∈ digits, c.isDigit = true) (power : ℤ) :
    Spelled (signText negative ++ scientific digits power)
      (scientificParts negative digits power) := by
  have hwhole : DigitText (digits.take 1) :=
    digitText_of_isDigit (by simpa using hne) fun c hc => hdigits c (List.mem_of_mem_take hc)
  have hfraction : FractionText (if 1 < digits.length then '.' :: digits.drop 1 else [])
      (digits.drop 1) := by
    split
    · rename_i hlength
      have hrest : digits.drop 1 ≠ [] := by
        rw [Ne, List.drop_eq_nil_iff]
        omega
      exact .point (digitText_of_isDigit hrest fun c hc => hdigits c (List.mem_of_mem_drop hc))
    · rename_i hlength
      rw [List.drop_of_length_le (by omega)]
      exact .absent
  have hsign : SignText [if power < 0 then '-' else '+'] (decide (power < 0)) := by
    by_cases hpower : power < 0
    · simpa [hpower] using SignText.minus
    · simpa [hpower] using SignText.plus
  have hpower : DigitText (Nat.toDigits 10 power.natAbs) :=
    digitText_of_isDigit Nat.toDigits_ne_nil fun c hc => Digits.isDigit_of_mem_toDigits hc
  have hexponent := ExponentText.marked (c := 'e') (.inl rfl) hsign hpower
  simpa [scientific, scientificParts] using
    Spelled.parts (signText_spelled negative) hwhole hfraction hexponent

theorem power_scientificParts (negative : Bool) (digits : List Char) (power : ℤ) :
    (scientificParts negative digits power).power = power := by
  simp only [Numeral.power, scientificParts, Nat.ofDigitChars_ten_toDigits, signed]
  split
  · rename_i hpower
    have := of_decide_eq_true hpower
    omega
  · rename_i hpower
    have : ¬power < 0 := fun h => hpower (decide_eq_true h)
    omega

/-- Scientific notation denotes the number of its digits. -/
theorem denotes_scientific (negative : Bool) (hne : digits ≠ [])
    (hdigits : ∀ c ∈ digits, c.isDigit = true) (hfew : digits.length ≤ 17)
    (hsmall : (place + digits.length - 1).natAbs ≤ 400) :
    Denotes (String.ofList (signText negative ++ scientific digits (place + digits.length - 1)))
      (signed negative (Nat.ofDigitChars 10 digits 0) * 10 ^ place) := by
  have hpositive : 0 < digits.length := List.length_pos_iff.2 hne
  have hplaces : ((digits.length - 1 : ℕ) - (place + digits.length - 1) : ℤ) = -place := by omega
  have hvalue : (scientificParts negative digits (place + digits.length - 1)).value =
      signed negative (Nat.ofDigitChars 10 digits 0) * 10 ^ place := by
    rw [← value_of_parts, power_scientificParts, Decimal.value]
    simp only [scientificParts, List.take_append_drop, List.length_drop, hplaces, neg_neg]
  rw [← hvalue]
  refine .literal ?_ ?_ ?_
  · rw [String.toList_ofList]
    exact spelled_scientific negative hne hdigits _
  · simp only [scientificParts, List.take_append_drop, List.mem_append]
    rintro c (hc | hc)
    · exact hdigits c hc
    · exact Digits.isDigit_of_mem_toDigits hc
  · rw [power_scientificParts, InRange]
    simp only [scientificParts, List.length_drop]
    omega

def loweredParts (n : Numeral) : Numeral := ⟨n.negative, n.whole, lowered n.fraction, false, []⟩

section Halfway

variable (hspelled : Spelled spelling.toList n) (h : Significant n digits zeros place)
  (hhalf : Double.isHalfway (Nat.ofDigitChars 10 digits 0) place = true)

include h hhalf

theorem Significant.ofDigitChars_loweredParts (hfraction : n.fraction ≠ []) :
    (∀ c ∈ n.whole ++ lowered n.fraction, c.isDigit = true) ∧
      Nat.ofDigitChars 10 (n.whole ++ lowered n.fraction) 0 = Nat.ofDigitChars 10 digits 0 - 1 := by
  have hcoefficient := h.coefficient
  rw [h.zeros_eq_zero hfraction, Nat.pow_zero, Nat.mul_one] at hcoefficient
  have hodd := Double.odd_of_isHalfway hhalf
  rw [← hcoefficient] at hodd ⊢
  rw [← lowered_append n.whole hfraction]
  exact ⟨isDigit_of_mem_lowered h.isDigit hodd, ofDigitChars_lowered h.isDigit hodd⟩

/-- The lowered literal is not spelled as its double is: that is the literal before. -/
theorem not_spellsDouble_loweredParts (hfraction : n.fraction ≠ []) :
    spellsDouble (loweredParts n) = false := by
  rw [← Bool.not_eq_true]
  intro hspells
  obtain ⟨zeros', h'⟩ := significant_of_spellsDouble hspells
  have hzeros := h'.zeros_eq_zero (lowered_ne_nil hfraction)
  have hplace : (significant (loweredParts n)).2 = place := by
    rw [h'.place_eq, h.place_eq, h.zeros_eq_zero hfraction, hzeros]
    simp only [loweredParts, length_lowered]
  have hnumber := h'.coefficient
  rw [hzeros, Nat.pow_zero, Nat.mul_one] at hnumber
  have hprinted := h'.printed
  rw [← hnumber, hplace] at hprinted
  simp only [loweredParts, (h.ofDigitChars_loweredParts hhalf hfraction).2,
    Double.not_isPrinted_of_isHalfway hhalf] at hprinted
  exact Bool.noConfusion hprinted

include hspelled

theorem spelled_loweredParts (hfraction : n.fraction ≠ []) :
    Spelled (signText n.negative ++ n.whole ++ '.' :: lowered n.fraction) (loweredParts n) := by
  obtain ⟨hdigits, -⟩ := h.ofDigitChars_loweredParts hhalf hfraction
  have hwhole := hspelled.whole_ne_nil
  have hlowered := lowered_ne_nil hfraction
  have hparts := Spelled.parts (signText_spelled n.negative)
    (digitText_of_isDigit hwhole fun c hc => hdigits c (List.mem_append_left _ hc))
    (.point (digitText_of_isDigit hlowered fun c hc => hdigits c (List.mem_append_right _ hc)))
    .absent
  simpa [loweredParts] using hparts

/-- In plain notation the lowered literal denotes the even number. -/
theorem denotes_loweredParts (hfraction : n.fraction ≠ []) :
    Denotes (String.ofList (signText n.negative ++ n.whole ++ '.' :: lowered n.fraction))
      (signed n.negative (Nat.ofDigitChars 10 digits 0 - 1) * 10 ^ place) := by
  obtain ⟨hdigits, hnumber⟩ := h.ofDigitChars_loweredParts hhalf hfraction
  have hpower : (loweredParts n).power = 0 := rfl
  have hvalue : (loweredParts n).value =
      signed n.negative (Nat.ofDigitChars 10 digits 0 - 1) * 10 ^ place := by
    rw [← value_of_parts, hpower, Decimal.value]
    simp only [loweredParts, hnumber, length_lowered, h.place_eq, h.zeros_eq_zero hfraction]
    congr 2
    omega
  rw [← hvalue]
  refine .literal ?_ ?_ ?_
  · rw [String.toList_ofList]
    exact spelled_loweredParts hspelled h hhalf hfraction
  · simpa [loweredParts] using hdigits
  · have hrange := h.inRange
    rwa [h.power_eq_zero, ← hpower, ← length_lowered] at hrange

end Halfway

/-- Two decimals that a double lies halfway between and that both read back as it. The second one is
even. -/
def Tied (a b : ℚ) : Prop :=
  ∃ (negative : Bool) (digits : ℕ) (place : ℤ), Double.isHalfway digits place = true ∧
    a = signed negative digits * 10 ^ place ∧ b = signed negative (digits - 1) * 10 ^ place

/-- The middle between tied numbers is a double, up to its sign. -/
theorem Tied.exists_midpoint (h : Tied a b) : ∃ steps, |a + b| / 2 = Double.value steps := by
  obtain ⟨negative, digits, place, hhalf, rfl, rfl⟩ := h
  obtain ⟨hodd, hvalue, -⟩ := Double.isHalfway_iff.1 hhalf
  have hpred : ((digits - 1 : ℕ) : ℚ) = digits - 1 := by
    rw [Nat.cast_sub (by omega), Nat.cast_one]
  have hnonneg : 0 ≤ 2 * Double.value (Double.ofDecimal digits place) :=
    mul_nonneg zero_le_two (Double.value_nonneg _)
  have hsum : (signed false digits * 10 ^ place + signed false (digits - 1) * 10 ^ place : ℚ) =
      2 * Double.value (Double.ofDecimal digits place) := by
    simp only [signed, Bool.false_eq_true, if_false, Int.cast_natCast, hpred, hvalue]
    ring
  refine ⟨Double.ofDecimal digits place, ?_⟩
  cases negative with
  | false => rw [hsum, abs_of_nonneg hnonneg, mul_div_cancel_left₀ _ two_ne_zero]
  | true =>
    have hneg : (signed true digits * 10 ^ place + signed true (digits - 1) * 10 ^ place : ℚ) =
        -(2 * Double.value (Double.ofDecimal digits place)) := by
      rw [← hsum]
      simp only [signed, if_true, Bool.false_eq_true, if_false, Int.cast_neg]
      ring
    rw [hneg, abs_neg, abs_of_nonneg hnonneg, mul_div_cancel_left₀ _ two_ne_zero]

/-- The digits that a double is stored with: those that it is printed as, but at a half the even ones. -/
inductive StoredDigits (digits : List Char) (place : ℤ) : List Char → Prop
  | printed : StoredDigits digits place digits
  | even (hhalf : Double.isHalfway (Nat.ofDigitChars 10 digits 0) place = true) :
      StoredDigits digits place (lowered digits)

theorem StoredDigits.length_eq (h : StoredDigits digits place ds) : ds.length = digits.length := by
  cases h with
  | printed => rfl
  | even hhalf => exact length_lowered digits

theorem StoredDigits.ne_nil (h : StoredDigits digits place ds) (hne : digits ≠ []) : ds ≠ [] := by
  rwa [← List.length_pos_iff, h.length_eq, List.length_pos_iff]

theorem StoredDigits.isDigit (h : StoredDigits digits place ds)
    (hdigits : ∀ c ∈ digits, c.isDigit = true) : ∀ c ∈ ds, c.isDigit = true := by
  cases h with
  | printed => exact hdigits
  | even hhalf => exact isDigit_of_mem_lowered hdigits (Double.odd_of_isHalfway hhalf)

/-- The stored digits have the number of the printed ones, or are tied with them. -/
theorem StoredDigits.eq_or_tied (h : StoredDigits digits place ds)
    (hdigits : ∀ c ∈ digits, c.isDigit = true) (negative : Bool) :
    let a : ℚ := signed negative (Nat.ofDigitChars 10 digits 0) * 10 ^ place
    let b : ℚ := signed negative (Nat.ofDigitChars 10 ds 0) * 10 ^ place
    a = b ∨ Tied a b := by
  cases h with
  | printed => exact .inl rfl
  | even hhalf =>
    rw [ofDigitChars_lowered hdigits (Double.odd_of_isHalfway hhalf)]
    exact .inr ⟨negative, _, place, hhalf, rfl, rfl⟩

/-- What a spelling becomes: minus zero loses its sign, doubles are put in scientific notation or at a
half rounded to even, and all other spellings are kept. -/
inductive Outcome (spelling : String) : String → Prop
  | kept : Outcome spelling spelling
  | zero (hspelling : spelling = "-0") : Outcome spelling "0"
  | scientific {n : Numeral} {digits ds : List Char} {zeros : ℕ} {place : ℤ}
      (hspelled : Spelled spelling.toList n) (hsignificant : Significant n digits zeros place)
      (hstored : StoredDigits digits place ds) : Outcome spelling
        (String.ofList (signText n.negative ++ scientific ds (place + ds.length - 1)))
  | halfway {n : Numeral} {digits : List Char} {zeros : ℕ} {place : ℤ}
      (hspelled : Spelled spelling.toList n) (hsignificant : Significant n digits zeros place)
      (hhalf : Double.isHalfway (Nat.ofDigitChars 10 digits 0) place = true)
      (hfraction : n.fraction ≠ []) : Outcome spelling
        (String.ofList (signText n.negative ++ n.whole ++ '.' :: lowered n.fraction))

theorem outcome_of_storedDouble? {cs : List Char} (hspelled : Spelled spelling.toList n)
    (h : storedDouble? n = some cs) : Outcome spelling (String.ofList cs) := by
  rcases hparts : significant n with ⟨digits, place⟩
  simp only [storedDouble?, hparts] at h
  by_cases hspells : spellsDouble n = true
  · obtain ⟨zeros, hsignificant⟩ := significant_of_spellsDouble hspells
    have hstored : StoredDigits digits place
        (if Double.isHalfway (Nat.ofDigitChars 10 digits 0) place then lowered digits else digits) := by
      split
      · rename_i hhalf
        exact .even hhalf
      · exact .printed
    rw [hparts] at hsignificant
    rw [if_pos hspells] at h
    generalize (if Double.isHalfway (Nat.ofDigitChars 10 digits 0) place then lowered digits
      else digits) = ds at h hstored
    rw [← hstored.length_eq] at h
    split at h
    · rw [← Option.some.inj h]
      exact .scientific hspelled hsignificant hstored
    · split at h
      · rename_i hhalf
        simp only [Bool.and_eq_true, Bool.not_eq_true', List.isEmpty_eq_false_iff] at hhalf
        rw [← Option.some.inj h]
        exact .halfway hspelled hsignificant hhalf.1 hhalf.2
      · exact absurd h (by simp)
  · rw [if_neg hspells] at h
    exact absurd h (by simp)

theorem outcome_respelled (spelling : String) : Outcome spelling (respelled spelling) := by
  unfold respelled
  split
  · exact .kept
  · rename_i n hread
    split
    · split
      · rename_i hzero
        exact .zero hzero
      · exact .kept
    · split
      · rename_i cs hstored
        exact outcome_of_storedDouble? (spelled_of_read hread) hstored
      · exact .kept

theorem respelled_of_read (hread : Numeral.read spelling.toList = some n) (hword : isWord n = false)
    (h : spellsDouble n = false) : respelled spelling = spelling := by
  simp [respelled, hread, hword, storedDouble?, h]

/-- Scientific notation is kept. -/
theorem respelled_scientific (negative : Bool) (hne : ds ≠ [])
    (hds : ∀ c ∈ ds, c.isDigit = true) (power : ℤ) :
    respelled (String.ofList (signText negative ++ scientific ds power)) =
      String.ofList (signText negative ++ scientific ds power) := by
  have hread := read_of_spelled (spelled_scientific negative hne hds power)
  have hexponent : (scientificParts negative ds power).exponent ≠ [] := Nat.toDigits_ne_nil
  rw [← String.toList_ofList (l := signText negative ++ scientific ds power)] at hread
  exact respelled_of_read hread (by simp [isWord, hexponent]) (by simp [spellsDouble, hexponent])

/-- A spelling that has been stored is kept. -/
theorem respelled_respelled (spelling : String) :
    respelled (respelled spelling) = respelled spelling := by
  have houtcome := outcome_respelled spelling
  generalize hnew : respelled spelling = new at houtcome ⊢
  cases houtcome with
  | kept => exact hnew
  | zero hspelling => rfl
  | scientific hspelled hsignificant hstored =>
    exact respelled_scientific _ (hstored.ne_nil hsignificant.nonempty)
      (hstored.isDigit hsignificant.isDigit_of_mem) _
  | halfway hspelled hsignificant hhalf hfraction =>
    have hread := read_of_spelled (spelled_loweredParts hspelled hsignificant hhalf hfraction)
    rw [← String.toList_ofList (l := signText _ ++ _ ++ _)] at hread
    refine respelled_of_read hread ?_ ?_
    · simp [isWord, loweredParts, lowered_ne_nil hfraction]
    · exact not_spellsDouble_loweredParts hsignificant hhalf hfraction

/-- A spelling is kept, or the new one denotes the same number or, at a half, the even one. -/
theorem respelled_eq_or_denotes (spelling : String) : respelled spelling = spelling ∨
    ∃ a b, Denotes spelling a ∧ Denotes (respelled spelling) b ∧ (a = b ∨ Tied a b) := by
  have houtcome := outcome_respelled spelling
  generalize respelled spelling = new at houtcome ⊢
  cases houtcome with
  | kept => exact .inl rfl
  | zero hspelling =>
    subst hspelling
    refine .inr ⟨0, 0, ?_, ?_, .inl rfl⟩
    · exact denotes_iff_read.2 ⟨⟨0, 0⟩, rfl, value_eq_zero rfl⟩
    · exact denotes_iff_read.2 ⟨⟨0, 0⟩, rfl, value_eq_zero rfl⟩
  | @scientific n digits ds zeros place hspelled hsignificant hstored =>
    have hdigits := hsignificant.isDigit_of_mem
    refine .inr ⟨_, _, hsignificant.denotes hspelled, denotes_scientific n.negative
      (hstored.ne_nil hsignificant.nonempty) (hstored.isDigit hdigits) ?_ ?_, ?_⟩
    · exact hstored.length_eq ▸ hsignificant.few
    · exact hstored.length_eq ▸ hsignificant.small
    · rw [hsignificant.value]
      exact hstored.eq_or_tied hdigits n.negative
  | halfway hspelled hsignificant hhalf hfraction =>
    refine .inr ⟨_, _, hsignificant.denotes hspelled,
      denotes_loweredParts hspelled hsignificant hhalf hfraction, .inr ?_⟩
    exact ⟨_, _, _, hhalf, hsignificant.value, rfl⟩

example : respelled "600000000000000.3" = "600000000000000.2" := by decide +kernel

end Scim.Json

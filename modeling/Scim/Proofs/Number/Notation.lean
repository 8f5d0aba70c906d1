import Scim.Proofs.Filter.Respelling

/-!
The notation that decimals are printed in: a minus sign in front of negative numbers, a whole part
without needless zeros, and a fraction without needless zeros where the number is not whole. The text
is a literal for the number, and there is one text for each number.
-/
namespace Scim.Decimal

open Digits

variable {d e : Decimal} {negative : Bool} {digits : ℕ} {places : ℤ}

structure WholeText (ds : List Char) : Prop where
  nonempty : ds ≠ []
  isDigit : ∀ c ∈ ds, c.isDigit = true
  plain : ds = ['0'] ∨ ds.head? ≠ some '0'

inductive TailText : List Char → Prop
  | absent : TailText []
  | point {ds : List Char} (hne : ds ≠ []) (hdigits : ∀ c ∈ ds, c.isDigit = true)
      (hlast : ds.getLast? ≠ some '0') : TailText ('.' :: ds)

/-- Plain notation with no needless digit. -/
inductive Positional : List Char → Prop
  | parts (negative : Bool) {whole tail : List Char} (hwhole : WholeText whole)
      (htail : TailText tail) : Positional (signText negative ++ (whole ++ tail))

theorem ten_zpow_neg_add (places : ℤ) (k : ℕ) :
    (10 : ℚ) ^ (-(places + k)) * 10 ^ k = 10 ^ (-places) := by
  rw [← zpow_natCast, ← zpow_add₀ (by norm_num)]
  congr 1
  ring

/-- Needless zeros do not change the number. -/
theorem value_scaled (negative : Bool) (digits zeros : ℕ) (places : ℤ) :
    (scaled negative digits zeros places).value = signed negative digits * 10 ^ (-places) := by
  have hsigned : (signed negative (digits * 10 ^ zeros) : ℚ) = signed negative digits * 10 ^ zeros := by
    cases negative
    · simp [signed]
    · simp [signed]
  rw [value, scaled, hsigned, mul_assoc, mul_comm ((10 : ℚ) ^ zeros), ten_zpow_neg_add]

theorem natAbs_mul_pow (negative : Bool) (digits k : ℕ) :
    (signed negative digits * 10 ^ k).natAbs = digits * 10 ^ k := by
  rw [Int.natAbs_mul, natAbs_signed, Int.natAbs_pow]
  rfl

/-- Significant digits of numbers that are equal stand at the same places. -/
theorem significant_unique {negative' : Bool} {digits' : ℕ} {places' : ℤ}
    (hdigits' : digits' % 10 ≠ 0) (hle : places ≤ places')
    (h : (signed negative digits * 10 ^ (-places) : ℚ) = signed negative' digits' * 10 ^ (-places')) :
    places = places' ∧ signed negative digits = signed negative' digits' := by
  obtain ⟨k, rfl⟩ := Int.le.dest hle
  have hcast : (signed negative digits * 10 ^ k : ℚ) = signed negative' digits' := by
    rw [← ten_zpow_neg_add places k, mul_comm ((10 : ℚ) ^ (-(places + k))), ← mul_assoc] at h
    exact mul_right_cancel₀ (ten_zpow_pos _).ne' h
  have hsigned : signed negative digits * 10 ^ k = signed negative' digits' := by
    exact_mod_cast hcast
  have hmagnitude : digits * 10 ^ k = digits' := by
    rw [← natAbs_mul_pow negative, hsigned, natAbs_signed]
  cases k with
  | zero => exact ⟨by simp, by simpa using hsigned⟩
  | succ k =>
    rw [Nat.pow_succ, ← Nat.mul_assoc] at hmagnitude
    omega

theorem signed_inj {negative negative' : Bool} {m n : ℕ} (hm : m ≠ 0)
    (h : signed negative m = signed negative' n) : negative = negative' ∧ m = n := by
  cases negative <;> cases negative' <;> simp [signed] at h ⊢ <;> omega

theorem coefficient_eq_zero_iff : d.coefficient = 0 ↔ d.value = 0 := by
  constructor
  · exact value_eq_zero
  · intro h
    by_contra hne
    rcases lt_or_gt_of_ne hne with hneg | hpos
    · exact (value_neg hneg).ne h
    · exact (value_pos hpos).ne' h

theorem text_of_coefficient_eq_zero (h : d.coefficient = 0) : d.text = "0" := by
  simp [text, magnitude, plain, h]

/-- Decimals for the same number have the same text. -/
theorem text_eq_of_value_eq (h : d.value = e.value) : d.text = e.text := by
  by_cases hzero : d.coefficient = 0
  · have hzero' : e.coefficient = 0 := by
      rwa [coefficient_eq_zero_iff, ← h, ← coefficient_eq_zero_iff]
    rw [text_of_coefficient_eq_zero hzero, text_of_coefficient_eq_zero hzero']
  · have hzero' : e.coefficient ≠ 0 := by
      rwa [ne_eq, coefficient_eq_zero_iff, ← h, ← coefficient_eq_zero_iff]
    obtain ⟨negative, m, j, p, rfl, hm⟩ := exists_scaled hzero
    obtain ⟨negative', n, k, q, rfl, hn⟩ := exists_scaled hzero'
    rw [value_scaled, value_scaled] at h
    obtain ⟨rfl, hsigned⟩ : p = q ∧ signed negative m = signed negative' n := by
      rcases le_total p q with hle | hle
      · exact significant_unique hn hle h
      · obtain ⟨hplaces, hsigned⟩ := significant_unique hm hle h.symm
        exact ⟨hplaces.symm, hsigned.symm⟩
    obtain ⟨rfl, rfl⟩ := signed_inj (by omega) hsigned
    rw [text_scaled negative hm, text_scaled negative hm]

theorem wholeText_append_zeros {m : ℕ} (hm : m ≠ 0) (zeros : ℕ) :
    WholeText (Nat.toDigits 10 m ++ List.replicate zeros '0') := by
  constructor
  · simp [Nat.toDigits_ne_nil]
  · intro c hc
    rcases List.mem_append.1 hc with hc | hc
    · exact isDigit_of_mem_toDigits hc
    · exact isDigit_of_mem_zeros hc
  · right
    rw [List.head?_append_of_ne_nil _ Nat.toDigits_ne_nil]
    exact head?_toDigits_ne_zero hm

theorem wholeText_zero : WholeText ['0'] :=
  ⟨by simp, by simp, .inl rfl⟩

/-- A point in front of the last of some digits without needless zeros. -/
theorem positional_pointed (negative : Bool) {ds : List Char} {places : ℕ} (hne : ds ≠ [])
    (hdigits : ∀ c ∈ ds, c.isDigit = true) (hhead : ds.head? ≠ some '0')
    (hlast : ds.getLast? ≠ some '0') (hplaces : 0 < places) :
    Positional (signText negative ++ pointed ds places) := by
  have hlength : 0 < ds.length := List.length_pos_of_ne_nil hne
  unfold pointed
  split
  · refine .parts negative ⟨?_, ?_, .inr ?_⟩ (.point ?_ ?_ ?_)
    · apply List.ne_nil_of_length_pos
      rw [List.length_take]
      omega
    · exact fun c hc => hdigits c (List.mem_of_mem_take hc)
    · rwa [List.head?_take, if_neg (by omega)]
    · apply List.ne_nil_of_length_pos
      rw [List.length_drop]
      omega
    · exact fun c hc => hdigits c (List.mem_of_mem_drop hc)
    · rwa [List.getLast?_drop, if_neg (by omega)]
  · have hfraction : ∀ c ∈ List.replicate (places - ds.length) '0' ++ ds, c.isDigit = true := by
      intro c hc
      rcases List.mem_append.1 hc with hc | hc
      · exact isDigit_of_mem_zeros hc
      · exact hdigits c hc
    have hlast : (List.replicate (places - ds.length) '0' ++ ds).getLast? ≠ some '0' := by
      rwa [List.getLast?_append_of_ne_nil _ hne]
    have htail := TailText.point (List.append_ne_nil_of_right_ne_nil _ hne) hfraction hlast
    have h := Positional.parts negative wholeText_zero htail
    exact h

theorem positional_body (negative : Bool) (hdigits : digits % 10 ≠ 0) (places : ℤ) :
    Positional (signText negative ++ body digits places) := by
  have hzero : digits ≠ 0 := by
    rintro rfl
    exact hdigits rfl
  unfold body
  split
  · have h := Positional.parts negative (wholeText_append_zeros hzero (-places).toNat) .absent
    rwa [List.append_nil] at h
  · exact positional_pointed negative Nat.toDigits_ne_nil (fun c hc => isDigit_of_mem_toDigits hc)
      (head?_toDigits_ne_zero hzero) (getLast?_toDigits_ne_zero hdigits) (by omega)

/-- Every decimal is printed in plain notation without needless digits. -/
theorem positional_text (d : Decimal) : Positional d.text.toList := by
  by_cases hzero : d.coefficient = 0
  · rw [text_of_coefficient_eq_zero hzero]
    exact .parts false wholeText_zero .absent
  · obtain ⟨negative, digits, zeros, places, rfl, hdigits⟩ := exists_scaled hzero
    rw [text_scaled negative hdigits, String.toList_ofList]
    exact positional_body negative hdigits places

theorem point_mem_body : '.' ∈ signText negative ++ body digits places ↔ 0 < places := by
  have hdigits : '.' ∉ Nat.toDigits 10 digits :=
    fun hpoint => absurd (isDigit_of_mem_toDigits hpoint) (by decide)
  have hsign : '.' ∉ signText negative := by
    cases negative <;> simp [signText]
  rw [List.mem_append, or_iff_right hsign, body]
  split
  · rename_i hplaces
    have hzeros : '.' ∉ List.replicate (-places).toNat '0' :=
      fun hpoint => absurd (isDigit_of_mem_zeros hpoint) (by decide)
    simp [hdigits, hzeros, hplaces]
  · rename_i hplaces
    refine iff_of_true ?_ (by omega)
    unfold pointed
    split
    · exact List.mem_append_right _ List.mem_cons_self
    · exact List.mem_cons_of_mem _ List.mem_cons_self

/-- Significant digits behind the point make a number that is not whole. -/
theorem exists_intCast_eq_iff (hdigits : digits % 10 ≠ 0) :
    (∃ n : ℤ, (signed negative digits * 10 ^ (-places) : ℚ) = n) ↔ places ≤ 0 := by
  constructor
  · rintro ⟨n, hn⟩
    by_contra hplaces
    obtain ⟨k, rfl⟩ : ∃ k : ℕ, places = k + 1 := ⟨(places - 1).toNat, by omega⟩
    have hcast : (signed negative digits : ℚ) = n * 10 ^ (k + 1) := by
      rw [← hn, mul_assoc, zpow_neg, ← Nat.cast_succ, zpow_natCast,
        inv_mul_cancel₀ (pow_ne_zero _ (by norm_num)), mul_one]
    have hsigned : signed negative digits = n * 10 ^ (k + 1) := by exact_mod_cast hcast
    have hmagnitude : digits = n.natAbs * 10 ^ (k + 1) := by
      rw [← natAbs_signed negative digits, hsigned, Int.natAbs_mul, Int.natAbs_pow]
      rfl
    rw [Nat.pow_succ, ← Nat.mul_assoc] at hmagnitude
    omega
  · intro hplaces
    refine ⟨signed negative digits * 10 ^ (-places).toNat, ?_⟩
    push_cast
    rw [← zpow_natCast, Int.toNat_of_nonneg (by omega)]

/-- The text has a point exactly if the number is not whole. -/
theorem point_mem_text_iff : '.' ∈ d.text.toList ↔ ¬∃ n : ℤ, d.value = n := by
  by_cases hzero : d.coefficient = 0
  · rw [text_of_coefficient_eq_zero hzero, value_eq_zero hzero]
    exact iff_of_false (by decide) (not_not_intro ⟨0, by simp⟩)
  · obtain ⟨negative, digits, zeros, places, rfl, hdigits⟩ := exists_scaled hzero
    rw [text_scaled negative hdigits, String.toList_ofList, point_mem_body, value_scaled,
      exists_intCast_eq_iff hdigits]
    omega

/-- The text of a decimal is a literal of its number. -/
theorem denotes_text (h : InRange d.scale) : Denotes d.text d.value := by
  obtain ⟨found, hread, horder, -⟩ := exists_read_text h.2
  rw [order_eq_compare, compare_eq_iff_eq] at horder
  exact denotes_iff_read.2 ⟨found, hread, horder.symm⟩

/-- Zero has no sign. -/
theorem text_ne_minus_zero (h : InRange d.scale) : d.text ≠ "-0" := by
  intro htext
  have hzero : d.value = 0 := by
    have hdenotes := denotes_text h
    rw [htext] at hdenotes
    have hread : Denotes "-0" 0 := denotes_iff_read.2 ⟨⟨0, 0⟩, rfl, value_eq_zero rfl⟩
    exact hdenotes.unique hread
  rw [text_of_coefficient_eq_zero (coefficient_eq_zero_iff.2 hzero)] at htext
  exact absurd htext (by decide)

theorem inRange_of_read {source : String} (h : read source = some d) : InRange d.scale := by
  obtain ⟨n, -, hvalue⟩ := Option.bind_eq_some_iff.1 h
  exact inRange_of_ofNumeral? hvalue

/-- Every decimal is printed in plain notation without needless digits, with a point only where its
number is not whole, and zero without a sign. The text is a literal of the number. It is read as a
decimal of that number, also at the place of an operand. Numbers and texts determine each other. The
scales are those of the decimals that are read. Near the scale -2 ^ 63 the text is idealised, as it is
longer than any string can be: there the program stops with a capacity overflow. -/
theorem text_canonical :
    (∀ source d, read source = some d → InRange d.scale) ∧
    (∀ d : Decimal, InRange d.scale → Positional d.text.toList ∧ d.text ≠ "-0" ∧
      ('.' ∈ d.text.toList ↔ ¬∃ n : ℤ, d.value = n) ∧ Denotes d.text d.value ∧
      ∃ found, read d.text = some found ∧ d.order found = .eq ∧
        ∀ path op, Filter.Valued path op (.word d.text) (.comparison path op (.number found))) ∧
    ∀ d e : Decimal, InRange d.scale → InRange e.scale → (d.text = e.text ↔ d.value = e.value) := by
  refine ⟨fun source d h => inRange_of_read h, fun d h => ?_, fun d e hd he => ?_⟩
  · obtain ⟨found, hread, horder, -⟩ := exists_read_text h.2
    refine ⟨positional_text d, text_ne_minus_zero h, point_mem_text_iff, denotes_text h, found,
      hread, horder, ?_⟩
    exact fun path op => Filter.valued_number_iff.2 hread
  · exact ⟨value_eq_of_text_eq hd.2 he.2, text_eq_of_value_eq⟩

theorem text_canonical_sample :
    read "-1.5e-2" = some ⟨-15, 3⟩ ∧ InRange 3 ∧ read "-0.0150" = some ⟨-150, 4⟩ ∧ InRange 4 ∧
      Denotes (text ⟨-15, 3⟩) (value ⟨-15, 3⟩) ∧ text ⟨-15, 3⟩ = text ⟨-150, 4⟩ ∧
      text ⟨-15, 3⟩ = "-0.015" ∧ value ⟨-15, 3⟩ = value ⟨-150, 4⟩ := by
  have hread : read "-1.5e-2" = some ⟨-15, 3⟩ := rfl
  have hread' : read "-0.0150" = some ⟨-150, 4⟩ := rfl
  have hrange := text_canonical.1 _ _ hread
  have hrange' := text_canonical.1 _ _ hread'
  have htext : text ⟨-15, 3⟩ = text ⟨-150, 4⟩ := rfl
  obtain ⟨-, -, -, hdenotes, -⟩ := text_canonical.2.1 _ hrange
  exact ⟨hread, hrange, hread', hrange', hdenotes, htext, rfl,
    (text_canonical.2.2 _ _ hrange hrange').1 htext⟩

end Scim.Decimal

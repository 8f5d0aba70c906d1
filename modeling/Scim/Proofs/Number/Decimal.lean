import Scim.Number.Decimal
import Scim.Proofs.Number.Digits
import Scim.Proofs.Number.Numeral

/-!
The text of a decimal depends on its value alone: on the sign, on the digits without trailing zeros
and on how many of them stand behind the point. It reads back as a decimal of the same value.
-/
namespace Scim.Decimal

open Digits

theorem significant_mul_pow {m : Nat} (hm : m % 10 ≠ 0) (k : Nat) :
    significant (m * 10 ^ k) = (Nat.toDigits 10 m, k) := by
  have hzeros : ((Nat.toDigits 10 (m * 10 ^ k)).reverse.takeWhile (· == '0')).length = k := by
    rw [toDigits_mul_pow (by omega), List.reverse_append, List.reverse_replicate,
      Text.takeWhile_append_of_stops (by simp) (stops_reverse_toDigits hm), List.length_replicate]
  simp only [significant, hzeros]
  rw [toDigits_mul_pow (by omega)]
  simp

/-- The number with these significant digits, `places` of them behind the point, in a coefficient
with `zeros` needless zeros. -/
def scaled (negative : Bool) (digits zeros : Nat) (places : Int) : Decimal :=
  ⟨signed negative (digits * 10 ^ zeros), places + zeros⟩

def body (digits : Nat) (places : Int) : List Char :=
  if places ≤ 0 then Nat.toDigits 10 digits ++ List.replicate (-places).toNat '0'
  else pointed (Nat.toDigits 10 digits) places.toNat

def signText (negative : Bool) : List Char := if negative then ['-'] else []

theorem natAbs_signed (negative : Bool) (n : Nat) : (signed negative n).natAbs = n := by
  cases negative <;> simp [signed]

theorem sign_signed (negative : Bool) {n : Nat} (hn : 0 < n) :
    (signed negative n).sign = if negative then -1 else 1 := by
  cases negative
  · simp only [signed, Bool.false_eq_true, if_false]
    exact Int.sign_eq_one_of_pos (by omega)
  · simp only [signed, if_true]
    exact Int.sign_eq_neg_one_of_neg (by omega)

/-- A decimal other than zero has significant digits, which do not end in zero. -/
theorem exists_scaled {d : Decimal} (hd : d.coefficient ≠ 0) :
    ∃ negative digits zeros places, d = scaled negative digits zeros places ∧ digits % 10 ≠ 0 := by
  obtain ⟨m, k, hm, hm10⟩ := exists_eq_mul_pow (Int.natAbs_ne_zero.2 hd)
  refine ⟨decide (d.coefficient < 0), m, k, d.scale - k, ?_, hm10⟩
  obtain ⟨coefficient, scale⟩ := d
  simp only [scaled, ← hm, signed, Int.sub_add_cancel, mk.injEq, and_true] at hm ⊢
  split
  · rename_i hneg
    have := of_decide_eq_true hneg
    omega
  · rename_i hneg
    have : ¬coefficient < 0 := fun h => hneg (decide_eq_true h)
    omega

/-- Its text depends on these and their place alone. -/
theorem text_scaled (negative : Bool) {digits : Nat} (hdigits : digits % 10 ≠ 0) (zeros : Nat)
    (places : Int) :
    text (scaled negative digits zeros places) =
      String.ofList (signText negative ++ body digits places) := by
  have hpos : 0 < digits * 10 ^ zeros := Nat.mul_pos (by omega) (Nat.pow_pos (by decide))
  have hneg : signed negative (digits * 10 ^ zeros) < 0 ↔ negative = true := by
    cases negative
    · simp only [signed, Bool.false_eq_true, if_false, iff_false]
      omega
    · simp only [signed, if_true, iff_true]
      omega
  have hplaces : places + zeros - zeros = places := by omega
  simp only [text, scaled, magnitude, natAbs_signed, hneg, signText, plain, Nat.ne_of_gt hpos,
    if_false, significant_mul_pow hdigits, hplaces, body]

/-- Needless zeros do not change the value. -/
theorem order_scaled (negative : Bool) {digits : Nat} (hdigits : digits % 10 ≠ 0) (places : Int)
    (j k : Nat) : (scaled negative digits j places).order (scaled negative digits k places) = .eq := by
  have hpos : ∀ n, 0 < digits * 10 ^ n :=
    fun n => Nat.mul_pos (by omega) (Nat.pow_pos (by decide))
  have hleading : ∀ n, (scaled negative digits n places).leading =
      (Nat.toDigits 10 digits).length - places := by
    intro n
    simp only [leading, magnitude, scaled, natAbs_signed]
    rw [toDigits_mul_pow (by omega), List.length_append, List.length_replicate]
    omega
  have hmagnitude : ∀ j k, orderMagnitude (scaled negative digits j places)
      (scaled negative digits k places) = .eq := by
    intro j k
    have hexponent : j + (places + k - (places + j)).toNat =
        k + (places + j - (places + k)).toNat := by omega
    unfold orderMagnitude
    rw [Ordering.then_eq_eq, hleading, hleading, Nat.compare_eq_eq]
    refine ⟨Std.ReflCmp.compare_self, ?_⟩
    simp only [magnitude, scaled, natAbs_signed, Nat.pow_eq]
    rw [Nat.mul_assoc, Nat.mul_assoc, ← Nat.pow_add, ← Nat.pow_add, hexponent]
  have hsign : compare (signed negative (digits * 10 ^ j)).sign
      (signed negative (digits * 10 ^ k)).sign = .eq := by
    rw [sign_signed negative (hpos j), sign_signed negative (hpos k)]
    exact Std.ReflCmp.compare_self
  unfold order
  rw [Ordering.then_eq_eq]
  refine ⟨hsign, ?_⟩
  split
  · rfl
  split
  · exact hmagnitude j k
  · exact hmagnitude k j

theorem digitText_of_isDigit {ds : List Char} (hne : ds ≠ []) (hds : ∀ c ∈ ds, c.isDigit = true) :
    Numeral.DigitText ds :=
  ⟨hne, fun c hc => Text.isDecimalDigit_of_isDigit (hds c hc)⟩

theorem signText_spelled (negative : Bool) : Numeral.SignText (signText negative) negative := by
  cases negative
  · exact .absent
  · exact .minus

/-- Whole part and fraction in ASCII digits, and no exponent. -/
theorem read_plain (negative : Bool) (whole fraction point : List Char) (hwhole : whole ≠ [])
    (hdigits : ∀ c ∈ whole ++ fraction, c.isDigit = true)
    (hpoint : Numeral.FractionText point fraction) (hrange : InRange fraction.length) :
    read (String.ofList (signText negative ++ (whole ++ point))) =
      some ⟨signed negative (Nat.ofDigitChars 10 (whole ++ fraction) 0), fraction.length⟩ := by
  have hspelled : Numeral.Spelled (signText negative ++ (whole ++ point))
      ⟨negative, whole, fraction, false, []⟩ := by
    have h := Numeral.Spelled.parts (signText_spelled negative)
      (digitText_of_isDigit hwhole fun c hc => hdigits c (List.mem_append_left _ hc)) hpoint .absent
    simpa only [List.append_nil] using h
  have hall : (whole ++ fraction ++ []).all Char.isDigit = true := by
    simpa only [List.append_nil, List.all_eq_true] using hdigits
  have hscale : (fraction.length : Int) - signed false (Nat.ofDigitChars 10 [] 0) =
      fraction.length := by simp [signed]
  simp only [read, String.toList_ofList, Numeral.read_of_spelled hspelled, Option.bind_some,
    ofNumeral?, hall, hscale, hrange, and_self, if_true]

/-- A point in front of the last digits makes them the scale. Zeros that fill the place between the
point and the digits do not count. -/
theorem read_pointed (negative : Bool) {ds : List Char} {places : Nat}
    (hds : ∀ c ∈ ds, c.isDigit = true) (hplaces : 0 < places) (hrange : InRange places) :
    read (String.ofList (signText negative ++ pointed ds places)) =
      some ⟨signed negative (Nat.ofDigitChars 10 ds 0), places⟩ := by
  unfold pointed
  split
  · rename_i hlt
    have hlength : (ds.drop (ds.length - places)).length = places := by
      simp only [List.length_drop]
      omega
    have hsplit := List.take_append_drop (ds.length - places) ds
    have hdigits : ∀ c ∈ ds.take (ds.length - places) ++ ds.drop (ds.length - places),
        c.isDigit = true := by rwa [hsplit]
    have hwhole : ds.take (ds.length - places) ≠ [] := by
      apply List.ne_nil_of_length_pos
      simp only [List.length_take]
      omega
    have hfraction : ds.drop (ds.length - places) ≠ [] := by
      apply List.ne_nil_of_length_pos
      omega
    have h := read_plain negative _ _ _ hwhole hdigits
      (.point (digitText_of_isDigit hfraction fun c hc => hds c (List.mem_of_mem_drop hc)))
      (by rwa [hlength])
    rwa [hsplit, hlength] at h
  · rename_i hle
    have hlength : (List.replicate (places - ds.length) '0' ++ ds).length = places := by
      simp only [List.length_append, List.length_replicate]
      omega
    have hfraction : ∀ c ∈ List.replicate (places - ds.length) '0' ++ ds, c.isDigit = true := by
      intro c hc
      rcases List.mem_append.1 hc with hc | hc
      · exact isDigit_of_mem_zeros hc
      · exact hds c hc
    have hdigits : ∀ c ∈ '0' :: (List.replicate (places - ds.length) '0' ++ ds),
        c.isDigit = true := by
      intro c hc
      rcases List.mem_cons.1 hc with rfl | hc
      · rfl
      · exact hfraction c hc
    have hne : List.replicate (places - ds.length) '0' ++ ds ≠ [] := by
      apply List.ne_nil_of_length_pos
      omega
    have hvalue : Nat.ofDigitChars 10 ('0' :: (List.replicate (places - ds.length) '0' ++ ds)) 0 =
        Nat.ofDigitChars 10 ds 0 := by
      rw [← List.cons_append, ← List.replicate_succ, Nat.ofDigitChars_append,
        Nat.ofDigitChars_replicate_zero, Nat.mul_zero]
    have h := read_plain negative ['0'] (List.replicate (places - ds.length) '0' ++ ds) _ (by simp)
      hdigits (.point (digitText_of_isDigit hne hfraction)) (by rwa [hlength])
    rw [hlength, List.singleton_append, List.singleton_append, hvalue] at h
    exact h

/-- Significant digits read back with the zeros that stand in front of the point. -/
theorem read_body (negative : Bool) (digits : Nat) {places : Int}
    (hrange : places ≤ 9223372036854775807) :
    read (String.ofList (signText negative ++ body digits places)) =
      some (scaled negative digits (-places).toNat places) := by
  unfold body
  split
  · rename_i hplaces
    have hdigits : ∀ c ∈ Nat.toDigits 10 digits ++ List.replicate (-places).toNat '0' ++ [],
        c.isDigit = true := by
      intro c hc
      rw [List.append_nil] at hc
      rcases List.mem_append.1 hc with hc | hc
      · exact isDigit_of_mem_toDigits hc
      · exact isDigit_of_mem_zeros hc
    have hscale : places + ((-places).toNat : Int) = 0 := by omega
    have h := read_plain negative _ [] [] (by simp) hdigits .absent (by decide)
    rw [List.append_nil, Nat.ofDigitChars_append, Nat.ofDigitChars_replicate_zero,
      Nat.ofDigitChars_ten_toDigits, Nat.mul_comm] at h
    rw [h, scaled, hscale]
    rfl
  · rename_i hplaces
    have hscaled : scaled negative digits (-places).toNat places =
        ⟨signed negative digits, places.toNat⟩ := by
      have hnone : (-places).toNat = 0 := by omega
      have hplaces : ((places.toNat : Nat) : Int) = places := by omega
      simp [scaled, hnone, hplaces]
    have hdigits : ∀ c ∈ Nat.toDigits 10 digits, c.isDigit = true :=
      fun c hc => isDigit_of_mem_toDigits hc
    have h := read_pointed negative hdigits (by omega : 0 < places.toNat)
      (by unfold InRange; omega)
    rw [h, hscaled, Nat.ofDigitChars_ten_toDigits]

theorem inRange_of_ofNumeral? {n : Numeral} {d : Decimal} (h : ofNumeral? n = some d) :
    InRange d.scale := by
  simp only [ofNumeral?] at h
  split at h
  · rename_i hrange
    rw [← Option.some.inj h]
    exact hrange.2
  · simp at h

theorem isDigit_of_ofNumeral? {n : Numeral} {d : Decimal} (h : ofNumeral? n = some d) :
    ∀ c ∈ n.whole ++ n.fraction ++ n.exponent, c.isDigit = true := by
  simp only [ofNumeral?] at h
  split at h
  · rename_i hdigits
    exact List.all_eq_true.1 hdigits.1
  · simp at h

/-- A decimal prints as a text that reads back as a decimal of the same value and the same text. -/
theorem exists_read_text {d : Decimal} (hd : d.scale ≤ 9223372036854775807) :
    ∃ value, read d.text = some value ∧ d.order value = .eq ∧ value.text = d.text := by
  by_cases hzero : d.coefficient = 0
  · have htext : d.text = "0" := by simp [text, magnitude, plain, hzero]
    refine ⟨⟨0, 0⟩, ?_, ?_, ?_⟩
    · rw [htext]
      rfl
    · simp [order, hzero]
    · rw [htext]
      rfl
  · obtain ⟨negative, digits, zeros, places, rfl, hdigits⟩ := exists_scaled hzero
    have hplaces : places ≤ 9223372036854775807 := by
      simp only [scaled] at hd
      omega
    refine ⟨scaled negative digits (-places).toNat places, ?_, ?_, ?_⟩
    · rw [text_scaled negative hdigits]
      exact read_body negative digits hplaces
    · exact order_scaled negative hdigits places zeros _
    · rw [text_scaled negative hdigits, text_scaled negative hdigits]

theorem mem_pointed {ds : List Char} {places : Nat} {c : Char} (hc : c ∈ pointed ds places) :
    c ∈ ds ∨ c = '.' ∨ c = '0' := by
  unfold pointed at hc
  split at hc
  · rcases List.mem_append.1 hc with hc | hc
    · exact .inl (List.mem_of_mem_take hc)
    rcases List.mem_cons.1 hc with rfl | hc
    · exact .inr (.inl rfl)
    · exact .inl (List.mem_of_mem_drop hc)
  · rcases List.mem_cons.1 hc with rfl | hc
    · exact .inr (.inr rfl)
    rcases List.mem_cons.1 hc with rfl | hc
    · exact .inr (.inl rfl)
    rcases List.mem_append.1 hc with hc | hc
    · exact .inr (.inr (List.eq_of_mem_replicate hc))
    · exact .inl hc

theorem mem_plain {n : Nat} {scale : Int} {c : Char} (hc : c ∈ plain n scale) :
    c.isDigit = true ∨ c = '.' := by
  have hsignificant : ∀ d ∈ (significant n).1, d.isDigit = true :=
    fun d hd => isDigit_of_mem_toDigits (List.mem_of_mem_take hd)
  simp only [plain] at hc
  split at hc
  · obtain rfl := List.mem_singleton.1 hc
    exact .inl rfl
  split at hc
  · rcases List.mem_append.1 hc with hc | hc
    · exact .inl (hsignificant c hc)
    · exact .inl (isDigit_of_mem_zeros hc)
  · rcases mem_pointed hc with hc | rfl | rfl
    · exact .inl (hsignificant c hc)
    · exact .inr rfl
    · exact .inl rfl

theorem mem_text {d : Decimal} {c : Char} (hc : c ∈ d.text.toList) :
    c.isDigit = true ∨ c = '.' ∨ c = '-' := by
  rw [text, String.toList_ofList] at hc
  rcases List.mem_append.1 hc with hc | hc
  · split at hc
    · exact .inr (.inr (List.mem_singleton.1 hc))
    · simp at hc
  · rcases mem_plain hc with hc | hc
    · exact .inl hc
    · exact .inr (.inl hc)

end Scim.Decimal

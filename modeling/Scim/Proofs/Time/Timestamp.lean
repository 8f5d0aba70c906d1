import Scim.Proofs.Number.Digits
import Scim.Time.Timestamp

/-!
Printed timestamps read back. A date-time in its own offset prints with fixed widths, so that every
field is found again, whatever the number of fraction digits.
-/
namespace Scim.Timestamp

open Text

theorem readNumber_append {ds : List Char} (hds : ∀ c ∈ ds, c.isDigit = true) (value : Nat)
    (rest : List Char) :
    readNumber ds.length value (ds ++ rest) = some (Nat.ofDigitChars 10 ds value, rest) := by
  induction ds generalizing value with
  | nil => rfl
  | cons d ds ih =>
    have hd := hds d List.mem_cons_self
    have hrest := ih (fun c hc => hds c (List.mem_cons_of_mem d hc))
    simp only [List.length_cons, List.cons_append, readNumber, readDigit, hd, if_true,
      Option.bind_eq_bind, Option.bind_some, hrest, Nat.ofDigitChars_cons]

theorem isDigit_of_mem_padded (width n : Nat) : ∀ c ∈ padded width n, c.isDigit = true := by
  intro c hc
  rcases List.mem_append.1 hc with hc | hc
  · exact Digits.isDigit_of_mem_zeros hc
  · exact Digits.isDigit_of_mem_toDigits hc

theorem length_padded {width n : Nat} (hwidth : 0 < width) (hn : n < 10 ^ width) :
    (padded width n).length = width := by
  have hle := (Nat.length_toDigits_le_iff (by decide : 1 < 10) hwidth).2 hn
  simp only [padded, List.length_append, List.length_replicate]
  omega

theorem ofDigitChars_padded (width n : Nat) : Nat.ofDigitChars 10 (padded width n) 0 = n := by
  rw [padded, Nat.ofDigitChars_append, Nat.ofDigitChars_replicate_zero, Nat.mul_zero,
    Nat.ofDigitChars_ten_toDigits]

/-- A padded number is read back. -/
theorem readNumber_padded {width n : Nat} (hwidth : 0 < width) (hn : n < 10 ^ width)
    (rest : List Char) : readNumber width 0 (padded width n ++ rest) = some (n, rest) := by
  have h := readNumber_append (isDigit_of_mem_padded width n) 0 rest
  rwa [length_padded hwidth hn, ofDigitChars_padded] at h

theorem readOneOf_cons {allowed : List Char} {c : Char} (hc : c ∈ allowed) (cs : List Char) :
    readOneOf allowed (c :: cs) = some cs := by
  simp only [readOneOf, hc, if_true]

theorem lt_hundred_of_valid {d : Date} (h : d.Valid) : d.month < 100 ∧ d.day < 100 := by
  obtain ⟨-, hmonth, -, hday⟩ := h
  have hdays : daysInMonth d.year d.month ≤ 31 := by
    unfold daysInMonth
    split <;> split <;> omega
  omega

/-- A printed date of the years 0 to 9999 is read back. -/
theorem readDate_append {d : Date} (hd : d.Valid) (hyear : 0 ≤ d.year ∧ d.year ≤ 9999)
    (rest : List Char) :
    readDate (yearText d.year ++
      '-' :: (padded 2 d.month ++ '-' :: (padded 2 d.day ++ rest))) = some (d, rest) := by
  obtain ⟨hmonth, hday⟩ := lt_hundred_of_valid hd
  have htext : yearText d.year = padded 4 d.year.natAbs := by
    simp only [yearText]
    rw [if_neg (by omega), if_neg (by omega)]
  have hnat : ((d.year.natAbs : Nat) : Int) = d.year := by omega
  simp only [readDate, htext, readNumber_padded (by decide : 0 < 4) (by omega : d.year.natAbs < 10 ^ 4),
    readNumber_padded (by decide : 0 < 2) (by omega : d.month < 10 ^ 2),
    readNumber_padded (by decide : 0 < 2) (by omega : d.day < 10 ^ 2),
    readOneOf_cons (List.mem_singleton.2 rfl), Option.bind_eq_bind, Option.bind_some,
    Option.pure_def, hnat]

theorem readMinutes_append {minute : Nat} (hminute : minute < 6000) (rest : List Char) :
    readMinutes (padded 2 (minute / 60) ++ ':' :: (padded 2 (minute % 60) ++ rest)) =
      some (minute, rest) := by
  have hlt : minute % 60 < 60 := by omega
  have hsum : minute / 60 * 60 + minute % 60 = minute := by omega
  simp only [readMinutes, readNumber_padded (by decide : 0 < 2) (by omega : minute / 60 < 10 ^ 2),
    readNumber_padded (by decide : 0 < 2) (by omega : minute % 60 < 10 ^ 2),
    readOneOf_cons (List.mem_singleton.2 rfl), Option.bind_eq_bind, Option.bind_some, hlt, if_true,
    Option.pure_def, hsum]

/-- Some of the nine digits of a nanosecond, where the other ones are zeros. -/
theorem readFraction_padded {width n : Nat} (hwidth : 0 < width) (hle : width ≤ 9)
    (hn : n < 10 ^ width) {rest : List Char} (hrest : Stops Char.isDigit rest) :
    readFraction ('.' :: (padded width n ++ rest)) = some (n * 10 ^ (9 - width), rest) := by
  have hlength := length_padded hwidth hn
  have hne : padded width n ≠ [] := List.ne_nil_of_length_pos (by omega)
  have htake : (padded width n ++ List.replicate 9 '0').take 9 =
      padded width n ++ List.replicate (9 - width) '0' := by
    rw [List.take_append, hlength, List.take_replicate, List.take_of_length_le (by omega)]
    congr 2
    omega
  have hvalue : Nat.ofDigitChars 10 (padded width n ++ List.replicate (9 - width) '0') 0 =
      n * 10 ^ (9 - width) := by
    rw [Nat.ofDigitChars_append, Nat.ofDigitChars_replicate_zero, ofDigitChars_padded, Nat.mul_comm]
  unfold readFraction
  simp only
  rw [takeWhile_append_of_stops (isDigit_of_mem_padded width n) hrest,
    dropWhile_append_of_stops (isDigit_of_mem_padded width n) hrest]
  split
  · rename_i hnil
    exact absurd hnil hne
  · rw [htake, hvalue]

/-- The fraction of a second is read back to the nanosecond. -/
theorem readFraction_append {nanosecond : Nat} (hn : nanosecond < 1000000000) {rest : List Char}
    (hrest : Stops Char.isDigit rest) (hpoint : ∀ cs, rest ≠ '.' :: cs) :
    readFraction (fractionText nanosecond ++ rest) = some (nanosecond, rest) := by
  unfold fractionText
  split
  · rename_i hzero
    subst hzero
    unfold readFraction
    split
    · rename_i cs heq
      exact absurd heq (hpoint cs)
    · rfl
  split
  · rename_i hmilli
    have h := readFraction_padded (by decide : 0 < 3) (by decide)
      (by omega : nanosecond / 1000000 < 10 ^ 3) hrest
    have hvalue : nanosecond / 1000000 * 10 ^ (9 - 3) = nanosecond := by omega
    rwa [hvalue] at h
  split
  · rename_i hmicro
    have h := readFraction_padded (by decide : 0 < 6) (by decide)
      (by omega : nanosecond / 1000 < 10 ^ 6) hrest
    have hvalue : nanosecond / 1000 * 10 ^ (9 - 6) = nanosecond := by omega
    rwa [hvalue] at h
  · have h := readFraction_padded (by decide : 0 < 9) (by decide)
      (by omega : nanosecond < 10 ^ 9) hrest
    have hvalue : nanosecond * 10 ^ (9 - 9) = nanosecond := by omega
    rwa [hvalue] at h

theorem readOffset_minus {cs : List Char} {minutes : Nat} (h : readMinutes cs = some (minutes, [])) :
    readOffset .strict ('-' :: cs) = some (-(minutes : Int)) := by
  simp [readOffset, Spelling.strict, h]

theorem readOffset_plus {cs : List Char} {minutes : Nat} (h : readMinutes cs = some (minutes, [])) :
    readOffset .strict ('+' :: cs) = some (minutes : Int) := by
  simp [readOffset, Spelling.strict, h]

/-- An offset of less than a day is read back. -/
theorem readOffset_offsetText {offset : Int} (hlow : -1440 < offset) (hhigh : offset < 1440) :
    readOffset .strict (offsetText offset) = some offset := by
  unfold offsetText
  split
  · rename_i hzero
    subst hzero
    rfl
  · rename_i hne
    have hminutes := readMinutes_append (by omega : offset.natAbs < 6000) []
    rw [List.append_nil] at hminutes
    split
    · rename_i hneg
      have hvalue : -((offset.natAbs : Nat) : Int) = offset := by omega
      rw [List.cons_append, readOffset_minus hminutes, hvalue]
    · rename_i hpos
      have hvalue : ((offset.natAbs : Nat) : Int) = offset := by omega
      rw [List.cons_append, readOffset_plus hminutes, hvalue]

/-- An offset ends a run of digits, and it is no fraction. -/
theorem offsetText_stops (offset : Int) :
    Stops Char.isDigit (offsetText offset) ∧ ∀ cs, offsetText offset ≠ '.' :: cs := by
  unfold offsetText
  split
  · exact ⟨stops_cons (by decide) _, by simp⟩
  split
  · exact ⟨stops_cons (by decide) _, by simp⟩
  · exact ⟨stops_cons (by decide) _, by simp⟩

/-- A clock reading is found again, with the nanoseconds of the fraction behind it. -/
theorem read_clockText {c : Clock} {offset : Int} {fraction : List Char} {nanosecond : Nat}
    (hvalid : Clock.Valid { c with nanosecond := nanosecond } ∧
      (0 ≤ c.date.year ∧ c.date.year ≤ 9999) ∧ -1440 < offset ∧ offset < 1440)
    (hfraction : readFraction (fraction ++ offsetText offset) =
      some (nanosecond, offsetText offset)) :
    read .strict (String.ofList (clockText c ++ fraction ++ offsetText offset)) =
      some ⟨{ c with nanosecond := nanosecond }, offset, hvalid⟩ := by
  obtain ⟨⟨hdate, hminute, hsecond, -⟩, hyear, hlow, hhigh⟩ := id hvalid
  simp only at hdate hminute hsecond
  have hseparator : ∀ cs, readOneOf Spelling.strict.separators ('T' :: cs) = some cs :=
    fun cs => readOneOf_cons (List.mem_singleton.2 rfl) cs
  have hcolon : ∀ cs, readOneOf [':'] (':' :: cs) = some cs :=
    fun cs => readOneOf_cons (List.mem_singleton.2 rfl) cs
  have hsecondText : ∀ cs, readNumber 2 0 (padded 2 c.second ++ cs) = some (c.second, cs) :=
    readNumber_padded (by decide) (by omega)
  simp only [read, clockText, String.toList_ofList, List.append_assoc, List.cons_append,
    readDate_append hdate hyear, hseparator, readMinutes_append (by omega : c.minute < 6000), hcolon,
    hsecondText, hfraction, readOffset_offsetText hlow hhigh, Option.bind_eq_bind, Option.bind_some]
  exact dif_pos hvalid

/-- A date-time printed in its own offset reads back as itself. -/
theorem read_localText (t : DateTime) : read .strict (localText t) = some t :=
  read_clockText t.valid (readFraction_append t.valid.1.2.2.2 (offsetText_stops t.offset).1
    (offsetText_stops t.offset).2)

end Scim.Timestamp

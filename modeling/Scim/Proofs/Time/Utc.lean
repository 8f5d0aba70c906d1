import Scim.Proofs.Time.Timestamp

/-!
Timestamps printed in UTC. The clock reading in UTC names the instant of the date-time, and its text
tells the reading up to the millisecond, so two date-times print alike only if their instants agree
up to the millisecond.
-/
namespace Scim

open Text

/-- An instant with everything below the millisecond dropped. -/
def Instant.truncated (instant : Instant) : Instant :=
  { instant with nanosecond := instant.nanosecond / 1000000 * 1000000 }

theorem Date.valid_previous {d : Date} (h : d.Valid) : d.previous.Valid := by
  obtain ⟨hm, hm12, hd, hdays⟩ := h
  unfold previous
  split
  · exact ⟨hm, hm12, by simp only; omega, by simp only; omega⟩
  split
  · have hlast : 1 ≤ daysInMonth d.year (d.month - 1) := by
      unfold daysInMonth
      split <;> split <;> omega
    exact ⟨by simp only; omega, by simp only; omega, hlast, Nat.le_refl _⟩
  · exact ⟨by simp, by simp, by simp, by simp [daysInMonth]⟩

theorem Date.dayNumber_previous {d : Date} (h : d.Valid) : d.previous.dayNumber = d.dayNumber - 1 := by
  have hnext := dayNumber_next (valid_previous h)
  rw [next_previous h] at hnext
  omega

/-- Moving the clock to UTC keeps the instant. -/
theorem DateTime.minute_utc (t : DateTime) :
    t.utc.date.dayNumber * 1440 + t.utc.minute = t.instant.minute := by
  have hoffset := t.valid.2.2
  have hminute := t.valid.1.2.1
  simp only [utc, instant]
  split
  · have hprevious := Date.dayNumber_previous t.valid.1.1
    simp only [hprevious]
    omega
  split
  · simp only
    omega
  · have hnext := Date.dayNumber_next t.valid.1.1
    simp only [hnext]
    omega

theorem DateTime.second_utc (t : DateTime) :
    t.utc.second = t.instant.second ∧ t.utc.nanosecond = t.instant.nanosecond := by
  simp only [utc, instant]
  split
  · exact ⟨rfl, rfl⟩
  split
  · exact ⟨rfl, rfl⟩
  · exact ⟨rfl, rfl⟩

namespace Timestamp

/-- Numbers that are cut off in one text are the same number. -/
theorem eq_of_padded_append {width n n' : Nat} {rest rest' : List Char}
    (hrest : Stops Char.isDigit rest) (hrest' : Stops Char.isDigit rest')
    (h : padded width n ++ rest = padded width n' ++ rest') : n = n' ∧ rest = rest' := by
  obtain ⟨hpadded, heq⟩ := eq_of_append_of_stops (isDigit_of_mem_padded width n)
    (isDigit_of_mem_padded width n') hrest hrest' h
  have hvalue := congrArg (Nat.ofDigitChars 10 · 0) hpadded
  simp only [ofDigitChars_padded] at hvalue
  exact ⟨hvalue, heq⟩

def yearSign (year : Int) : List Char :=
  if year < 0 then ['-'] else if 9999 < year then ['+'] else []

theorem yearText_eq (year : Int) : yearText year = yearSign year ++ padded 4 year.natAbs := by
  unfold yearText yearSign
  split
  · rfl
  split
  · rfl
  · rfl

theorem stops_padded (width n : Nat) (rest : List Char) :
    Stops (fun c => !c.isDigit) (padded width n ++ rest) := by
  have hne : padded width n ≠ [] := List.append_ne_nil_of_right_ne_nil _ Nat.toDigits_ne_nil
  obtain ⟨c, cs, hcs⟩ := List.exists_cons_of_ne_nil hne
  have hc := isDigit_of_mem_padded width n c (hcs ▸ List.mem_cons_self)
  rw [hcs, List.cons_append]
  exact stops_cons (by simp [hc]) _

theorem isDigit_of_mem_yearSign {year : Int} : ∀ c ∈ yearSign year, (!c.isDigit) = true := by
  intro c hc
  unfold yearSign at hc
  split at hc
  · rw [List.mem_singleton.1 hc]
    rfl
  split at hc
  · rw [List.mem_singleton.1 hc]
    rfl
  · simp at hc

theorem eq_of_yearSign_eq {year year' : Int} (hsign : yearSign year = yearSign year')
    (habs : year.natAbs = year'.natAbs) : year = year' := by
  unfold yearSign at hsign
  split at hsign
  · split at hsign
    · omega
    split at hsign
    · simp at hsign
    · simp at hsign
  split at hsign
  · split at hsign
    · simp at hsign
    split at hsign
    · omega
    · simp at hsign
  · split at hsign
    · simp at hsign
    split at hsign
    · simp at hsign
    · omega

/-- The text of a year determines the year. -/
theorem eq_of_yearText_append {year year' : Int} {rest rest' : List Char}
    (hrest : Stops Char.isDigit rest) (hrest' : Stops Char.isDigit rest')
    (h : yearText year ++ rest = yearText year' ++ rest') : year = year' ∧ rest = rest' := by
  rw [yearText_eq, yearText_eq, List.append_assoc, List.append_assoc] at h
  obtain ⟨hsign, hnumber⟩ := eq_of_append_of_stops isDigit_of_mem_yearSign isDigit_of_mem_yearSign
    (stops_padded _ _ _) (stops_padded _ _ _) h
  obtain ⟨habs, heq⟩ := eq_of_padded_append hrest hrest' hnumber
  exact ⟨eq_of_yearSign_eq hsign habs, heq⟩

/-- A clock reading is told by its text, whatever stands behind it but a digit. -/
theorem eq_of_clockText_append {c c' : Clock} {rest rest' : List Char}
    (hrest : Stops Char.isDigit rest) (hrest' : Stops Char.isDigit rest')
    (h : clockText c ++ rest = clockText c' ++ rest') :
    c.date = c'.date ∧ c.minute = c'.minute ∧ c.second = c'.second ∧ rest = rest' := by
  have hdash : ∀ cs, Stops Char.isDigit ('-' :: cs) := stops_cons rfl
  have hcolon : ∀ cs, Stops Char.isDigit (':' :: cs) := stops_cons rfl
  have hletter : ∀ cs, Stops Char.isDigit ('T' :: cs) := stops_cons rfl
  simp only [clockText, List.append_assoc, List.cons_append] at h
  obtain ⟨hyear, h⟩ := eq_of_yearText_append (hdash _) (hdash _) h
  obtain ⟨hmonth, h⟩ := eq_of_padded_append (hdash _) (hdash _) (List.cons.inj h).2
  obtain ⟨hday, h⟩ := eq_of_padded_append (hletter _) (hletter _) (List.cons.inj h).2
  obtain ⟨hhour, h⟩ := eq_of_padded_append (hcolon _) (hcolon _) (List.cons.inj h).2
  obtain ⟨hminute, h⟩ := eq_of_padded_append (hcolon _) (hcolon _) (List.cons.inj h).2
  obtain ⟨hsecond, h⟩ := eq_of_padded_append hrest hrest' (List.cons.inj h).2
  have hdate : c.date = c'.date :=
    calc
      c.date = ⟨c.date.year, c.date.month, c.date.day⟩ := rfl
      _ = ⟨c'.date.year, c'.date.month, c'.date.day⟩ := by rw [hyear, hmonth, hday]
  have hclock : c.minute = c'.minute := by omega
  exact ⟨hdate, hclock, hsecond, h⟩

/-- Date-times that print alike in UTC agree up to the millisecond. -/
theorem truncated_eq_of_utcText_eq {t u : DateTime} (h : utcText t = utcText u) :
    t.instant.truncated = u.instant.truncated := by
  have hpoint : ∀ cs, Stops Char.isDigit ('.' :: cs) := stops_cons rfl
  have hzulu : Stops Char.isDigit ['Z'] := stops_cons rfl _
  have hchars := congrArg String.toList h
  simp only [utcText, String.toList_ofList, List.append_assoc, List.cons_append] at hchars
  obtain ⟨hdate, hminute, hsecond, hrest⟩ := eq_of_clockText_append (hpoint _) (hpoint _) hchars
  obtain ⟨hmilli, -⟩ := eq_of_padded_append hzulu hzulu (List.cons.inj hrest).2
  rw [t.second_utc.1, u.second_utc.1] at hsecond
  rw [t.second_utc.2, u.second_utc.2] at hmilli
  simp only [Instant.truncated, ← DateTime.minute_utc, hdate, hminute, hsecond, hmilli]

def isUtcChar (c : Char) : Bool := c.isDigit || "-+T:.Z".toList.contains c

/-- Timestamps in UTC have few characters. -/
theorem isUtcChar_of_mem_utcText {t : DateTime} :
    ∀ c ∈ (utcText t).toList, isUtcChar c = true := by
  have hnumber : ∀ width n, (padded width n).all isUtcChar = true := by
    intro width n
    refine List.all_eq_true.2 fun c hc => ?_
    rw [isUtcChar, isDigit_of_mem_padded width n c hc, Bool.true_or]
  have hsign : ∀ year, (yearSign year).all isUtcChar = true := by
    intro year
    unfold yearSign
    split
    · rfl
    split
    · rfl
    · rfl
  have hmark : isUtcChar '-' ∧ isUtcChar 'T' ∧ isUtcChar ':' ∧ isUtcChar '.' ∧ isUtcChar 'Z' := by
    decide
  refine List.all_eq_true.1 ?_
  simp only [utcText, clockText, yearText_eq, String.toList_ofList, List.all_append, List.all_cons,
    List.all_nil, hnumber, hsign, hmark, Bool.and_self]

/-- One millisecond in two offsets, and the next one. -/
example : (utcText ⟨⟨⟨2011, 5, 13⟩, 282, 34, 500999999⟩, 0, by decide⟩ =
      utcText ⟨⟨⟨2011, 5, 13⟩, 402, 34, 500000000⟩, 120, by decide⟩) ∧
    utcText ⟨⟨⟨2011, 5, 13⟩, 282, 34, 500000000⟩, 0, by decide⟩ ≠
      utcText ⟨⟨⟨2011, 5, 13⟩, 282, 34, 501000000⟩, 0, by decide⟩ := by
  decide

end Timestamp

end Scim

import Mathlib.Data.Int.Order.Basic
import Mathlib.Order.Monotone.Basic
import Scim.Proofs.Time.Utc

/-!
The instants that date-times name. Days are counted without gaps and without repetition, so an instant
has one clock reading in UTC, and date-times of one instant print alike in UTC. The text in UTC reads
back as the instant up to the millisecond.
-/
namespace Scim

variable {d d' : Date} {t u : DateTime}

namespace Date

/-- The day number of the last day before a year. -/
def yearStart (year : Int) : Int :=
  365 * (year - 1) + (year - 1) / 4 - (year - 1) / 100 + (year - 1) / 400

theorem dayNumber_eq (d : Date) :
    d.dayNumber = yearStart d.year + daysBefore d.year d.month + d.day := rfl

/-- A year is as long as its kind tells. -/
theorem yearStart_add_one (year : Int) :
    yearStart (year + 1) = yearStart year + if isLeapYear year then 366 else 365 := by
  have h := daysBefore_year year
  simp only [yearStart, Int.add_sub_cancel]
  exact h

theorem yearStart_le_yearStart {year later : Int} (h : year ≤ later) :
    yearStart year ≤ yearStart later := by
  refine monotone_int_of_le_succ (fun before => ?_) h
  rw [yearStart_add_one]
  split
  · omega
  · omega

theorem daysBefore_monotone (year : Int) : Monotone (daysBefore year) := by
  refine monotone_nat_of_le_succ fun month => ?_
  cases month with
  | zero => exact Nat.le_refl _
  | succ month =>
    rw [daysBefore_succ year (Nat.succ_pos month)]
    exact Nat.le_add_right _ _

/-- A year has as many days as its months together. -/
theorem daysBefore_thirteen (year : Int) :
    daysBefore year 13 = if isLeapYear year then 366 else 365 := by
  rw [daysBefore_succ year (by decide : 1 ≤ 12), daysBefore_december]
  have hmonth : daysInMonth year 12 = 31 := by simp [daysInMonth]
  rw [hmonth]
  split
  · rfl
  · rfl

/-- A valid date lies before the first of the next month. -/
theorem daysBefore_add_day_le (h : d.Valid) {month : Nat} (hmonth : d.month < month) :
    daysBefore d.year d.month + d.day ≤ daysBefore d.year month := by
  obtain ⟨hm, -, -, hdays⟩ := h
  calc
    daysBefore d.year d.month + d.day ≤ daysBefore d.year (d.month + 1) := by
      rw [daysBefore_succ d.year hm]
      omega
    _ ≤ daysBefore d.year month := daysBefore_monotone d.year hmonth

theorem dayNumber_lt_of_year_lt (h : d.Valid) (h' : d'.Valid) (hyear : d.year < d'.year) :
    d.dayNumber < d'.dayNumber := by
  have hmonth := daysBefore_add_day_le h (Nat.lt_succ_of_le h.2.1)
  have hnext := yearStart_add_one d.year
  have hstart : yearStart (d.year + 1) ≤ yearStart d'.year := yearStart_le_yearStart (by omega)
  have hday := h'.2.2.1
  rw [daysBefore_thirteen] at hmonth
  rw [dayNumber_eq, dayNumber_eq]
  split at hmonth
  · rename_i hleap
    rw [if_pos hleap] at hnext
    omega
  · rename_i hleap
    rw [if_neg hleap] at hnext
    omega

theorem dayNumber_lt_of_month_lt (h : d.Valid) (h' : d'.Valid) (hyear : d.year = d'.year)
    (hmonth : d.month < d'.month) : d.dayNumber < d'.dayNumber := by
  have hle := daysBefore_add_day_le h hmonth
  have hday := h'.2.2.1
  rw [hyear] at hle
  rw [dayNumber_eq, dayNumber_eq, hyear]
  omega

/-- A day number belongs to one date of the calendar. -/
theorem eq_of_dayNumber_eq (h : d.Valid) (h' : d'.Valid) (heq : d.dayNumber = d'.dayNumber) :
    d = d' := by
  have hyear : d.year = d'.year := by
    rcases lt_trichotomy d.year d'.year with hlt | hyear | hgt
    · exact absurd heq (dayNumber_lt_of_year_lt h h' hlt).ne
    · exact hyear
    · exact absurd heq (dayNumber_lt_of_year_lt h' h hgt).ne'
  have hmonth : d.month = d'.month := by
    rcases lt_trichotomy d.month d'.month with hlt | hmonth | hgt
    · exact absurd heq (dayNumber_lt_of_month_lt h h' hyear hlt).ne
    · exact hmonth
    · exact absurd heq (dayNumber_lt_of_month_lt h' h hyear.symm hgt).ne'
  have hday : d.day = d'.day := by
    rw [dayNumber_eq, dayNumber_eq, hyear, hmonth] at heq
    omega
  calc
    d = ⟨d.year, d.month, d.day⟩ := rfl
    _ = ⟨d'.year, d'.month, d'.day⟩ := by rw [hyear, hmonth, hday]

theorem valid_next (h : d.Valid) : d.next.Valid := by
  obtain ⟨hm, hm12, hd, hdays⟩ := h
  unfold next
  split
  · exact ⟨hm, hm12, Nat.le_add_left 1 d.day, by simp only; omega⟩
  split
  · have hfirst : 1 ≤ daysInMonth d.year (d.month + 1) := by
      unfold daysInMonth
      split <;> split <;> omega
    exact ⟨by simp, by simp only; omega, by simp, hfirst⟩
  · exact ⟨by simp, by simp, by simp, by simp [daysInMonth]⟩

end Date

namespace DateTime

/-- The clock in UTC shows a day of the calendar. -/
theorem valid_utc (t : DateTime) : t.utc.Valid := by
  obtain ⟨⟨hdate, hminute, hsecond, hnanosecond⟩, -, hlow, hhigh⟩ := t.valid
  unfold utc
  simp only
  split
  · exact ⟨Date.valid_previous hdate, by simp only; omega, hsecond, hnanosecond⟩
  split
  · exact ⟨hdate, by simp only; omega, hsecond, hnanosecond⟩
  · exact ⟨Date.valid_next hdate, by simp only; omega, hsecond, hnanosecond⟩

/-- Date-times of one instant have one clock reading in UTC. -/
theorem utc_eq_of_instant_eq (h : t.instant = u.instant) : t.utc = u.utc := by
  have hminutes := t.minute_utc
  rw [h, ← u.minute_utc] at hminutes
  have hlt := t.valid_utc.2.1
  have hlt' := u.valid_utc.2.1
  have hdate : t.utc.date = u.utc.date :=
    Date.eq_of_dayNumber_eq t.valid_utc.1 u.valid_utc.1 (by omega)
  have hminute : t.utc.minute = u.utc.minute := by
    rw [hdate] at hminutes
    omega
  have hsecond : t.utc.second = u.utc.second := by
    rw [t.second_utc.1, h, u.second_utc.1]
  have hnanosecond : t.utc.nanosecond = u.utc.nanosecond := by
    rw [t.second_utc.2, h, u.second_utc.2]
  calc
    t.utc = ⟨t.utc.date, t.utc.minute, t.utc.second, t.utc.nanosecond⟩ := rfl
    _ = ⟨u.utc.date, u.utc.minute, u.utc.second, u.utc.nanosecond⟩ := by
      rw [hdate, hminute, hsecond, hnanosecond]

end DateTime

namespace Timestamp

/-- One instant has one text in UTC. -/
theorem utcText_eq_of_instant_eq (h : t.instant = u.instant) : utcText t = utcText u := by
  rw [utcText, utcText, DateTime.utc_eq_of_instant_eq h]

/-- The text in UTC reads back as the instant up to the millisecond, where four digits name the
year. -/
theorem exists_read_utcText (hyear : 0 ≤ t.utc.date.year ∧ t.utc.date.year ≤ 9999) :
    ∃ bound, read .strict (utcText t) = some bound ∧ bound.instant = t.instant.truncated := by
  obtain ⟨hdate, hminute, hsecond, hnanosecond⟩ := t.valid_utc
  have hvalid : Clock.Valid { t.utc with nanosecond := t.utc.nanosecond / 1000000 * 1000000 } ∧
      (0 ≤ t.utc.date.year ∧ t.utc.date.year ≤ 9999) ∧ -1440 < (0 : Int) ∧ (0 : Int) < 1440 :=
    ⟨⟨hdate, hminute, hsecond, by simp only; omega⟩, hyear, by decide, by decide⟩
  have hfraction := readFraction_padded (by decide : 0 < 3) (by decide)
    (by omega : t.utc.nanosecond / 1000000 < 10 ^ 3) (offsetText_stops 0).1
  refine ⟨_, read_clockText hvalid hfraction, ?_⟩
  calc
    Instant.mk (t.utc.date.dayNumber * 1440 + t.utc.minute - 0) t.utc.second
        (t.utc.nanosecond / 1000000 * 1000000) =
      ⟨t.instant.minute, t.instant.second, t.instant.nanosecond / 1000000 * 1000000⟩ := by
        rw [Int.sub_zero, t.minute_utc, t.second_utc.1, t.second_utc.2]
    _ = t.instant.truncated := rfl

end Timestamp

end Scim

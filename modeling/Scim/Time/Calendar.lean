/-!
The proleptic Gregorian calendar. Main statement: the day after a date has the next day number, and
the day before a date is undone by going on a day, so moving by a day and counting days agree.
-/
namespace Scim

structure Date where
  year : Int
  month : Nat
  day : Nat
  deriving DecidableEq, Repr

def isLeapYear (year : Int) : Bool :=
  decide (year % 4 = 0) && (decide (year % 100 ≠ 0) || decide (year % 400 = 0))

def daysInMonth (year : Int) (month : Nat) : Nat :=
  if month = 2 then if isLeapYear year then 29 else 28
  else if month = 4 ∨ month = 6 ∨ month = 9 ∨ month = 11 then 30
  else 31

namespace Date

def Valid (d : Date) : Prop :=
  1 ≤ d.month ∧ d.month ≤ 12 ∧ 1 ≤ d.day ∧ d.day ≤ daysInMonth d.year d.month

instance (d : Date) : Decidable d.Valid := inferInstanceAs (Decidable (_ ∧ _))

def next (d : Date) : Date :=
  if d.day < daysInMonth d.year d.month then ⟨d.year, d.month, d.day + 1⟩
  else if d.month < 12 then ⟨d.year, d.month + 1, 1⟩
  else ⟨d.year + 1, 1, 1⟩

def previous (d : Date) : Date :=
  if 1 < d.day then ⟨d.year, d.month, d.day - 1⟩
  else if 1 < d.month then ⟨d.year, d.month - 1, daysInMonth d.year (d.month - 1)⟩
  else ⟨d.year - 1, 12, 31⟩

def daysBefore (year : Int) : Nat → Nat
  | 0 => 0
  | 1 => 0
  | month + 1 => daysBefore year month + daysInMonth year month

/-- Days counted from the last day of the year before year 1. -/
def dayNumber (d : Date) : Int :=
  365 * (d.year - 1) + (d.year - 1) / 4 - (d.year - 1) / 100 + (d.year - 1) / 400 +
    daysBefore d.year d.month + d.day

theorem daysBefore_succ (year : Int) {month : Nat} (h : 1 ≤ month) :
    daysBefore year (month + 1) = daysBefore year month + daysInMonth year month := by
  obtain ⟨m, rfl⟩ : ∃ m, month = m + 1 := ⟨month - 1, by omega⟩
  rfl

theorem daysBefore_december (year : Int) :
    daysBefore year 12 = if isLeapYear year then 335 else 334 := by
  cases h : isLeapYear year <;> simp [daysBefore, daysInMonth, h]

/-- From the first of January to the next one pass 366 days in leap years and 365 in others. -/
theorem daysBefore_year (year : Int) :
    365 * year + year / 4 - year / 100 + year / 400 =
      365 * (year - 1) + (year - 1) / 4 - (year - 1) / 100 + (year - 1) / 400 +
        (if isLeapYear year then 366 else 365) := by
  cases h : isLeapYear year <;>
    simp only [isLeapYear, Bool.and_eq_true, Bool.or_eq_true, decide_eq_true_eq,
      Bool.and_eq_false_iff, Bool.or_eq_false_iff, decide_eq_false_iff_not] at h <;>
    simp only [Bool.false_eq_true, if_true, if_false] <;>
    omega

/-- The next day has the next number. -/
theorem dayNumber_next {d : Date} (h : d.Valid) : d.next.dayNumber = d.dayNumber + 1 := by
  obtain ⟨hm, hm12, hd, hdays⟩ := h
  unfold next
  split
  · simp only [dayNumber]
    omega
  · rename_i hlast
    have heq : d.day = daysInMonth d.year d.month := by omega
    split
    · simp only [dayNumber, daysBefore_succ d.year hm, heq]
      omega
    · have hdec : d.month = 12 := by omega
      have hyear := daysBefore_year d.year
      have hmonth : daysInMonth d.year 12 = 31 := by simp [daysInMonth]
      have hone : daysBefore (d.year + 1) 1 = 0 := rfl
      simp only [dayNumber, heq, hdec, hmonth, daysBefore_december, hone]
      have hback : d.year + 1 - 1 = d.year := by omega
      rw [hback, hyear]
      split <;> omega

/-- Every day follows the one before it. -/
theorem next_previous {d : Date} (h : d.Valid) : d.previous.next = d := by
  obtain ⟨hm, hm12, hd, hdays⟩ := h
  obtain ⟨year, month, day⟩ := d
  simp only at hm hm12 hd hdays
  unfold previous
  simp only
  split
  · have hlt : day - 1 < daysInMonth year month := by omega
    simp only [next, hlt, if_true]
    congr 1
    omega
  · have hday : day = 1 := by omega
    split
    · have hlt : month - 1 < 12 := by omega
      simp only [next, Nat.lt_irrefl, if_false, hlt, if_true, hday]
      congr 1
      omega
    · have hmonth : month = 1 := by omega
      simp [next, daysInMonth, hday, hmonth]

end Date

end Scim

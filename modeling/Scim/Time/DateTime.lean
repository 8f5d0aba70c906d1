import Scim.Time.Calendar

/-!
Date-times with an offset from UTC. Two of them are ordered by the instant they name. A leap second
is the second 60 of its minute, after all of second 59 and before the next minute.
-/
namespace Scim

/-- A date and a time of day; `minute` counts from midnight. -/
structure Clock where
  date : Date
  minute : Nat
  second : Nat
  nanosecond : Nat
  deriving DecidableEq, Repr

def Clock.Valid (c : Clock) : Prop :=
  c.date.Valid ∧ c.minute < 1440 ∧ c.second ≤ 60 ∧ c.nanosecond < 1000000000

instance (c : Clock) : Decidable c.Valid := inferInstanceAs (Decidable (_ ∧ _))

/-- A local clock reading and the minutes by which it is ahead of UTC. -/
structure DateTime where
  clock : Clock
  offset : Int
  valid : clock.Valid ∧ (0 ≤ clock.date.year ∧ clock.date.year ≤ 9999) ∧
    -1440 < offset ∧ offset < 1440
  deriving DecidableEq

/-- A point in time: minutes since midnight before day 0, and the time within the minute. -/
structure Instant where
  minute : Int
  second : Nat
  nanosecond : Nat
  deriving DecidableEq, Repr

def Instant.order (a b : Instant) : Ordering :=
  (compare a.minute b.minute).then
    ((compare a.second b.second).then (compare a.nanosecond b.nanosecond))

namespace DateTime

def instant (t : DateTime) : Instant :=
  ⟨t.clock.date.dayNumber * 1440 + t.clock.minute - t.offset, t.clock.second,
    t.clock.nanosecond⟩

/-- The clock reading in UTC. An offset is less than a day, so the date moves by at most one. -/
def utc (t : DateTime) : Clock :=
  let minute := t.clock.minute - t.offset
  if minute < 0 then { t.clock with date := t.clock.date.previous, minute := (minute + 1440).toNat }
  else if minute < 1440 then { t.clock with minute := minute.toNat }
  else { t.clock with date := t.clock.date.next, minute := (minute - 1440).toNat }

def order (a b : DateTime) : Ordering := a.instant.order b.instant

end DateTime

end Scim

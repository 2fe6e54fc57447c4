/- Instants of time.

   An instant is a date of the Gregorian calendar with the second of the day and
   the nanoseconds, all in universal time. The nanoseconds of a leap second, which
   only the last second of a minute has, count on from one thousand million.
   Instants are ordered by these parts from the year down. `Instant.microseconds`
   counts from the beginning of 1970 and rounds down. -/
namespace Lakehouse.Calendar

def isLeapYear (year : Int) : Bool :=
  year % 4 == 0 && (year % 100 != 0 || year % 400 == 0)

def daysInMonth (year : Int) (month : Nat) : Nat :=
  match month with
  | 2 => if isLeapYear year then 29 else 28
  | 4 | 6 | 9 | 11 => 30
  | _ => 31

/-- The years that dates may have. -/
def minYear : Int := -262143

def maxYear : Int := 262142

/-- A day of the calendar. -/
structure Date where
  year : Int
  month : Nat
  day : Nat
  deriving DecidableEq, Repr

namespace Date

def Valid (d : Date) : Prop :=
  minYear ≤ d.year ∧ d.year ≤ maxYear ∧ 1 ≤ d.month ∧ d.month ≤ 12 ∧
    1 ≤ d.day ∧ d.day ≤ daysInMonth d.year d.month

instance (d : Date) : Decidable d.Valid := by unfold Valid; infer_instance

/-- The day after, before any check of the year. -/
def next (d : Date) : Date :=
  if d.day < daysInMonth d.year d.month then ⟨d.year, d.month, d.day + 1⟩
  else if d.month < 12 then ⟨d.year, d.month + 1, 1⟩
  else ⟨d.year + 1, 1, 1⟩

/-- The day before, before any check of the year. -/
def previous (d : Date) : Date :=
  if 1 < d.day then ⟨d.year, d.month, d.day - 1⟩
  else if 1 < d.month then ⟨d.year, d.month - 1, daysInMonth d.year (d.month - 1)⟩
  else ⟨d.year - 1, 12, 31⟩

/-- Days since the beginning of 1970. Years are counted from March, so that the
leap day is the last day of its year. -/
def daysSince1970 (d : Date) : Int :=
  let year := if d.month ≤ 2 then d.year - 1 else d.year
  let era := year / 400
  let yearOfEra := year % 400
  let monthFromMarch : Int := (d.month + 9) % 12
  let dayOfYear := (153 * monthFromMarch + 2) / 5 + d.day - 1
  let dayOfEra := yearOfEra * 365 + yearOfEra / 4 - yearOfEra / 100 + dayOfYear
  era * 146097 + dayOfEra - 719468

protected def compare (a b : Date) : Ordering :=
  (Ord.compare a.year b.year).then
    ((Ord.compare a.month b.month).then (Ord.compare a.day b.day))

end Date

def secondsPerDay : Nat := 86400

def nanosPerSecond : Nat := 1000000000

/-- A point in time. -/
structure Instant where
  date : Date
  second : Nat
  nano : Nat
  valid : date.Valid
  second_lt : second < secondsPerDay
  nano_lt : nano < 2 * nanosPerSecond
  leap : nanosPerSecond ≤ nano → second % 60 = 59
  deriving DecidableEq

namespace Instant

instance : Inhabited Instant :=
  ⟨⟨⟨1970, 1, 1⟩, 0, 0, by decide, by decide, by decide, by decide⟩⟩

/-- The instant with these parts, if they are within their ranges. -/
def ofParts? (date : Date) (second nano : Nat) : Option Instant :=
  if h : date.Valid ∧ second < secondsPerDay ∧ nano < 2 * nanosPerSecond ∧
      (nanosPerSecond ≤ nano → second % 60 = 59) then
    some ⟨date, second, nano, h.1, h.2.1, h.2.2.1, h.2.2.2⟩
  else
    none

protected def compare (a b : Instant) : Ordering :=
  (a.date.compare b.date).then
    ((Ord.compare a.second b.second).then (Ord.compare a.nano b.nano))

instance : Ord Instant := ⟨Instant.compare⟩

instance : LE Instant := ⟨fun a b => (Instant.compare a b).isLE⟩

instance (a b : Instant) : Decidable (a ≤ b) := inferInstanceAs (Decidable (_ = true))

/-- Microseconds since the beginning of 1970, rounded down. -/
def microseconds (t : Instant) : Int :=
  (t.date.daysSince1970 * secondsPerDay + t.second) * 1000000 + t.nano / 1000

/-- The instant that a local date and time stand for, `east` seconds east of
universal time. The local date has to exist, and the offset is less than a day. -/
def ofLocal? (date : Date) (second nano : Nat) (east : Int) : Option Instant :=
  let shifted := (second : Int) - east
  if ¬ date.Valid ∨ secondsPerDay ≤ east.natAbs then
    none
  else if shifted < 0 then
    ofParts? date.previous (shifted + secondsPerDay).toNat nano
  else if shifted < secondsPerDay then
    ofParts? date shifted.toNat nano
  else
    ofParts? date.next (shifted - secondsPerDay).toNat nano

end Instant

end Lakehouse.Calendar

import Lakehouse.Calendar.Instant
import Lakehouse.Text.Blank
import Lakehouse.Text.Decimal

/- Instants as RFC 3339 text.

   Writing uses universal time, marked by a Z, with the fewest of 0, 3, 6 or 9
   fraction digits that keep the value; a leap second is second 60, and a year
   outside 0 to 9999 carries its sign. Reading takes any offset and is relaxed:
   numbers may be shorter than usual, blanks may stand before numbers and marks, the
   date and the time may be separated by a space, and fraction digits beyond the
   ninth are dropped. -/
namespace Lakehouse.Calendar

open Lakehouse.Text

/-- Two decimal places. -/
def twoDigits (n : Nat) : List Char := paddedDecimal 2 n

/-- The year in four places, with its sign if it has not exactly four. -/
def yearText (year : Int) : List Char :=
  if 0 ≤ year ∧ year ≤ 9999 then paddedDecimal 4 year.toNat
  else (if year < 0 then '-' else '+') :: paddedDecimal 4 year.natAbs

def dateText (d : Date) : List Char :=
  yearText d.year ++ '-' :: twoDigits d.month ++ '-' :: twoDigits d.day

/-- The fraction of a second, with as few groups of three digits as keep it. -/
def fractionText (nano : Nat) : List Char :=
  if nano = 0 then []
  else if nano % 1000000 = 0 then '.' :: paddedDecimal 3 (nano / 1000000)
  else if nano % 1000 = 0 then '.' :: paddedDecimal 6 (nano / 1000)
  else '.' :: paddedDecimal 9 nano

/-- The time of the day; nanoseconds beyond a second make it a leap second. -/
def timeText (second nano : Nat) : List Char :=
  let leap := nano / nanosPerSecond
  twoDigits (second / 3600) ++ ':' :: twoDigits (second / 60 % 60) ++ ':' ::
    twoDigits (second % 60 + leap) ++ fractionText (nano % nanosPerSecond)

namespace Instant

/-- RFC 3339 in universal time. -/
def render (t : Instant) : String :=
  String.ofList (dateText t.date ++ 'T' :: timeText t.second t.nano ++ ['Z'])

/-- Date, time and zone apart, as messages show an instant. -/
def display (t : Instant) : String :=
  String.ofList (dateText t.date ++ ' ' :: timeText t.second t.nano ++ " UTC".toList)

end Instant

/-! ### Reading -/

/-- Reads something off the front of a text, or fails. -/
abbrev Reading := StateT (List Char) Option

/-- Up to `width` digits, at least one. -/
def readNumber (width : Nat) : Reading Nat := fun text =>
  let digits := (text.take width).takeWhile isDigit
  if digits.isEmpty then none
  else some (Nat.ofDigitChars 10 digits 0, text.drop digits.length)

/-- All digits, at least one. -/
def readLongNumber : Reading Nat := fun text => readNumber text.length text

def skipBlanks : Reading Unit := modify trimLeft

/-- Up to two digits after blanks, from `least` to `greatest`. -/
def readPart (least greatest : Nat) : Reading Nat := do
  skipBlanks
  let n ← readNumber 2
  guard (least ≤ n ∧ n ≤ greatest)
  return n

/-- Up to four digits, or a sign and any number of digits. -/
def readYear : Reading Int := do
  skipBlanks
  match ← get with
  | '-' :: rest => set rest; return -((← readLongNumber) : Int)
  | '+' :: rest => set rest; return ((← readLongNumber) : Int)
  | _ => return ((← readNumber 4) : Int)

/-- A mark, which may follow blanks. -/
def readMark (mark : Char) : Reading Unit := do
  skipBlanks
  match ← get with
  | c :: rest => guard (c = mark); set rest
  | [] => failure

def readDate : Reading Date := do
  let year ← readYear
  readMark '-'
  let month ← readPart 1 12
  readMark '-'
  let day ← readPart 1 31
  return ⟨year, month, day⟩

/-- A fraction of a second in nanoseconds; there may be none. -/
def readFraction : Reading Nat := do
  match ← get with
  | '.' :: rest =>
    set rest
    let n ← readNumber 9
    -- Digits behind the ninth are dropped.
    let after ← get
    set (after.dropWhile isDigit)
    return n * Nat.pow 10 (9 - (rest.length - after.length))
  | _ => return 0

/-- Second of the day and nanoseconds; second 60 is second 59 with one thousand
million nanoseconds more. -/
def readTime : Reading (Nat × Nat) := do
  let hour ← readPart 0 23
  readMark ':'
  let minute ← readPart 0 59
  readMark ':'
  let second ← readPart 0 60
  let nano ← readFraction
  let start := hour * 3600 + minute * 60
  if second = 60 then return (start + 59, nano + nanosPerSecond)
  else return (start + second, nano)

/-- Exactly two digits. -/
def readTwoDigits : Reading Nat := do
  match ← get with
  | a :: b :: rest =>
    guard (isDigit a && isDigit b)
    set rest
    return digitValue a * 10 + digitValue b
  | _ => failure

/-- Hours and minutes of an offset, in seconds; colons and blanks between them
are skipped. -/
def readOffsetSize : Reading Nat := do
  let hours ← readTwoDigits
  modify fun rest => rest.dropWhile fun c => c = ':' || isBlank c
  let minutes ← readTwoDigits
  guard (minutes < 60)
  return hours * 3600 + minutes * 60

/-- Seconds east of universal time. -/
def readOffset : Reading Int := do
  let text ← get
  if (text.take 3).map Char.toUpper = ['U', 'T', 'C'] then
    set (text.drop 3)
    return 0
  match text with
  | 'Z' :: rest => set rest; return 0
  | 'z' :: rest => set rest; return 0
  | '+' :: rest => set rest; return ((← readOffsetSize) : Int)
  | '-' :: rest => set rest; return -((← readOffsetSize) : Int)
  | '−' :: rest => set rest; return -((← readOffsetSize) : Int)
  | _ => failure

/-- The mark between a date and a time. -/
def readSeparator : Reading Unit := do
  match ← get with
  | 'T' :: rest => set rest
  | 't' :: rest => set rest
  | ' ' :: rest => set rest
  | _ => failure

/-- An instant with the blanks around its parts. -/
def readInstant : Reading Instant := do
  let date ← readDate
  readSeparator
  let (second, nano) ← readTime
  skipBlanks
  let east ← readOffset
  skipBlanks
  match Instant.ofLocal? date second nano east with
  | some t => return t
  | none => failure

/-- The instant that the whole text stands for. -/
def Instant.read? (text : String) : Option Instant :=
  match readInstant text.toList with
  | some (t, []) => some t
  | _ => none

end Lakehouse.Calendar

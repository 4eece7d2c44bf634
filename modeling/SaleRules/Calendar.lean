import SaleRules.Text.Numeral

/-!
# Calendar dates

Seconds after 1970-01-01T00:00:00 as dates of the proleptic Gregorian calendar in UTC. Days are
counted from 0000-03-01, so that the leap day ends a year: 400 years have 146097 days, and the
months from March on have lengths that repeat every five.
-/
namespace SaleRules

structure Moment where
  year : Nat
  month : Nat
  day : Nat
  hour : Nat
  minute : Nat
  second : Nat
  deriving DecidableEq, Repr

namespace Moment

/-- Year, month and day, from the number of days after 0000-03-01. -/
def civil (days : Nat) : Nat × Nat × Nat :=
  let cycle := days / 146097
  let dayOfCycle := days % 146097
  let yearOfCycle :=
    (dayOfCycle - dayOfCycle / 1460 + dayOfCycle / 36524 - dayOfCycle / 146096) / 365
  let dayOfYear := dayOfCycle - (365 * yearOfCycle + yearOfCycle / 4 - yearOfCycle / 100)
  let monthFromMarch := (5 * dayOfYear + 2) / 153
  let day := dayOfYear - (153 * monthFromMarch + 2) / 5 + 1
  let year := 400 * cycle + yearOfCycle
  if monthFromMarch < 10 then (year, monthFromMarch + 3, day)
  else (year + 1, monthFromMarch - 9, day)

/-- The days from 0000-03-01 to 1970-01-01. -/
def epochDay : Nat := 719468

def ofSeconds (seconds : Nat) : Moment :=
  let date := civil (seconds / 86400 + epochDay)
  ⟨date.1, date.2.1, date.2.2, seconds / 3600 % 24, seconds / 60 % 60, seconds % 60⟩

/-- The last second that has a date, `+262142-12-31T23:59:59+00:00`. -/
def lastSecond : Nat := 8210266876799

def ofSeconds? (seconds : Nat) : Option Moment :=
  if seconds ≤ lastSecond then some (ofSeconds seconds) else none

/-- The year, with four digits at least and a plus sign from 10000 on. -/
def yearText (year : Nat) : String :=
  (if 9999 < year then "+" else "") ++ Text.padded 4 year

def dateText (m : Moment) : String :=
  yearText m.year ++ "-" ++ Text.padded 2 m.month ++ "-" ++ Text.padded 2 m.day

def timeText (m : Moment) : String :=
  Text.padded 2 m.hour ++ ":" ++ Text.padded 2 m.minute ++ ":" ++ Text.padded 2 m.second

/-- RFC 3339. -/
def text (m : Moment) : String := m.dateText ++ "T" ++ m.timeText ++ "+00:00"

/-- The time in a log record, to the millisecond. -/
def stamp (milliseconds : Nat) : String :=
  let m := ofSeconds (milliseconds / 1000)
  m.dateText ++ " " ++ m.timeText ++ "." ++ Text.padded 3 (milliseconds % 1000)

end Moment

end SaleRules

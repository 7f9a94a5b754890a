/-!
# Calendar days

The day that lies a number of days after the first of January 1970, in the Gregorian calendar
extended in both directions. Years are counted in eras of four hundred, which all have the same
number of days, and inside an era from March, so that a leap day is the last of its year.

* `Calendar.ofDays` — year, month and day.
* `Calendar.render` — the text `year-month-day`.
-/

namespace Tabula.Calendar

/-- Year, month and day of a day given by its distance from the first of January 1970. -/
def ofDays (days : Int) : Int × Nat × Nat :=
  let shifted := days + 719468
  let era := shifted.fdiv 146097
  let dayOfEra := (shifted.fmod 146097).toNat
  let yearOfEra :=
    (dayOfEra - dayOfEra / 1460 + dayOfEra / 36524 - dayOfEra / 146096) / 365
  let dayOfYear := dayOfEra - (365 * yearOfEra + yearOfEra / 4 - yearOfEra / 100)
  let monthFromMarch := (5 * dayOfYear + 2) / 153
  let day := dayOfYear - (153 * monthFromMarch + 2) / 5 + 1
  let month := if monthFromMarch < 10 then monthFromMarch + 3 else monthFromMarch - 9
  let year := yearOfEra + era * 400 + (if month ≤ 2 then 1 else 0)
  (year, month, day)

/-- A number with zeros in front, up to the given count of digits. -/
def padded (width n : Nat) : String :=
  let cs := Nat.toDigits 10 n
  String.ofList (List.replicate (width - cs.length) '0' ++ cs)

/-- The text `year-month-day`; a year of other than four digits has a sign. -/
def render (days : Int) : String :=
  let (year, month, day) := ofDays days
  let sign := if year < 0 then "-" else if 9999 < year then "+" else ""
  sign ++ padded 4 year.natAbs ++ "-" ++ padded 2 month ++ "-" ++ padded 2 day

end Tabula.Calendar

/-!
# Calendar dates of log timestamps

Log lines are stamped with the UTC date and time. A day count since 1970-01-01 is turned into a
proleptic Gregorian date by the civil-from-days computation: days are counted from 0000-03-01,
in 400-year eras of 146097 days, so that the leap day falls at the end of a counted year; the
year of a January or February date is then one more than the counted year. The year is handed
on as a 32-bit unsigned number and wraps from year 2^32 on.

The day count of a timestamp is below 2^64 / 86400, so the signed 64-bit arithmetic of the
computation neither wraps nor goes negative, and it is done here on naturals.
-/

namespace WindowVm.Log

/-- The year, month (1 to 12) and day (1 to 31) of the date `z` days after 0000-03-01. -/
def civilOfDayNumber (z : Nat) : Nat × Nat × Nat :=
  let era := z / 146097
  let doe := z % 146097
  let yoe := (doe - doe / 1460 + doe / 36524 - doe / 146096) / 365
  let doy := doe - (365 * yoe + yoe / 4 - yoe / 100)
  let mp := (5 * doy + 2) / 153
  let d := doy - (153 * mp + 2) / 5 + 1
  let m := if mp < 10 then mp + 3 else mp - 9
  let y := yoe + era * 400
  (if m ≤ 2 then y + 1 else y, m, d)

/-- The year, month and day of the date `days` days after 1970-01-01, which is 719468 days
after 0000-03-01; the year is kept modulo 2^32. -/
def civilOfDays (days : Nat) : Nat × Nat × Nat :=
  let date := civilOfDayNumber (days + 719468)
  (date.1 % 4294967296, date.2)

/-- The digits of `n`, zero-padded on the left to at least `width` digits. -/
def padded (width n : Nat) : String :=
  let d := toString n
  String.ofList (List.replicate (width - d.length) '0') ++ d

/-- The stamp `YYYY-MM-DD HH:MM:SS.mmm ` of an instant given in milliseconds since
1970-01-01 00:00:00 UTC, with the trailing space that separates it from the line. -/
def stamp (millis : Nat) : String :=
  let secs := millis / 1000
  let (y, m, d) := civilOfDays (secs / 86400)
  padded 4 y ++ "-" ++ padded 2 m ++ "-" ++ padded 2 d ++ " " ++
    padded 2 (secs / 3600 % 24) ++ ":" ++ padded 2 (secs / 60 % 60) ++ ":" ++
    padded 2 (secs % 60) ++ "." ++ padded 3 (millis % 1000) ++ " "

end WindowVm.Log

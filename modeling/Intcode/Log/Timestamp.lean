import Std.Time.DateTime

/-!
# Timestamps

The time in front of a log line: a date and a time of day to the millisecond.
-/

namespace Intcode

/-- A number in decimal, with zeros in front of it up to a width. -/
def zeroPadded (width n : Nat) : String :=
  String.ofList ((toString n).toList.leftpad width '0')

def dateText (d : Std.Time.PlainDate) : String :=
  "-".intercalate
    [zeroPadded 4 d.year.toInt.toNat, zeroPadded 2 d.month.toNat, zeroPadded 2 d.day.toNat]

def timeText (t : Std.Time.PlainTime) : String :=
  let clock := ":".intercalate
    [zeroPadded 2 t.hour.toNat, zeroPadded 2 t.minute.toNat, zeroPadded 2 t.second.toNat]
  s!"{clock}.{zeroPadded 3 t.millisecond.toNat}"

def timestamp (t : Std.Time.PlainDateTime) : String :=
  s!"{dateText t.date} {timeText t.time}"

end Intcode

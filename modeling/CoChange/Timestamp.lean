import CoChange.Decimal.Literal
import CoChange.Text.Blank

/-!
# Points in time

A point in time is read from a date, a time of day and a distance from UTC, and written in UTC. Days
are counted in the Gregorian calendar, which is taken to hold for all years.

* `Timestamp.parse?`, `Timestamp.render`: the text form, such as `2024-01-02T03:04:05.250Z`.
-/

namespace CoChange

/-- A point in time: seconds since the start of 1970 in UTC, and nanoseconds, which reach a second
and more within a leap second. -/
structure Timestamp where
  seconds : Int
  nanos : Nat
  deriving DecidableEq, Repr, Inhabited

namespace Timestamp

/-! ### The calendar -/

def isLeapYear (year : Int) : Bool := year % 4 == 0 && (year % 100 != 0 || year % 400 == 0)

def daysInMonth (year : Int) (month : Nat) : Nat :=
  if month = 2 then if isLeapYear year then 29 else 28
  else if month ∈ [4, 6, 9, 11] then 30 else 31

/-- The number of days from the start of 1970 to the start of a year. -/
def daysBeforeYear (year : Int) : Int :=
  let y := year - 1
  365 * (year - 1970) + (y / 4 - 492) - (y / 100 - 19) + (y / 400 - 4)

def daysBeforeMonth (year : Int) (month : Nat) : Nat :=
  ((List.range (month - 1)).map fun m => daysInMonth year (m + 1)).sum

/-- The number of days from the start of 1970 to a date. -/
def dayNumber (year : Int) (month day : Nat) : Int :=
  daysBeforeYear year + daysBeforeMonth year month + (day - 1 : Nat)

/-- The year of a day: the estimate from the mean length of a year, put right by one. -/
def yearOf (day : Int) : Int :=
  let guess := 1970 + day * 400 / 146097
  if day < daysBeforeYear guess then guess - 1
  else if daysBeforeYear (guess + 1) ≤ day then guess + 1
  else guess

/-- The month of a day of a year, and the day of the month, both from one. -/
def monthOf (year : Int) (dayOfYear : Nat) : Nat × Nat :=
  let month := ((List.range 12).filter fun m => daysBeforeMonth year (m + 1) ≤ dayOfYear).length
  (month, dayOfYear - daysBeforeMonth year month + 1)

/-! ### Reading -/

def skipBlanks (cs : List Char) : List Char := Text.trimLeft cs

/-- A number of at most `width` digits, with the rest. -/
def takeNumber? (width : Nat) (cs : List Char) : Option (Nat × List Char) :=
  let digits := (cs.take width).takeWhile Char.isDigit
  if digits.isEmpty then none else some (Decimal.ofDigits digits, cs.drop digits.length)

/-- A number of two digits between two bounds, behind blanks. -/
def takeField? (low high : Nat) (cs : List Char) : Option (Nat × List Char) := do
  let (n, rest) ← takeNumber? 2 (skipBlanks cs)
  if low ≤ n && n ≤ high then some (n, rest) else none

/-- A character behind blanks, with the rest. -/
def takeMark? (mark : Char) (cs : List Char) : Option (List Char) :=
  match skipBlanks cs with
  | c :: rest => if c = mark then some rest else none
  | [] => none

/-- A year: up to four digits, or a sign and any number of them. -/
def takeYear? (cs : List Char) : Option (Int × List Char) :=
  match skipBlanks cs with
  | '-' :: rest => (takeNumber? rest.length rest).map fun (n, rest) => (-(n : Int), rest)
  | '+' :: rest => (takeNumber? rest.length rest).map fun (n, rest) => ((n : Int), rest)
  | rest => (takeNumber? 4 rest).map fun (n, rest) => ((n : Int), rest)

/-- A fraction of a second in nanoseconds, if a point follows; digits behind the ninth are
skipped. -/
def takeFraction? : List Char → Option (Nat × List Char)
  | '.' :: rest => do
    let digits := (rest.take 9).takeWhile Char.isDigit
    if digits.isEmpty then none
    else some (Decimal.ofDigits digits * 10 ^ (9 - digits.length), rest.dropWhile Char.isDigit)
  | rest => some (0, rest)

/-- The distance from UTC in seconds: `Z`, `UTC`, or a sign, hours and minutes. -/
def takeOffset? (cs : List Char) : Option (Int × List Char) :=
  match cs with
  | u :: t :: c :: rest =>
    if [u, t, c].map Char.toUpper = ['U', 'T', 'C'] then some (0, rest) else signed cs
  | _ => signed cs
where
  signed : List Char → Option (Int × List Char)
    | 'Z' :: rest => some (0, rest)
    | 'z' :: rest => some (0, rest)
    | '+' :: rest => magnitude rest
    | '-' :: rest => (magnitude rest).map fun (n, rest) => (-n, rest)
    | c :: rest =>
      if c.toNat = 0x2212 then (magnitude rest).map fun (n, rest) => (-n, rest) else none
    | [] => none
  magnitude (cs : List Char) : Option (Int × List Char) := do
    let (hours, rest) ← twoDigits cs
    let (minutes, rest) ← twoDigits (rest.dropWhile fun c => c = ':' || Text.isBlank c)
    if minutes < 60 then some ((hours * 3600 + minutes * 60 : Nat), rest) else none
  twoDigits (cs : List Char) : Option (Nat × List Char) := do
    let (n, rest) ← takeNumber? 2 cs
    if rest.length + 2 = cs.length then some (n, rest) else none

/-- A date: year, month and day. -/
def takeDate? (cs : List Char) : Option ((Int × Nat × Nat) × List Char) := do
  let (year, cs) ← takeYear? cs
  let (month, cs) ← takeField? 1 12 (← takeMark? '-' cs)
  let (day, cs) ← takeField? 1 31 (← takeMark? '-' cs)
  return ((year, month, day), cs)

/-- What stands between the date and the time: a letter or a blank. -/
def takeSeparator? : List Char → Option (List Char)
  | c :: rest => if c = 'T' || c = 't' || c = ' ' then some rest else none
  | [] => none

/-- A time of day: hour, minute, second and nanoseconds. -/
def takeTime? (cs : List Char) : Option ((Nat × Nat × Nat × Nat) × List Char) := do
  let (hour, cs) ← takeField? 0 23 cs
  let (minute, cs) ← takeField? 0 59 (← takeMark? ':' cs)
  let (second, cs) ← takeField? 0 60 (← takeMark? ':' cs)
  let (nanos, cs) ← takeFraction? cs
  return ((hour, minute, second, nanos), cs)

/-- Reads a point in time. A blank or a small letter may stand between the date and the time. -/
def parse? (text : String) : Option Timestamp := do
  let ((year, month, day), cs) ← takeDate? text.toList
  let ((hour, minute, second, nanos), cs) ← takeTime? (← takeSeparator? cs)
  let (offset, cs) ← takeOffset? (skipBlanks cs)
  if !(skipBlanks cs).isEmpty || day > daysInMonth year month || 86400 ≤ offset.natAbs
      || 262142 < year.natAbs then none
  else
    let time : Nat := hour * 3600 + minute * 60 + min second 59
    return ⟨dayNumber year month day * 86400 + time - offset,
      if second = 60 then nanos + 1000000000 else nanos⟩

/-! ### Writing -/

/-- A number in decimal, filled up with zeros to the given width. -/
def pad (width n : Nat) : String :=
  let digits := toString n
  String.ofList (List.replicate (width - digits.length) '0') ++ digits

/-- A year: four digits, with a sign outside of the years 0 to 9999. -/
def renderYear (year : Int) : String :=
  if 0 ≤ year && year ≤ 9999 then pad 4 year.toNat
  else (if year < 0 then "-" else "+") ++ pad 4 year.natAbs

/-- A fraction of a second with as many groups of three digits as it needs. -/
def renderFraction (nanos : Nat) : String :=
  if nanos = 0 then ""
  else if nanos % 1000000 = 0 then "." ++ pad 3 (nanos / 1000000)
  else if nanos % 1000 = 0 then "." ++ pad 6 (nanos / 1000)
  else "." ++ pad 9 nanos

/-- The date and the time of day in UTC. -/
def render (t : Timestamp) : String :=
  let day := t.seconds / 86400
  let time := (t.seconds % 86400).toNat
  let year := yearOf day
  let (month, dayOfMonth) := monthOf year (day - daysBeforeYear year).toNat
  let second := time % 60 + t.nanos / 1000000000
  renderYear year ++ "-" ++ pad 2 month ++ "-" ++ pad 2 dayOfMonth
    ++ "T" ++ pad 2 (time / 3600) ++ ":" ++ pad 2 (time / 60 % 60) ++ ":" ++ pad 2 second
    ++ renderFraction (t.nanos % 1000000000) ++ "Z"

end Timestamp

end CoChange

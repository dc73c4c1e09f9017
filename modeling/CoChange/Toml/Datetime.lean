import CoChange.Arithmetic

/-!
# Dates and times of TOML

A date, a time or both; a date with a time may have an offset from universal time. Fractions of a
second are kept to nine places.
-/

namespace CoChange.Toml

structure Date where
  year : Nat
  month : Nat
  day : Nat
  deriving DecidableEq, Repr

structure Time where
  hour : Nat
  minute : Nat
  second : Nat
  nanosecond : Nat
  deriving DecidableEq, Repr

inductive Offset where
  | universal
  | minutes (value : Int)
  deriving DecidableEq, Repr

structure Datetime where
  date : Option Date
  time : Option Time
  offset : Option Offset
  deriving DecidableEq, Repr

/-! ### Writing -/

/-- The digits of a number, at least `width` of them. -/
def padded (width n : Nat) : List Char :=
  let ds := Nat.toDigits 10 n
  List.replicate (width - ds.length) '0' ++ ds

def Date.render (d : Date) : List Char :=
  padded 4 d.year ++ '-' :: padded 2 d.month ++ '-' :: padded 2 d.day

/-- Writes a time; a fraction has no zeros at its end. -/
def Time.render (t : Time) : List Char :=
  padded 2 t.hour ++ ':' :: padded 2 t.minute ++ ':' :: padded 2 t.second
    ++ if t.nanosecond = 0 then []
      else '.' :: ((padded 9 t.nanosecond).reverse.dropWhile (· = '0')).reverse

def Offset.render : Offset → List Char
  | universal => ['Z']
  | minutes m =>
    (if m < 0 then '-' else '+') :: padded 2 (m.natAbs / 60) ++ ':' :: padded 2 (m.natAbs % 60)

def Datetime.render (d : Datetime) : String :=
  String.ofList <|
    (d.date.elim [] Date.render)
      ++ (if d.date.isSome && d.time.isSome then ['T'] else [])
      ++ (d.time.elim [] Time.render) ++ (d.offset.elim [] Offset.render)

/-! ### Reading -/

/-- The number that exactly `count` digits at the front write, and what follows. -/
def takeNumber? (count : Nat) (cs : List Char) : Option (Nat × List Char) :=
  let digits := cs.take count
  if digits.length = count && digits.all Char.isDigit then
    some (digits.foldl (fun n c => 10 * n + (c.toNat - '0'.toNat)) 0, cs.drop count)
  else none

/-- What follows a character at the front. -/
def takeChar? (c : Char) : List Char → Option (List Char)
  | d :: rest => if d = c then some rest else none
  | [] => none

def isLeapYear (year : Nat) : Bool := (year % 4 = 0 && year % 100 ≠ 0) || year % 400 = 0

def daysOf (year month : Nat) : Nat :=
  if month = 2 then if isLeapYear year then 29 else 28
  else if month ∈ [4, 6, 9, 11] then 30
  else 31

/-- Reads a day, which has to exist. -/
def takeDate? (cs : List Char) : Option (Date × List Char) := do
  let (year, cs) ← takeNumber? 4 cs
  let (month, cs) ← takeNumber? 2 (← takeChar? '-' cs)
  let (day, cs) ← takeNumber? 2 (← takeChar? '-' cs)
  guard (1 ≤ month && month ≤ 12 && 1 ≤ day && day ≤ daysOf year month)
  return (⟨year, month, day⟩, cs)

/-- Reads a time; a minute may have a leap second. -/
def takeTime? (cs : List Char) : Option (Time × List Char) := do
  let (hour, cs) ← takeNumber? 2 cs
  let (minute, cs) ← takeNumber? 2 (← takeChar? ':' cs)
  let (second, cs) ← takeNumber? 2 (← takeChar? ':' cs)
  guard (hour ≤ 23 && minute ≤ 59 && second ≤ 60)
  match cs with
  | '.' :: rest =>
    let (digits, rest) := rest.span Char.isDigit
    guard (!digits.isEmpty)
    let places := digits.take 9
    let n := places.foldl (fun n c => 10 * n + (c.toNat - '0'.toNat)) 0
    return (⟨hour, minute, second, n * 10 ^ (9 - places.length)⟩, rest)
  | cs => return (⟨hour, minute, second, 0⟩, cs)

/-- Reads an offset. -/
def takeOffset? (cs : List Char) : Option (Offset × List Char) :=
  match cs with
  | c :: rest =>
    if c = 'Z' || c = 'z' then some (.universal, rest)
    else if c = '+' || c = '-' then do
      let (hours, rest) ← takeNumber? 2 rest
      let (minutes, rest) ← takeNumber? 2 (← takeChar? ':' rest)
      guard (hours ≤ 23 && minutes ≤ 59)
      let m : Int := 60 * hours + minutes
      return (.minutes (if c = '-' then -m else m), rest)
    else none
  | [] => none

/-- Reads the time of a day behind it, if there is one: behind the letter `T` or a blank. -/
def takeTimeOfDay? : List Char → Option (Time × List Char)
  | c :: rest => if c = 'T' || c = 't' || c = ' ' then takeTime? rest else none
  | [] => none

/-- Reads a date, a time or both. -/
def Datetime.take? (cs : List Char) : Option (Datetime × List Char) :=
  match takeDate? cs with
  | some (date, cs) =>
    match takeTimeOfDay? cs with
    | some (time, cs) =>
      match takeOffset? cs with
      | some (offset, cs) => some (⟨date, time, offset⟩, cs)
      | none => some (⟨date, time, none⟩, cs)
    | none => some (⟨date, none, none⟩, cs)
  | none => (takeTime? cs).map fun (time, cs) => (⟨none, time, none⟩, cs)

end CoChange.Toml

import TokenGrammar.Number.Decimal

/-!
# Dates and times

A moment is a date of the Gregorian calendar with a time of day and a zone. A zone has a distance
from universal time in minutes, and it may have a name. Both document formats write moments as
digits with signs between them; the readers here take the parts off the front of a text.

## Main definitions

* `Zone`, `Moment`: the data.
* `Moment.render`: the text of a moment.
* `Moment.le`: the order of moments, in which the fractions of the seconds come first.
* `readDate?`, `readClock?`, `readZone?`: the readers of the parts.
-/
namespace TokenGrammar

/-- The distance of the clocks of a zone from universal time in minutes, and the name of the zone,
which may be empty. -/
structure Zone where
  minutes : Int
  name : String
deriving Repr, DecidableEq, Inhabited

/-- A date with a time of day. -/
structure Moment where
  year : Nat
  month : Nat
  day : Nat
  hour : Nat
  minute : Nat
  second : Nat
  nano : Nat
  zone : Zone
deriving Repr, DecidableEq, Inhabited

namespace Zone

/-- Universal time. -/
def universal : Zone := ⟨0, "UTC"⟩

/-- The zone with a distance; without a distance it is universal time. -/
def ofMinutes (minutes : Int) : Zone := if minutes = 0 then universal else ⟨minutes, ""⟩

end Zone

/-! ## The calendar -/

/-- Whether a year has a 29th of February. -/
def isLeapYear (year : Nat) : Bool := year % 4 = 0 && (year % 100 ≠ 0 || year % 400 = 0)

/-- The number of days of a month. -/
def daysInMonth (year month : Nat) : Nat :=
  if month = 2 then if isLeapYear year then 29 else 28
  else if month = 4 || month = 6 || month = 9 || month = 11 then 30
  else 31

/-- Whether there is a date with a month and a day. -/
def isDate (year month day : Nat) : Bool :=
  1 ≤ month && month ≤ 12 && 1 ≤ day && day ≤ daysInMonth year month

/-- The number of days from the first day of the year 0 to the first day of a year. -/
def daysBeforeYear (year : Nat) : Nat :=
  if year = 0 then 0 else 365 * year + (year - 1) / 4 - (year - 1) / 100 + (year - 1) / 400 + 1

/-- The number of days of a year before a month. -/
def daysBeforeMonth (year month : Nat) : Nat :=
  (List.range month).foldl (fun days m => if m = 0 then days else days + daysInMonth year m) 0

namespace Moment

/-- The seconds from the start of the year 0, in universal time. -/
def seconds (t : Moment) : Int :=
  let days := daysBeforeYear t.year + daysBeforeMonth t.year t.month + (t.day - 1)
  (((days * 24 + t.hour) * 60 + t.minute) * 60 + t.second : Nat) - t.zone.minutes * 60

/-- The order of moments: by the fraction of the second, then by the second. -/
def le (a b : Moment) : Bool := a.nano < b.nano || (a.nano = b.nano && a.seconds ≤ b.seconds)

/-! ## Text -/

/-- A number with zeros in front, so that it has a least number of digits. -/
def padded (width n : Nat) : List Char :=
  let digits := Number.decimalText n
  List.replicate (width - digits.length) '0' ++ digits

/-- The fraction of a second without zeros at its end; it is left out where it is zero. -/
def fractionText (nano : Nat) : List Char :=
  if nano = 0 then [] else '.' :: ((padded 9 nano).reverse.dropWhile (· = '0')).reverse

/-- The distance of a zone: sign, hours and minutes. -/
def offsetText (minutes : Int) : List Char :=
  (if minutes < 0 then '-' else '+') ::
    (padded 2 (minutes.natAbs / 60) ++ padded 2 (minutes.natAbs % 60))

/-- The text of a moment. A zone without a name shows its distance twice. -/
def render (t : Moment) : String :=
  let offset := String.ofList (offsetText t.zone.minutes)
  String.ofList
      (padded 4 t.year ++ '-' :: padded 2 t.month ++ '-' :: padded 2 t.day ++ ' ' ::
        padded 2 t.hour ++ ':' :: padded 2 t.minute ++ ':' :: padded 2 t.second ++
        fractionText t.nano) ++
    " " ++ offset ++ " " ++ (if t.zone.name = "" then offset else t.zone.name)

/-! ## Reading -/

/-- Reads two digits, or one where `short` allows it and no second follows. -/
def readPair? (short : Bool) : List Char → Option (Nat × List Char)
  | a :: b :: rest =>
    match Number.digitsValue? 10 [a, b], Number.digitsValue? 10 [a] with
    | some n, _ => some (n, rest)
    | none, some n => if short then some (n, b :: rest) else none
    | none, none => none
  | [a] => if short then (Number.digitsValue? 10 [a]).map (·, []) else none
  | [] => none

/-- Passes over a character. -/
def passChar? (c : Char) : List Char → Option (List Char)
  | d :: rest => if d = c then some rest else none
  | [] => none

/-- Reads a pair with a character in front of it. -/
def readAfter? (c : Char) (short : Bool) (cs : List Char) : Option (Nat × List Char) :=
  (passChar? c cs).bind (readPair? short)

/-- Reads a year of four digits. -/
def readYear? : List Char → Option (Nat × List Char)
  | a :: b :: c :: d :: rest => (Number.digitsValue? 10 [a, b, c, d]).map (·, rest)
  | _ => none

/-- Reads a date: year, month and day. -/
def readDate? (short : Bool) (cs : List Char) : Option ((Nat × Nat × Nat) × List Char) :=
  match readYear? cs with
  | none => none
  | some (year, rest) =>
    match readAfter? '-' short rest with
    | none => none
    | some (month, rest) =>
      match readAfter? '-' short rest with
      | none => none
      | some (day, rest) => if isDate year month day then some ((year, month, day), rest) else none

/-- Reads a fraction of a second, which may be missing; digits after the ninth do not count. -/
def readFraction : List Char → Nat × List Char
  | mark :: rest =>
    let digits := rest.takeWhile (Number.isDigitOf 10)
    if (mark = '.' || mark = ',') && !digits.isEmpty then
      let nine := (digits ++ List.replicate 9 '0').take 9
      (Number.digitsFrom 10 0 nine, rest.dropWhile (Number.isDigitOf 10))
    else (0, mark :: rest)
  | [] => (0, [])

/-- Reads a time of day: hour, minute, second and fraction. -/
def readClock? (short : Bool) (cs : List Char) : Option ((Nat × Nat × Nat × Nat) × List Char) :=
  match readPair? short cs with
  | none => none
  | some (hour, rest) =>
    match readAfter? ':' short rest with
    | none => none
    | some (minute, rest) =>
      match readAfter? ':' short rest with
      | none => none
      | some (second, rest) =>
        let (nano, rest) := readFraction rest
        if hour < 24 && minute < 60 && second < 60 then some ((hour, minute, second, nano), rest)
        else none

/-- Reads a zone: a `Z`, or a sign with hours and minutes. -/
def readZone? : List Char → Option (Zone × List Char)
  | 'Z' :: rest => some (.universal, rest)
  | sign :: rest =>
    if sign = '+' || sign = '-' then
      match readPair? false rest with
      | none => none
      | some (hours, rest) =>
        match readAfter? ':' false rest with
        | none => none
        | some (minutes, rest) =>
          let distance : Int := hours * 60 + minutes
          if hours ≤ 24 && minutes ≤ 60 then
            some (.ofMinutes (if sign = '-' then -distance else distance), rest)
          else none
    else none
  | [] => none

/-- Reads a time of day on a given date to the end of a text; the zone is given, or else read. -/
def readOn? (date : Nat × Nat × Nat) (short : Bool) (zone : Option Zone) (cs : List Char) :
    Option Moment :=
  match readClock? short cs with
  | none => none
  | some ((hour, minute, second, nano), rest) =>
    let ending :=
      match zone with
      | some zone => some (zone, rest)
      | none => readZone? rest
    match ending with
    | some (zone, []) =>
      some ⟨date.1, date.2.1, date.2.2, hour, minute, second, nano, zone⟩
    | _ => none

/-- The start of a day. -/
def ofDate (date : Nat × Nat × Nat) (zone : Zone) : Moment :=
  ⟨date.1, date.2.1, date.2.2, 0, 0, 0, 0, zone⟩

end Moment
end TokenGrammar

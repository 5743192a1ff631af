import BundledReading.Config.Toml.Text

/-!
# Dates and times of TOML

A date, a time of day, or both, then perhaps with a distance from universal time. It stands in a
document as it is, or fills a text. Each has one written form: a capital `T` between date and time,
a capital `Z` for no distance, and a fraction of a second without trailing zeros and of at most nine
digits.
-/

namespace BundledReading.Config.Toml

/-- A number of exactly `count` digits. -/
def fixed? (count : Nat) (cs : List Char) : Option (Nat × List Char) :=
  let ds := cs.take count
  if ds.length = count && ds.all Char.isDigit then some (Nat.ofDigitChars 10 ds 0, cs.drop count)
  else none

/-- Drops one given character. -/
def mark? (c : Char) : List Char → Option (List Char)
  | [] => none
  | d :: rest => if d = c then some rest else none

/-- A number in at least two digits. -/
def twoDigits (n : Nat) : List Char :=
  if n < 10 then '0' :: Nat.toDigits 10 n else Nat.toDigits 10 n

/-- A number in at least four digits. -/
def fourDigits (n : Nat) : List Char :=
  let ds := Nat.toDigits 10 n
  List.replicate (4 - ds.length) '0' ++ ds

/-- Whether a year has a 29th of February. -/
def isLeapYear (year : Nat) : Bool := year % 4 = 0 && (year % 100 ≠ 0 || year % 400 = 0)

/-- The number of days of a month. -/
def daysOf (year month : Nat) : Nat :=
  if month = 2 then if isLeapYear year then 29 else 28
  else if month ∈ [4, 6, 9, 11] then 30
  else 31

/-- A date, in its written form. -/
def date? (cs : List Char) : Option (List Char × List Char) := do
  let (year, rest) ← fixed? 4 cs
  let (month, rest) ← fixed? 2 (← mark? '-' rest)
  let (day, rest) ← fixed? 2 (← mark? '-' rest)
  if 1 ≤ month && month ≤ 12 && 1 ≤ day && day ≤ daysOf year month then
    some (fourDigits year ++ '-' :: twoDigits month ++ '-' :: twoDigits day, rest)
  else none

/-- A fraction of a second, in its written form. -/
def secondFraction (cs : List Char) : List Char × List Char :=
  match cs with
  | '.' :: rest =>
    let (ds, rest') := Numeric.spanDigits rest
    if ds.isEmpty then ([], cs)
    else
      let kept := ((ds.take 9).reverse.dropWhile (· = '0')).reverse
      (if kept.isEmpty then [] else '.' :: kept, rest')
  | _ => ([], cs)

/-- A time of day, in its written form. -/
def time? (cs : List Char) : Option (List Char × List Char) := do
  let (hour, rest) ← fixed? 2 cs
  let (minute, rest) ← fixed? 2 (← mark? ':' rest)
  let (second, rest) ← fixed? 2 (← mark? ':' rest)
  let (fraction, rest) := secondFraction rest
  if hour < 24 && minute < 60 && second ≤ 60 then
    some (twoDigits hour ++ ':' :: twoDigits minute ++ ':' :: twoDigits second ++ fraction, rest)
  else none

/-- The written form of a distance from universal time, in minutes. -/
def writeOffset (negative : Bool) (minutes : Nat) : List Char :=
  (if negative && minutes ≠ 0 then '-' else '+') ::
    twoDigits (minutes / 60) ++ ':' :: twoDigits (minutes % 60)

/-- A distance from universal time, in its written form. -/
def offset? (cs : List Char) : Option (List Char × List Char) :=
  match cs with
  | 'Z' :: rest => some (['Z'], rest)
  | 'z' :: rest => some (['Z'], rest)
  | c :: rest =>
    if c = '+' || c = '-' then do
      let (hour, rest) ← fixed? 2 rest
      let (minute, rest) ← fixed? 2 (← mark? ':' rest)
      if hour < 24 && minute < 60 then some (writeOffset (c = '-') (60 * hour + minute), rest)
      else none
    else none
  | [] => none

/-- What follows a date: perhaps a time, and then perhaps a distance. -/
def afterDate (date cs : List Char) : List Char × List Char :=
  let time := match cs with
    | c :: rest => if c = 'T' || c = 't' || c = ' ' then time? rest else none
    | [] => none
  match time with
  | none => (date, cs)
  | some (time, rest) =>
    match offset? rest with
    | some (offset, rest) => (date ++ 'T' :: time ++ offset, rest)
    | none => (date ++ 'T' :: time, rest)

/-- A date, a time, or both, in its written form. -/
def moment? (cs : List Char) : Option (List Char × List Char) :=
  match date? cs with
  | some (date, rest) => some (afterDate date rest)
  | none => time? cs

/-- A date, a time, or both, that fills a whole text, in its written form. -/
def momentOfText? (text : String) : Option String :=
  match moment? text.toList with
  | some (written, []) => some (String.ofList written)
  | _ => none

end BundledReading.Config.Toml

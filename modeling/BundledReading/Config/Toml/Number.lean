import BundledReading.Config.Toml.Text

/-!
# Numbers of TOML

Whole numbers are decimal, hexadecimal, octal or binary and fit 64 bits with a sign. Numbers with
a fraction or an exponent, and the names of infinity and of what is not a number, are
floating-point numbers. Single underscores may stand between digits.
-/

namespace BundledReading.Config.Toml

open Numeric (Binary64)

/-- Digits with single underscores between them. Gives the digits alone, and the rest. -/
def digits? (isDigit : Char → Bool) : List Char → Option (List Char × List Char)
  | [] => none
  | d :: rest =>
    if isDigit d then
      match rest with
      | '_' :: next :: tail =>
        if isDigit next then do
          let (ds, rest) ← digits? isDigit (next :: tail)
          return (d :: ds, rest)
        else none
      | '_' :: [] => none
      | next :: tail =>
        if isDigit next then do
          let (ds, rest) ← digits? isDigit (next :: tail)
          return (d :: ds, rest)
        else some ([d], next :: tail)
      | [] => some ([d], [])
    else none

/-- The value of digits of a base, read with underscores. -/
def based? (base : Nat) (cs : List Char) : Option (Int × List Char) := do
  let isDigit (c : Char) : Bool := (Json.hexValue? c).any (· < base)
  let (ds, rest) ← digits? isDigit cs
  let n := ds.foldl (fun n c => base * n + (Json.hexValue? c).getD 0) 0
  if n < Nat.pow 2 63 then some (n, rest) else none

/-- The whole part of a decimal: digits that start with zero only if zero is all. -/
def wholePart? (cs : List Char) : Option (List Char × List Char) :=
  match cs with
  | '0' :: rest => some (['0'], rest)
  | cs => digits? Char.isDigit cs

/-- A sign, if there is one. -/
def sign : List Char → Bool × List Char := Binary64.takeSign

/-- A whole number. -/
def integer? (cs : List Char) : Option (Int × List Char) :=
  match cs with
  | '0' :: 'x' :: rest => based? 16 rest
  | '0' :: 'o' :: rest => based? 8 rest
  | '0' :: 'b' :: rest => based? 2 rest
  | cs => do
    let (negative, rest) := sign cs
    let (ds, rest) ← wholePart? rest
    let n := Nat.ofDigitChars 10 ds 0
    if negative then if n ≤ Nat.pow 2 63 then some (-n, rest) else none
    else if n < Nat.pow 2 63 then some (n, rest) else none

/-- The fraction of a number, its point included. -/
def fraction? : List Char → Option (List Char × List Char)
  | '.' :: rest => digits? Char.isDigit rest
  | _ => none

/-- The exponent of a number, its letter included. -/
def exponent? : List Char → Option (Int × List Char)
  | e :: rest =>
    if e = 'e' || e = 'E' then do
      let (negative, rest) := sign rest
      let (ds, rest) ← digits? Char.isDigit rest
      let n : Int := Nat.ofDigitChars 10 ds 0
      return (if negative then -n else n, rest)
    else none
  | [] => none

/-- The name of a special number after its sign. -/
def special? (negative : Bool) : List Char → Option (Binary64 × List Char)
  | 'i' :: 'n' :: 'f' :: rest => some (Binary64.infinity negative, rest)
  | 'n' :: 'a' :: 'n' :: rest =>
    some (Binary64.ofMagnitude negative Binary64.notANumber.magnitude, rest)
  | _ => none

/-- A decimal with a fraction or an exponent, after its sign. -/
def decimal? (negative : Bool) (cs : List Char) : Option (Binary64 × List Char) := do
  let (whole, rest) ← wholePart? cs
  let (fraction, rest) ← match rest with
    | '.' :: _ => fraction? rest
    | _ => some ([], rest)
  let (exponent, rest) ← match exponent? rest with
    | some found => some found
    | none => if fraction.isEmpty then none else some (0, rest)
  let x := Binary64.ofDecimal negative (Nat.ofDigitChars 10 (whole ++ fraction) 0)
    (exponent - fraction.length)
  if x = Binary64.infinity false then none else some (x, rest)

/-- A floating-point number. A number that is too large is refused unless it is negative. -/
def float? (cs : List Char) : Option (Binary64 × List Char) :=
  let (negative, rest) := sign cs
  match special? negative rest with
  | some found => some found
  | none => decimal? negative rest

end BundledReading.Config.Toml

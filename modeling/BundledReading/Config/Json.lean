import BundledReading.Config.Document
import BundledReading.Config.Json.Fault
import BundledReading.Numeric.Reading

/-!
# JSON

The reader of JSON. A number without a point and an exponent is a whole number as long as it fits 64
bits; all others are floating-point numbers. Values may be nested 127 deep. Of several fields of one
name the last counts. Of a text that is no JSON the reader tells the first fault.

## Implementation notes

A floating-point number is read by scaling: the digits, as many as fit 64 bits, are rounded to a
number, which is then multiplied or divided by a power of ten. The result can differ in the last
bit from the number nearest to what is written.
-/

namespace BundledReading.Config.Json

open Numeric (Binary64)

/-! ## Numbers -/

/-- One more than the greatest number of 64 bits. -/
def wordLimit : Nat := Nat.pow 2 64

/-- Powers of ten up to `10 ^ 308`, as floating-point numbers. -/
def powerOfTen (exponent : Nat) : Binary64 := Binary64.ofDecimal false 1 exponent

/-- Divides by `10 ^ steps`, in portions of at most `10 ^ 308`. -/
def scaleDown : Nat → Binary64 → Nat → Binary64
  | 0, x, _ => x
  | fuel + 1, x, steps =>
    if steps ≤ 308 then x / powerOfTen steps
    else if x.units = 0 then x
    else scaleDown fuel (x / powerOfTen 308) (steps - 308)

/-- The number of a significand scaled by a power of ten; none if it is too large. -/
def scale? (negative : Bool) (significand : Nat) (exponent : Int) : Option Document :=
  let x := Binary64.ofNat significand
  let scaled? :=
    if exponent < 0 then some (scaleDown 4 x exponent.natAbs)
    else if 308 < exponent then if x.units = 0 then some x else none
    else
      let y := x * powerOfTen exponent.toNat
      if y.isInfinite then none else some y
  scaled?.map fun y => .scalar (.float (Binary64.ofMagnitude negative y.magnitude))

/-- Takes digits into a significand for as long as it fits 64 bits. Gives the significand and the
digits that were not taken. -/
def takeDigits (significand : Nat) : List Char → Nat × List Char
  | [] => (significand, [])
  | d :: ds =>
    let next := 10 * significand + (d.toNat - '0'.toNat)
    if next < wordLimit then takeDigits next ds else (significand, d :: ds)

/-- The fraction that follows the whole digits of a number, if there is one. -/
def takeFraction (cs : List Char) : Except Fault (Option (List Char) × List Char) :=
  match cs with
  | '.' :: tail =>
    match Numeric.spanDigits tail with
    | ([], []) => .error (.atEnd .endInValue)
    | ([], rest) => .error (.inside .badNumber rest)
    | (fraction, rest) => .ok (some fraction, rest)
  | _ => .ok (none, cs)

/-- The exponent that follows a number, if there is one: whether it is negative, and its
digits. -/
def takeExponent (cs : List Char) : Except Fault (Option (Bool × List Char) × List Char) :=
  match cs with
  | e :: tail =>
    if e = 'e' || e = 'E' then
      let (negative, tail) := Binary64.takeSign tail
      match Numeric.spanDigits tail with
      | ([], []) => .error (.atEnd .endInValue)
      | ([], rest) => .error (.inside .badNumber rest)
      | (ds, rest) => .ok (some (negative, ds), rest)
    else .ok (none, cs)
  | [] => .ok (none, [])

/-- The number that digits after `n` spell, if it is below `2 ^ 31`; else the digits after the one
that goes beyond. -/
def exponentOfDigits (n : Nat) : List Char → Except (List Char) Nat
  | [] => .ok n
  | d :: ds =>
    let next := 10 * n + (d.toNat - '0'.toNat)
    if next < Nat.pow 2 31 then exponentOfDigits next ds else .error ds

/-- The value of a number whose parts have been read, where `rest` follows. -/
def numberOfParts (negative : Bool) (whole : List Char) (fraction : Option (List Char))
    (exponent : Option (Bool × List Char)) (rest : List Char) : Except Fault Document :=
  let (significand, left) := takeDigits 0 whole
  if fraction.isNone && exponent.isNone && left.isEmpty then
    if !negative then .ok (.scalar (.integer significand))
    else if significand = 0 || Nat.pow 2 63 < significand then
      .ok (.scalar (.float (Binary64.ofMagnitude true (Binary64.ofNat significand).magnitude)))
    else .ok (.scalar (.integer (-significand)))
  else
    let fraction := fraction.getD []
    let (significand, ignored) := takeDigits significand fraction
    let taken : Int := fraction.length - ignored.length
    let base : Int := left.length - taken
    let scaled (exponent : Int) : Except Fault Document :=
      match scale? negative significand exponent with
      | some value => .ok value
      | none => .error (.before .numberTooLarge rest)
    match exponent with
    | none => scaled base
    | some (isDown, ds) =>
      match exponentOfDigits 0 ds with
      | .ok n => scaled (if isDown then base - n else base + n)
      | .error ds =>
        if significand ≠ 0 && !isDown then .error (.before .numberTooLarge (ds ++ rest))
        else .ok (.scalar (.float (Binary64.zero negative)))

/-- The number whose sign has been read, and what follows it. -/
def number (negative : Bool) (cs : List Char) : Except Fault (Document × List Char) :=
  match Numeric.spanDigits cs with
  | ([], []) => .error (.atEnd .endInValue)
  | ([], rest) => .error (.inside .badNumber rest)
  | ('0' :: d :: ds, rest) => .error (.inside .badNumber (d :: ds ++ rest))
  | (whole, rest) => do
    let (fraction, rest) ← takeFraction rest
    let (exponent, rest) ← takeExponent rest
    let value ← numberOfParts negative whole fraction exponent rest
    return (value, rest)

/-! ## Texts -/

/-- The value of a hexadecimal digit. -/
def hexValue? (c : Char) : Option Nat :=
  if c.isDigit then some (c.toNat - '0'.toNat)
  else if 'a' ≤ c && c ≤ 'f' then some (c.toNat - 'a'.toNat + 10)
  else if 'A' ≤ c && c ≤ 'F' then some (c.toNat - 'A'.toNat + 10)
  else none

/-- The number that hexadecimal digits spell. -/
def hexNumber? (ds : List Char) : Option Nat :=
  ds.foldlM (fun n c => (16 * n + ·) <$> hexValue? c) 0

/-- What is wrong with a text that does not begin with four hexadecimal digits: it has fewer than
four bytes, or the first four bytes are no such digits. -/
def hexFault (cs : List Char) : Fault :=
  let count := Fault.byteCount cs
  if count < 4 then .atEnd .endInText else ⟨.badEscape, count - 4⟩

/-- Four hexadecimal digits at the front of a text. -/
def hexUnit (cs : List Char) : Except Fault (Nat × List Char) :=
  match hexNumber? (cs.take 4) with
  | some n => if (cs.take 4).length = 4 then .ok (n, cs.drop 4) else .error (hexFault cs)
  | none => .error (hexFault cs)

/-- Drops the character `c`, which the second half of a surrogate pair needs. -/
def dropPairMark (c : Char) : List Char → Except Fault (List Char)
  | [] => .error (.atEnd .endInText)
  | d :: rest => if d = c then .ok rest else .error (.inside .halfSurrogatePair (d :: rest))

/-- The character of a numeric escape; a high surrogate must be followed by the escape of a low
one. -/
def escapedUnit (cs : List Char) : Except Fault (Char × List Char) := do
  let (unit, rest) ← hexUnit cs
  if 0xdc00 ≤ unit && unit < 0xe000 then throw (.before .loneSurrogate rest)
  else if 0xd800 ≤ unit && unit < 0xdc00 then
    let rest ← dropPairMark '\\' rest
    let rest ← dropPairMark 'u' rest
    let (low, rest) ← hexUnit rest
    if 0xdc00 ≤ low && low < 0xe000 then
      return (Char.ofNat (0x10000 + (unit - 0xd800) * 0x400 + (low - 0xdc00)), rest)
    else throw (.before .loneSurrogate rest)
  else return (Char.ofNat unit, rest)

/-- The character of an escape whose backslash has been read. -/
def escape : List Char → Except Fault (Char × List Char)
  | [] => .error (.atEnd .endInText)
  | '"' :: rest => .ok ('"', rest)
  | '\\' :: rest => .ok ('\\', rest)
  | '/' :: rest => .ok ('/', rest)
  | 'b' :: rest => .ok ('\x08', rest)
  | 'f' :: rest => .ok ('\x0c', rest)
  | 'n' :: rest => .ok ('\n', rest)
  | 'r' :: rest => .ok ('\r', rest)
  | 't' :: rest => .ok ('\t', rest)
  | 'u' :: rest => escapedUnit rest
  | rest => .error (.inside .badEscape rest)

/-- The characters of a text whose opening quote has been read, and what follows its closing
quote. -/
def characters : Nat → List Char → Except Fault (List Char × List Char)
  | 0, _ => .error (.atEnd .endInText)
  | _ + 1, [] => .error (.atEnd .endInText)
  | fuel + 1, c :: rest =>
    if c = '"' then .ok ([], rest)
    else if c = '\\' then do
      let (c, rest) ← escape rest
      let (cs, rest) ← characters fuel rest
      return (c :: cs, rest)
    else if c.toNat < 0x20 then .error (.before .controlCharacter rest)
    else do
      let (cs, rest) ← characters fuel rest
      return (c :: cs, rest)

/-! ## Values -/

/-- Drops the blanks at the front of a text. -/
def skipBlanks (cs : List Char) : List Char :=
  cs.dropWhile fun c => c = ' ' || c = '\n' || c = '\t' || c = '\r'

/-- What follows the word whose letters are given. -/
def afterWord : List Char → List Char → Except Fault (List Char)
  | [], cs => .ok cs
  | _ :: _, [] => .error (.atEnd .endInValue)
  | w :: ws, c :: cs => if w = c then afterWord ws cs else .error (.inside .noWord (c :: cs))

/-- The fields of which no later one has the same name. -/
def keepLast : List (String × Document) → List (String × Document)
  | [] => []
  | field :: rest =>
    if rest.any fun later => later.1 = field.1 then keepLast rest else field :: keepLast rest

mutual

/-- The value at the front of a text, nested less than `depth` deep. -/
def value : Nat → Nat → List Char → Except Fault (Document × List Char)
  | 0, _, _ => .error (.atEnd .endInValue)
  | fuel + 1, depth, cs =>
    match skipBlanks cs with
    | [] => .error (.atEnd .endInValue)
    | 'n' :: rest => (.scalar .unit, ·) <$> afterWord ['u', 'l', 'l'] rest
    | 't' :: rest => (.scalar (.bool true), ·) <$> afterWord ['r', 'u', 'e'] rest
    | 'f' :: rest => (.scalar (.bool false), ·) <$> afterWord ['a', 'l', 's', 'e'] rest
    | '"' :: rest => do
      let (cs, rest) ← characters (rest.length + 1) rest
      return (.scalar (.text (String.ofList cs)), rest)
    | '[' :: rest =>
      if depth ≤ 1 then .error (.before .tooDeep rest)
      else
        match skipBlanks rest with
        | [] => .error (.atEnd .endInArray)
        | ']' :: rest => .ok (.array [], rest)
        | rest => do
          let (items, rest) ← items fuel (depth - 1) rest
          return (.array items, rest)
    | '\x7b' :: rest =>
      if depth ≤ 1 then .error (.before .tooDeep rest)
      else
        match skipBlanks rest with
        | [] => .error (.atEnd .endInObject)
        | '\x7d' :: rest => .ok (.table [], rest)
        | rest => do
          let (fields, rest) ← fields fuel (depth - 1) rest
          return (.table (keepLast fields), rest)
    | '-' :: rest => number true rest
    | c :: rest =>
      if c.isDigit then number false (c :: rest) else .error (.inside .noValue (c :: rest))

/-- The items of an array up to its closing bracket. -/
def items : Nat → Nat → List Char → Except Fault (List Document × List Char)
  | 0, _, _ => .error (.atEnd .endInArray)
  | fuel + 1, depth, cs => do
    let (item, rest) ← value fuel depth cs
    match skipBlanks rest with
    | [] => .error (.atEnd .endInArray)
    | ',' :: rest =>
      match skipBlanks rest with
      | ']' :: rest => .error (.before .trailingComma rest)
      | rest =>
        let (items, rest) ← items fuel depth rest
        return (item :: items, rest)
    | ']' :: rest => return ([item], rest)
    | rest => .error (.inside .noArrayEnd rest)

/-- The fields of an object up to its closing brace. -/
def fields : Nat → Nat → List Char → Except Fault (List (String × Document) × List Char)
  | 0, _, _ => .error (.atEnd .endInObject)
  | fuel + 1, depth, cs =>
    match skipBlanks cs with
    | [] => .error (.atEnd .endInValue)
    | '"' :: rest => do
      let (key, rest) ← characters (rest.length + 1) rest
      match skipBlanks rest with
      | [] => .error (.atEnd .endInObject)
      | ':' :: rest =>
        let (value, rest) ← value fuel depth rest
        let field := (String.ofList key, value)
        match skipBlanks rest with
        | [] => .error (.atEnd .endInObject)
        | ',' :: rest =>
          let (fields, rest) ← fields fuel depth rest
          return (field :: fields, rest)
        | '\x7d' :: rest => return ([field], rest)
        | rest => .error (.inside .noObjectEnd rest)
      | rest => .error (.inside .noColon rest)
    | '\x7d' :: rest => .error (.before .trailingComma rest)
    | rest => .error (.inside .keyIsNoText rest)

end

/-- The value that a whole text spells, or the first fault of the text. -/
def parse (document : String) : Except Fault Document := do
  let cs := document.toList
  let (value, rest) ← value (2 * cs.length + 2) 128 cs
  match skipBlanks rest with
  | [] => return value
  | rest => throw (.inside .trailingCharacters rest)

/-- The value that a whole text spells, if it spells one. -/
def parse? (document : String) : Option Document := (parse document).toOption

/-- The format of files whose names end in `json`. -/
def format : Format where
  endings := ["json"]
  read text := (parse text).mapError fun (fault : Fault) => fault.describe text

end BundledReading.Config.Json

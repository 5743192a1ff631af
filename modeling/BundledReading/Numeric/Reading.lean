import BundledReading.Numeric.Binary64

/-!
# Reading floating-point numbers

`ofDecimal` gives the number nearest to a decimal. `parse?` reads the usual written forms: an
optional sign, digits with an optional point, an optional exponent, and names for infinity and
for what is not a number.
-/

namespace BundledReading.Numeric

/-- The digits at the front of a list of characters, and the rest. -/
def spanDigits (cs : List Char) : List Char × List Char := cs.span Char.isDigit

/-- The digits behind a point at the front of a list of characters, and the rest. -/
def spanFraction : List Char → List Char × List Char
  | '.' :: rest => spanDigits rest
  | rest => ([], rest)

namespace Binary64

/-- The number nearest to `coefficient * 10 ^ exponent`. Exponents far outside the range of the
format are settled without computing their powers. -/
def ofDecimal (negative : Bool) (coefficient : Nat) (exponent : Int) : Binary64 :=
  let length : Int := (Nat.toDigits 10 coefficient).length
  if coefficient = 0 then zero negative
  else if 400 < length + exponent then infinity negative
  else if length + exponent < -400 then zero negative
  else ofQuotient negative (coefficient * Nat.pow 10 exponent.toNat)
    (Nat.pow 10 (-exponent).toNat)

/-- An optional sign, and what follows it. -/
def takeSign : List Char → Bool × List Char
  | '-' :: rest => (true, rest)
  | '+' :: rest => (false, rest)
  | cs => (false, cs)

/-- The exponent at the end of a decimal; nothing is an exponent of zero. -/
def parseExponent? : List Char → Option Int
  | [] => some 0
  | e :: rest =>
    if e = 'e' || e = 'E' then
      let (negative, ds) := takeSign rest
      let n : Int := Nat.ofDigitChars 10 ds 0
      if ds.isEmpty || !ds.all Char.isDigit then none
      else some (if negative then -n else n)
    else none

/-- A decimal without its sign. -/
def parseDecimal? (negative : Bool) (cs : List Char) : Option Binary64 := do
  let (whole, rest) := spanDigits cs
  let (fraction, rest) := spanFraction rest
  if whole.isEmpty && fraction.isEmpty then none
  else
    let exponent ← parseExponent? rest
    return ofDecimal negative (Nat.ofDigitChars 10 (whole ++ fraction) 0) (exponent - fraction.length)

/-- The number that a text spells, if it spells one. -/
def parse? (text : String) : Option Binary64 :=
  let (negative, body) := takeSign text.toList
  let lower := body.map Char.toLower
  if lower = ['i', 'n', 'f'] || lower = ['i', 'n', 'f', 'i', 'n', 'i', 't', 'y'] then
    some (infinity negative)
  else if lower = ['n', 'a', 'n'] then
    some (ofMagnitude negative notANumber.magnitude)
  else parseDecimal? negative body

end Binary64

end BundledReading.Numeric

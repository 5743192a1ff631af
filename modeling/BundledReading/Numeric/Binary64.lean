/-!
# Binary floating-point numbers of 64 bits

A number is kept as its bit pattern, so that the payload of a value that is not a number is
never lost. Every finite number is a whole multiple of the smallest step `2 ^ -1074`; the
count of these steps is the number's `units`, and all arithmetic below is exact arithmetic on
units followed by one rounding.

## Implementation notes

`roundQuotient` is the only rounding function. It takes the exact result as a quotient of
natural numbers and picks the nearest representable count of units, a tie going to the even
significand. Subnormal results need no case of their own: below `2 ^ 53` units neighbours are
one unit apart.

Powers are spelled `Nat.pow`, which means the same whatever else is imported.
-/

namespace BundledReading.Numeric

/-- A floating-point number of 64 bits, given by its bit pattern. -/
structure Binary64 where
  bits : UInt64
  deriving DecidableEq, Inhabited

namespace Binary64

/-! ## Bit patterns and units -/

/-- The number of units in one. -/
def unitsPerOne : Nat := Nat.pow 2 1074

/-- The first count of units that is too large for a finite number. -/
def unitsLimit : Nat := Nat.pow 2 2098

/-- The pattern of infinity without its sign. -/
def infinityMagnitude : Nat := 2047 * Nat.pow 2 52

/-- The sign bit. Zero and values that are not numbers carry one too. -/
def isNegative (x : Binary64) : Bool := Nat.pow 2 63 ≤ x.bits.toNat

/-- The pattern without its sign bit. It orders the absolute values. -/
def magnitude (x : Binary64) : Nat := x.bits.toNat % Nat.pow 2 63

def isNaN (x : Binary64) : Bool := infinityMagnitude < x.magnitude

def isInfinite (x : Binary64) : Bool := x.magnitude = infinityMagnitude

/-- The units of a finite pattern: the significand, shifted by the exponent field less one. -/
def unitsOfMagnitude (m : Nat) : Nat :=
  if m < Nat.pow 2 52 then m
  else (Nat.pow 2 52 + m % Nat.pow 2 52) * Nat.pow 2 (m / Nat.pow 2 52 - 1)

/-- The pattern of a representable count of units. -/
def magnitudeOfUnits (u : Nat) : Nat :=
  let shift := u.log2 - 52
  shift * Nat.pow 2 52 + u / Nat.pow 2 shift

/-- The absolute value of a finite number, in units. -/
def units (x : Binary64) : Nat := unitsOfMagnitude x.magnitude

/-- The number with a given sign and a given pattern of its absolute value. -/
def ofMagnitude (negative : Bool) (m : Nat) : Binary64 :=
  ⟨UInt64.ofNat (if negative then Nat.pow 2 63 + m else m)⟩

def infinity (negative : Bool) : Binary64 := ofMagnitude negative infinityMagnitude

/-- The value that stands for an undefined result. -/
def notANumber : Binary64 := ofMagnitude false (infinityMagnitude + Nat.pow 2 51)

def zero (negative : Bool) : Binary64 := ofMagnitude negative 0

/-- The number with a representable count of units; too large a count gives infinity. -/
def ofUnits (negative : Bool) (u : Nat) : Binary64 :=
  if u < unitsLimit then ofMagnitude negative (magnitudeOfUnits u) else infinity negative

/-! ## Rounding -/

/-- The whole number nearest to `num / den`, a tie going to the even one. -/
def nearestEven (num den : Nat) : Nat :=
  let q := num / den
  let r := num % den
  if 2 * r < den then q else if den < 2 * r then q + 1 else q + q % 2

/-- How far apart representable counts of units are near `q`: a significand has 53 bits. -/
def spacing (q : Nat) : Nat := Nat.pow 2 (q.log2 - 52)

/-- The representable count of units nearest to `num / den`, a tie going to the even
significand. -/
def roundQuotient (num den : Nat) : Nat :=
  let step := spacing (num / den)
  nearestEven num (den * step) * step

/-- The number nearest to the quotient `num / den` with the given sign. -/
def ofQuotient (negative : Bool) (num den : Nat) : Binary64 :=
  ofUnits negative (roundQuotient (num * unitsPerOne) den)

def ofNat (n : Nat) : Binary64 := ofQuotient false n 1

def ofInt (n : Int) : Binary64 := ofQuotient (n < 0) n.natAbs 1

/-! ## Arithmetic -/

def mul (x y : Binary64) : Binary64 :=
  let negative := x.isNegative != y.isNegative
  if x.isNaN then x
  else if y.isNaN then y
  else if x.isInfinite then if y.units = 0 then notANumber else infinity negative
  else if y.isInfinite then if x.units = 0 then notANumber else infinity negative
  else ofUnits negative (roundQuotient (x.units * y.units) unitsPerOne)

def div (x y : Binary64) : Binary64 :=
  let negative := x.isNegative != y.isNegative
  if x.isNaN then x
  else if y.isNaN then y
  else if x.isInfinite then if y.isInfinite then notANumber else infinity negative
  else if y.isInfinite then zero negative
  else if y.units = 0 then if x.units = 0 then notANumber else infinity negative
  else ofUnits negative (roundQuotient (x.units * unitsPerOne) y.units)

instance : Mul Binary64 := ⟨mul⟩
instance : Div Binary64 := ⟨div⟩

/-- The largest whole number that is not above `x`. -/
def floor (x : Binary64) : Binary64 :=
  if x.isNaN || x.isInfinite then x
  else
    let whole := x.units / unitsPerOne
    let up := x.isNegative && decide (x.units % unitsPerOne ≠ 0)
    ofUnits x.isNegative ((whole + if up then 1 else 0) * unitsPerOne)

/-- The whole number nearest to `x`, a half going away from zero. -/
def round (x : Binary64) : Binary64 :=
  if x.isNaN || x.isInfinite then x
  else ofUnits x.isNegative ((2 * x.units + unitsPerOne) / (2 * unitsPerOne) * unitsPerOne)

/-- The whole part as a natural number up to `max`: what is below zero or not a number counts
as zero, what is above `max` as `max`. -/
def toNatSaturating (max : Nat) (x : Binary64) : Nat :=
  if x.isNaN || x.isNegative then 0
  else if x.isInfinite then max
  else min (x.units / unitsPerOne) max

/-! ## Comparison -/

/-- A whole number that orders all numbers as their values are ordered, both zeros alike. -/
def valueKey (x : Binary64) : Int := if x.isNegative then -x.magnitude else x.magnitude

/-- `x < y` as values; false when either is not a number. -/
def lt (x y : Binary64) : Bool := !x.isNaN && !y.isNaN && decide (x.valueKey < y.valueKey)

/-- `x ≤ y` as values; false when either is not a number. -/
def le (x y : Binary64) : Bool := !x.isNaN && !y.isNaN && decide (x.valueKey ≤ y.valueKey)

/-- Equality as values: both zeros are equal, and what is not a number equals nothing. -/
def agrees (x y : Binary64) : Bool := !x.isNaN && !y.isNaN && decide (x.valueKey = y.valueKey)

/-- A whole number that orders all bit patterns: by value, with the negative zero below the
positive one and what is not a number outside the infinities of its sign. -/
def totalKey (x : Binary64) : Int := if x.isNegative then -x.magnitude - 1 else x.magnitude

/-- The total order of bit patterns. -/
def totalLt (x y : Binary64) : Bool := x.totalKey < y.totalKey

end Binary64

end BundledReading.Numeric

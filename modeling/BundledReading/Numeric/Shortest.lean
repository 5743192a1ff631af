import BundledReading.Numeric.Binary64

/-!
# The shortest decimal that reads back

The decimals that round to a positive number form an interval around it. `shortest` looks for a
point of a decimal grid in that interval, on ever finer grids, and takes the nearest point of
the first grid that has one. Seventeen digits always suffice.

## Implementation notes

Everything is counted in half units (`2 ^ -1075`), so that the ends of the interval, which lie
halfway between neighbours, are whole. A grid of exponent `p` consists of the multiples of
`10 ^ p`; `gridNum` and `gridDen` keep that step as a quotient of natural numbers.
-/

namespace BundledReading.Numeric

/-- A positive decimal `coefficient * 10 ^ exponent`. -/
structure Decimal where
  coefficient : Nat
  exponent : Int
  deriving DecidableEq, Inhabited

namespace Decimal

/-- Drops trailing zeros of the coefficient, at most `fuel` of them. -/
def stripZeros : Nat → Decimal → Decimal
  | 0, d => d
  | fuel + 1, d =>
    if d.coefficient % 10 = 0 then stripZeros fuel ⟨d.coefficient / 10, d.exponent + 1⟩ else d

/-- The decimal digits of the coefficient, most significant first. -/
def digits (d : Decimal) : List Char := Nat.toDigits 10 d.coefficient

end Decimal

namespace Binary64

/-- The numerator of the grid step `10 ^ p`. -/
def gridNum (p : Int) : Nat := Nat.pow 10 p.toNat

/-- The denominator of the grid step `10 ^ p`. -/
def gridDen (p : Int) : Nat := Nat.pow 10 (-p).toNat

/-- Half units in one. -/
def halvesPerOne : Nat := 2 * unitsPerOne

/-- The distance from a representable count of units to the one below it. -/
def spacingBelow (u : Nat) : Nat :=
  if u = Nat.pow 2 52 * spacing u ∧ 1 < spacing u then spacing u / 2 else spacing u

/-- Whether the point `k * 10 ^ p` reads back as `u` units: it lies at most halfway to either
neighbour, and a point exactly halfway goes to the even significand. -/
def readsBack (u : Nat) (p : Int) (k : Nat) : Bool :=
  let point := k * gridNum p * halvesPerOne
  let low := (2 * u - spacingBelow u) * gridDen p
  let high := (2 * u + spacing u) * gridDen p
  if u / spacing u % 2 = 0 then low ≤ point && point ≤ high else low < point && point < high

/-- The exponent of the leading decimal digit of `u` units. -/
def leadingExponent (u : Nat) : Int :=
  if unitsPerOne ≤ u then (Nat.toDigits 10 (u / unitsPerOne)).length - 1
  else -(((List.range 324).find? fun j => unitsPerOne ≤ u * Nat.pow 10 (j + 1)).getD 323 + 1 : Nat)

/-- Which of two equally near points of a grid is taken. -/
inductive DecimalTie where
  | up
  | even
  deriving DecidableEq

/-- Whether a point that lies `rest / den` below the number gives way to the next point. -/
def DecimalTie.goesUp (tie : DecimalTie) (point rest den : Nat) : Bool :=
  match tie with
  | .up => den ≤ 2 * rest
  | .even => den < 2 * rest || (den = 2 * rest && point % 2 = 1)

/-- The point nearest to `u` units that reads back on the grid of exponent `p`, if there is
one. -/
def gridPoint? (tie : DecimalTie) (u : Nat) (p : Int) : Option Decimal :=
  let num := 2 * u * gridDen p
  let den := gridNum p * halvesPerOne
  let below := num / den
  let rest := num % den
  match readsBack u p below, readsBack u p (below + 1) with
  | true, true => some ⟨if tie.goesUp below rest den then below + 1 else below, p⟩
  | true, false => some ⟨below, p⟩
  | false, true => some ⟨below + 1, p⟩
  | false, false => none

/-- The decimal with the fewest digits that reads back as `u` units, and of these the nearest. -/
def shortest (tie : DecimalTie) (u : Nat) : Decimal :=
  let top := leadingExponent u
  let found := (List.range 17).findSome? fun (n : Nat) => gridPoint? tie u (top - n)
  (found.getD ⟨0, 0⟩).stripZeros 18

end Binary64

end BundledReading.Numeric

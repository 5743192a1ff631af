import BundledReading.Numeric.Shortest

/-!
# Written forms of floating-point numbers

All forms show the shortest decimal that reads back and differ only in when they leave
positional notation, whether a whole number keeps a fraction, and how an exponent is written. A
`NumberForm` records these decisions, and `NumberForm.write` follows them.
-/

namespace BundledReading.Numeric

/-- The decisions of one written form. -/
structure NumberForm where
  /-- The least exponent of a leading digit that is written positionally. -/
  leastPositional : Int
  /-- The least exponent of a leading digit that is no longer written positionally. -/
  leastScientific : Int
  /-- Whether a whole number in positional notation ends in `.0`. -/
  keepsFraction : Bool
  /-- Whether an exponent that is not negative has a plus sign. -/
  marksPlus : Bool
  /-- Which of two equally short and equally near decimals is shown. -/
  tie : Binary64.DecimalTie

namespace NumberForm

/-- Never an exponent, and no fraction on whole numbers. -/
def plain : NumberForm := ⟨-400, 400, false, false, .up⟩

/-- An exponent below `1e-4` and from `1e16` on: how elements are shown in failed checks. -/
def debug : NumberForm := ⟨-4, 16, true, false, .up⟩

/-- An exponent below `1e-5` and from `1e+16` on: how JSON numbers are quoted. -/
def json : NumberForm := ⟨-5, 16, true, true, .even⟩

/-- A decimal in positional notation. -/
def positional (form : NumberForm) (d : Decimal) : List Char :=
  let ds := d.digits
  let fraction := if form.keepsFraction then ['.', '0'] else []
  if 0 ≤ d.exponent then ds ++ List.replicate d.exponent.toNat '0' ++ fraction
  else
    let places := (-d.exponent).toNat
    if places < ds.length then ds.take (ds.length - places) ++ '.' :: ds.drop (ds.length - places)
    else '0' :: '.' :: List.replicate (places - ds.length) '0' ++ ds

/-- A decimal with one digit before the point and an exponent. -/
def scientific (form : NumberForm) (d : Decimal) : List Char :=
  let ds := d.digits
  let tail := if ds.length ≤ 1 then [] else '.' :: ds.drop 1
  let exponent : Int := d.exponent + ds.length - 1
  let sign := if exponent < 0 then ['-'] else if form.marksPlus then ['+'] else []
  ds.take 1 ++ tail ++ 'e' :: sign ++ Nat.toDigits 10 exponent.natAbs

/-- The written form of a number. Only a value that is not a number shows no sign. -/
def write (form : NumberForm) (x : Binary64) : String :=
  if x.isNaN then "NaN"
  else
    let sign := if x.isNegative then ['-'] else []
    let body :=
      if x.isInfinite then ['i', 'n', 'f']
      else if x.units = 0 then if form.keepsFraction then ['0', '.', '0'] else ['0']
      else
        let d := Binary64.shortest form.tie x.units
        let leading : Int := d.exponent + d.digits.length - 1
        if form.leastPositional ≤ leading && leading < form.leastScientific then form.positional d
        else form.scientific d
    String.ofList (sign ++ body)

end NumberForm

end BundledReading.Numeric

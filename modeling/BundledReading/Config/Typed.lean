import BundledReading.Config.Error
import BundledReading.Config.Setting
import BundledReading.Numeric.Notation
import BundledReading.Options
import BundledReading.Text.Quoted

/-!
# Options from settings

Settings are converted to the types of the options leniently: words for truth count as one and
zero, numbers are rounded, and texts are read as numbers. What cannot be converted is reported
with its key and the place it comes from. A setting that is missing keeps its default, and
settings of other keys are ignored.
-/

namespace BundledReading.Config

/-- The greatest number of 64 bits. -/
def wordMax : Nat := Nat.pow 2 64 - 1

/-- How messages of conversions show a value. -/
def Scalar.write : Scalar → String
  | .unit => "unit value"
  | .bool value => "boolean `" ++ toString value ++ "`"
  | .integer value => "64-bit integer `" ++ toString value ++ "`"
  | .float value => "floating point `" ++ Numeric.NumberForm.plain.write value ++ "`"
  | .text value => "string " ++ Text.quoteText value

/-- A floating-point number in positional notation, never without a point. -/
def pointedForm : Numeric.NumberForm := { Numeric.NumberForm.plain with keepsFraction := true }

/-- How messages about the shape of the whole show a value. -/
def Scalar.writeShape : Scalar → String
  | .integer value => "integer `" ++ toString value ++ "`"
  | .float value => "floating point `" ++ pointedForm.write value ++ "`"
  | value => value.write

/-- A conversion that failed: what was found, what was expected, and where it comes from. -/
structure Mismatch where
  found : String
  expected : String
  origin : Option String
  deriving DecidableEq, Inhabited

/-- The wording of a mismatch, where `key` names what was converted. -/
def Mismatch.describe (mismatch : Mismatch) (key : String) : String :=
  let place := match mismatch.origin with
    | none => ""
    | some origin => " in " ++ origin
  s!"invalid type: {mismatch.found}, expected {mismatch.expected}" ++ key ++ place

/-- The error of a mismatch under a key. -/
def Mismatch.toError (mismatch : Mismatch) (key : String) : Error :=
  .type (mismatch.describe (" for key `" ++ key ++ "`"))

namespace Setting

/-- The mismatch of a setting that is not what was expected. -/
def mismatch (expected : String) : Setting → Mismatch
  | .leaf value origin => ⟨value.write, expected, origin⟩
  | .array _ origin => ⟨"sequence", expected, origin⟩
  | .table _ => ⟨"map", expected, none⟩

/-- The truth value of a word, in any case. -/
def truthWord? (text : String) : Option Bool :=
  let lower := Text.LowerCase.toLower text
  if lower ∈ ["true", "on", "yes"] then some true
  else if lower ∈ ["false", "off", "no"] then some false
  else none

/-- Characters without a plus sign at their front. -/
def withoutPlus : List Char → List Char
  | '+' :: rest => rest
  | cs => cs

/-- The natural number of at most 64 bits that a text spells, perhaps with a plus sign. -/
def parseWord? (text : String) : Option Nat :=
  let ds := withoutPlus text.toList
  if ds.isEmpty || !ds.all Char.isDigit then none
  else
    let n := Nat.ofDigitChars 10 ds 0
    if n ≤ wordMax then some n else none

/-- A setting as a natural number of 64 bits. -/
def toWord (setting : Setting) : Except Mismatch Nat :=
  match setting with
  | .leaf (.integer value) _ =>
    if value < 0 then .error (setting.mismatch "an unsigned 64 bit or less integer")
    else .ok value.toNat
  | .leaf (.float value) _ => .ok (value.round.toNatSaturating wordMax)
  | .leaf (.bool value) _ => .ok (if value then 1 else 0)
  | .leaf (.text value) _ =>
    match truthWord? value with
    | some truth => .ok (if truth then 1 else 0)
    | none =>
      match parseWord? value with
      | some n => .ok n
      | none => .error (setting.mismatch "an integer")
  | _ => .error (setting.mismatch "an integer")

/-- A setting as a floating-point number. -/
def toFloat (setting : Setting) : Except Mismatch Numeric.Binary64 :=
  let ofTruth (truth : Bool) := Numeric.Binary64.ofNat (if truth then 1 else 0)
  match setting with
  | .leaf (.float value) _ => .ok value
  | .leaf (.integer value) _ => .ok (Numeric.Binary64.ofInt value)
  | .leaf (.bool value) _ => .ok (ofTruth value)
  | .leaf (.text value) _ =>
    match truthWord? value with
    | some truth => .ok (ofTruth truth)
    | none =>
      match Numeric.Binary64.parse? value with
      | some x => .ok x
      | none => .error (setting.mismatch "a floating point")
  | _ => .error (setting.mismatch "a floating point")

/-- A setting as text. -/
def toText (setting : Setting) : Except Mismatch String :=
  match setting with
  | .leaf (.text value) _ => .ok value
  | .leaf (.bool value) _ => .ok (toString value)
  | .leaf (.integer value) _ => .ok (toString value)
  | .leaf (.float value) _ => .ok (Numeric.NumberForm.plain.write value)
  | _ => .error (setting.mismatch "a string")

/-- Joins a key to the key of a table. -/
def joinKey (table key : String) : String :=
  if key.isEmpty || key.toList.head? = some '[' then table ++ key else table ++ "." ++ key

/-- The labels of a table's entries. -/
def toLabels (table : String) : List (String × Setting) → Except Error (List (String × String))
  | [] => .ok []
  | (key, setting) :: rest => do
    let value ← setting.toText.mapError (·.toError (joinKey table key))
    let labels ← toLabels table rest
    return Options.putLabel key value labels

end Setting

/-- The keys of the options. -/
def bundleSizeKey : String := "desired_bundle_size_bytes"

def parallelismKey : String := "max_parallelism"

def fractionKey : String := "dynamic_split_fraction"

def intervalKey : String := "rebalance_interval_ms"

def labelsKey : String := "labels"

namespace Setting

/-- The value of a key, converted, or else the default. -/
def field {β : Type} (root : Setting) (key : String) (convert : Setting → Except Mismatch β)
    (default : β) : Except Error β :=
  match find? key root.entries with
  | none => .ok default
  | some setting => (convert setting).mapError (·.toError key)

/-- A number of 64 bits as a word. -/
def toUInt64 (setting : Setting) : Except Mismatch UInt64 := UInt64.ofNat <$> setting.toWord

/-- The labels under their key. Anything but a table there is an error of shape. -/
def labelsField (root : Setting) : Except Error (List (String × String)) :=
  match find? labelsKey root.entries with
  | none => .ok []
  | some (.table entries) => toLabels labelsKey entries
  | some (.leaf value _) => .error (.shape s!"invalid type: {value.writeShape}, expected a map")
  | some (.array _ _) => .error (.shape "invalid type: sequence, expected a map")

/-- The options that settings say. -/
def toOptions (root : Setting) : Except Error Options := do
  let default : Options := {}
  let desiredBundleBytes ← root.field bundleSizeKey toUInt64 default.desiredBundleBytes
  let maxParallelism ← root.field parallelismKey toUInt64 default.maxParallelism
  let splitFraction ← root.field fractionKey toFloat default.splitFraction
  let rebalanceMillis ← root.field intervalKey toUInt64 default.rebalanceMillis
  let labels ← root.labelsField
  return { desiredBundleBytes, maxParallelism, splitFraction, rebalanceMillis, labels }

end Setting

end BundledReading.Config

import BundledReading.Config.Typed

/-!
# Options from a document

A document gives the options as a table of their fields, or as an array in the order of the fields.
Nothing is converted: every value must be of the type of its field. What is missing keeps its
default, and fields of other names are ignored. The first fault counts, in the order of names or of
positions.
-/

namespace BundledReading.Config

/-- Why a document does not give options. -/
inductive StrictError where
  /-- A value is of the wrong type. -/
  | type (found expected : String)
  /-- A number is out of range. -/
  | value (found expected : String)
  /-- An array has more elements than there are fields. -/
  | length (found : Nat)
  deriving DecidableEq, Inhabited

/-- The wording of an error. -/
def StrictError.message : StrictError → String
  | type found expected => s!"invalid type: {found}, expected {expected}"
  | value found expected => s!"invalid value: {found}, expected {expected}"
  | length found => s!"invalid length {found}, expected fewer elements in array"

namespace Document

/-- How messages show a value. -/
def write : Document → String
  | .scalar .unit => "null"
  | .scalar (.bool value) => "boolean `" ++ toString value ++ "`"
  | .scalar (.integer value) => "integer `" ++ toString value ++ "`"
  | .scalar (.float value) => "floating point `" ++ Numeric.NumberForm.json.write value ++ "`"
  | .scalar (.text value) => "string " ++ Text.quoteText value
  | .array _ => "sequence"
  | .table _ => "map"

/-- A natural number of 64 bits, of the type `name`. -/
def toWord (name : String) : Document → Except StrictError UInt64
  | .scalar (.integer value) =>
    if 0 ≤ value ∧ value ≤ wordMax then .ok (UInt64.ofNat value.toNat)
    else .error (.value (write (.scalar (.integer value))) name)
  | value => .error (.type value.write name)

/-- A number as a floating-point number. -/
def toFloat : Document → Except StrictError Numeric.Binary64
  | .scalar (.integer value) => .ok (Numeric.Binary64.ofInt value)
  | .scalar (.float value) => .ok value
  | value => .error (.type value.write "f64")

/-- A text. -/
def toText : Document → Except StrictError String
  | .scalar (.text value) => .ok value
  | value => .error (.type value.write "a string")

/-- The fields of a table in the order of their names. -/
def sortFields (fields : List (String × Document)) : List (String × Document) :=
  fields.mergeSort fun a b => !(b.1 < a.1)

/-- A table of texts. -/
def toLabels : Document → Except StrictError (List (String × String))
  | .table fields => (sortFields fields).mapM fun field => (field.1, ·) <$> field.2.toText
  | value => .error (.type value.write "a map")

/-- Sets the field of a key. -/
def setField (options : Options) (key : String) (value : Document) : Except StrictError Options :=
  if key = bundleSizeKey then
    value.toWord "u64" |>.map fun n => { options with desiredBundleBytes := n }
  else if key = parallelismKey then
    value.toWord "usize" |>.map fun n => { options with maxParallelism := n }
  else if key = fractionKey then
    value.toFloat.map fun x => { options with splitFraction := x }
  else if key = intervalKey then
    value.toWord "u64" |>.map fun n => { options with rebalanceMillis := n }
  else if key = labelsKey then
    value.toLabels.map fun labels => { options with labels }
  else .ok options

/-- The keys of the options in the order of their positions. -/
def optionKeys : List String :=
  [bundleSizeKey, parallelismKey, fractionKey, intervalKey, labelsKey]

/-- The options that a document gives. -/
def toOptions : Document → Except StrictError Options
  | .table fields =>
    (sortFields fields).foldlM (fun options field => setField options field.1 field.2) {}
  | .array items => do
    let options ← (optionKeys.zip items).foldlM
      (fun options field => setField options field.1 field.2) {}
    if optionKeys.length < items.length then throw (.length items.length)
    return options
  | value => .error (.type value.write "struct Options")

end Document

end BundledReading.Config

import BundledReading.Numeric.Binary64

/-!
# Documents

What the text of a configuration file says, exactly as it says it: scalar values, arrays, and tables
of fields. A `Format` reads a text as a document.
-/

namespace BundledReading.Config

/-- A value without keys. -/
inductive Scalar where
  | unit
  | bool (value : Bool)
  | integer (value : Int)
  | float (value : Numeric.Binary64)
  | text (value : String)
  deriving DecidableEq, Inhabited

/-- A document: a value, an array, or a table. The fields of a table are in the order of the text.
-/
inductive Document where
  | scalar (value : Scalar)
  | array (items : List Document)
  | table (fields : List (String × Document))
  deriving Inhabited

/-- The value of a field. -/
def Document.field? (name : String) (fields : List (String × Document)) : Option Document :=
  (fields.find? fun field => field.1 = name).map Prod.snd

/-- A format of configuration files: the endings of their names, and the document that a text is, or
the wording of what is wrong with it. -/
structure Format where
  endings : List String
  read : String → Except String Document

end BundledReading.Config

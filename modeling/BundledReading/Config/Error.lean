/-!
# Configuration errors

Why options could not be loaded. Every error says what is wrong.
-/

namespace BundledReading.Config

/-- Why an index of a key path leads nowhere. -/
inductive IndexFault where
  /-- Counted from the end of an array, the index goes beyond its first item. -/
  | beforeFirst
  /-- An array that reaches as far as the index has no room in memory. -/
  | tooFar
  deriving DecidableEq, Inhabited

/-- The wording of an index fault. -/
def IndexFault.message : IndexFault → String
  | beforeFirst => "attempt to subtract with overflow"
  | tooFar => "capacity overflow"

/-- Why a configuration could not be loaded. -/
inductive Error where
  /-- A setting has a value of the wrong type. -/
  | type (message : String)
  /-- The settings as a whole have the wrong shape. -/
  | shape (message : String)
  /-- The file cannot be found, or its format is not known. -/
  | file (message : String)
  /-- The text of a file is not of its format, or is no table as a whole. -/
  | grammar (message origin : String)
  /-- A key of a file or of the environment has an index that leads nowhere. -/
  | index (fault : IndexFault)
  deriving DecidableEq, Inhabited

/-- The wording of an error, unless it is about the text of a file. -/
def Error.message? : Error → Option String
  | type message => some message
  | shape message => some message
  | file message => some message
  | grammar _ _ => none
  | index fault => some fault.message

/-- The wording of an error for the user. -/
def Error.describe : Error → String
  | type message => message
  | shape message => message
  | file message => message
  | grammar message origin => s!"{message} in {origin}"
  | index fault => fault.message

end BundledReading.Config

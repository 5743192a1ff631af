import BundledReading.Config.Environment
import BundledReading.Config.Json
import BundledReading.Config.Path
import BundledReading.Config.Toml.Document
import BundledReading.Config.Typed
import BundledReading.Text.Utf8

/-!
# Loading options

Options are loaded in layers: the defaults, then a configuration file if one is named, then the
environment. The file may be named without the ending that tells its format. What formats there are,
and in what order they are tried, is a parameter of loading.
-/

namespace BundledReading.Config

/-- The files that can be read. -/
structure Files where
  /-- The full path of a name. -/
  fullPath : String → String
  /-- The bytes of the file at a full path, if there is one. -/
  read? : String → Option Bytes
  /-- How settings name the file at a full path as their origin. -/
  origin : String → String

/-! ## Finding files -/

section Find

variable (formats : List Format)

/-- The format that the ending of a path announces. -/
def formatOfPath? (path : String) : Option Format :=
  formats.find? fun format => (Path.ending? path).any format.endings.contains

/-- A configuration file that was found. -/
structure FoundFile where
  path : String
  format : Format
  content : Bytes

/-- The longer paths at which the file of a full path is looked for, in order. -/
def longerPaths (path : String) : List (String × Format) :=
  formats.flatMap fun format =>
    format.endings.filterMap fun ending => (Path.extend? path ending).map (·, format)

/-- The paths at which the file of a full path is looked for. -/
def candidatePaths (path : String) : List String :=
  path :: (longerPaths formats path).map Prod.fst

/-- Finds the file of a name: the very file, or else one whose path goes on with an ending. -/
def Files.find (files : Files) (name : String) : Except Error FoundFile :=
  let path := files.fullPath name
  match files.read? path with
  | some content =>
    match formatOfPath? formats path with
    | some format => .ok ⟨path, format, content⟩
    | none =>
      .error (.file ("configuration file \"" ++ path ++ "\" is not of a registered file format"))
  | none =>
    let candidate? (longer : String × Format) : Option FoundFile :=
      (files.read? longer.1).map (⟨longer.1, longer.2, ·⟩)
    match (longerPaths formats path).findSome? candidate? with
    | some found => .ok found
    | none => .error (.file ("configuration file \"" ++ name ++ "\" not found"))

end Find

/-! ## Reading files -/

/-- The text of a file. -/
def fileText (content : Bytes) : Except Error String :=
  match Text.Utf8.decode content with
  | .ok text => .ok text
  | .error _ => .error (.file "stream did not contain valid UTF-8")

/-- The fields of what a file says as a whole, which must be a table. -/
def rootFields (origin : String) (root : Document) : Except String (List (String × Document)) :=
  match root with
  | .table fields => .ok fields
  | root => .error (((Setting.ofDocument (some origin) root).mismatch "a map").describe "")

/-- What a configuration file says, and the place it is. -/
structure ReadFile where
  fields : List (String × Document)
  origin : String

/-- Reads the file of a name. -/
def Files.readFile (files : Files) (formats : List Format) (name : String) :
    Except Error ReadFile := do
  let found ← files.find formats name
  let text ← fileText found.content
  let origin := files.origin found.path
  let fields ← ((found.format.read text).bind (rootFields origin)).mapError
    fun (message : String) => Error.grammar message origin
  return ⟨fields, origin⟩

/-- The settings that a file says. -/
def ReadFile.settings (file : ReadFile) : List (String × Setting) :=
  Setting.entriesOfFields (some file.origin) file.fields

/-! ## Layers -/

/-- The settings of a file with those of the environment over them. -/
def layers (fromFile fromEnvironment : List (String × Setting)) : Except IndexFault Setting := do
  let root ← Setting.empty.layer fromFile
  let root ← root.layer fromEnvironment
  root.followPaths

/-- Loads options from a file, if one is named, and from the environment over it. -/
def load (formats : List Format) (files : Files) (environment : Environment)
    (path : Option String) : Except Error Options := do
  let fromFile ← match path with
    | none => pure []
    | some name => ReadFile.settings <$> files.readFile formats name
  let root ← (layers fromFile environment.settings).mapError
    fun (fault : IndexFault) => Error.index fault
  root.toOptions

/-- Loads options from the file that the environment names, if any, and from the environment. -/
def loadDefault (formats : List Format) (files : Files) (environment : Environment) :
    Except Error Options :=
  load formats files environment (environment.value? Environment.pathVariable)

/-- The formats that are read here. Loading takes any others that a program knows. -/
def standardFormats : List Format := [Toml.format, Json.format]

end BundledReading.Config

import BundledReading.Config.Setting

/-!
# Settings from the environment

Variables whose names begin with `igloo__`, in any case, are settings. In the rest of the name
two underscores separate the keys of a path, as a point does, and the value is text.
-/

namespace BundledReading.Config

/-- An environment: names and values, in the order in which they were set. -/
abbrev Environment := List (String × String)

namespace Environment

/-- The beginning of the names of settings, in lower case. -/
def marker : List Char := ['i', 'g', 'l', 'o', 'o', '_', '_']

/-- The variable that names the configuration file. -/
def pathVariable : String := "IGLOO_CONFIG_PATH"

/-- Where settings of the environment come from, as messages say. -/
def origin : String := "the environment"

/-- Replaces every two underscores by a point, from left to right. -/
def joinLevels : List Char → List Char
  | '_' :: '_' :: rest => '.' :: joinLevels rest
  | c :: rest => c :: joinLevels rest
  | [] => []

/-- The key that a variable sets, if it sets one. -/
def key? (name : String) : Option String :=
  let lower := (Text.LowerCase.toLower name).toList
  if marker.isPrefixOf lower then
    some (String.ofList (joinLevels (lower.drop marker.length)))
  else none

/-- The settings of an environment. Of variables that set one key the last counts. -/
def settings (environment : Environment) : List (String × Setting) :=
  environment.foldl (fun entries entry =>
    match key? entry.1 with
    | none => entries
    | some key => Setting.put key (.leaf (.text entry.2) (some origin)) entries) []

/-- The value of a variable. -/
def value? (environment : Environment) (name : String) : Option String :=
  (environment.reverse.find? fun entry => entry.1 = name).map Prod.snd

end Environment

end BundledReading.Config

import BundledReading.Config.Typed

/-!
# Command line arguments

Options may be given by a letter or by a name, with their value attached or in the next argument,
each at most once; everything else is a value to read. Two dashes end the options. Arguments are
taken one after the other, and the first that is wrong, or that asks for help or the version,
decides.
-/

namespace BundledReading.CommandLine

/-- The options that take a value. -/
inductive OptionName where
  | config
  | bundleSize
  | parallelism
  deriving DecidableEq, Inhabited

/-- What the arguments say. -/
structure Arguments where
  config : Option String := none
  bundleSize : Option UInt64 := none
  parallelism : Option UInt64 := none
  values : List String := []
  deriving DecidableEq, Inhabited

/-- What the arguments ask for. -/
inductive Command where
  | run (arguments : Arguments)
  | help
  | version
  deriving DecidableEq, Inhabited

/-- Why arguments are refused. -/
inductive UsageError where
  | unknown (argument : String)
  | repeated (option : OptionName)
  | missingValue (option : OptionName)
  | badValue (option : OptionName) (value : String)
  | unexpectedValue (argument : String)
  deriving DecidableEq, Inhabited

/-- The full name of an option. -/
def OptionName.write : OptionName → String
  | config => "--config"
  | bundleSize => "--bundle-size"
  | parallelism => "--parallelism"

/-- The wording of a usage error. -/
def UsageError.message : UsageError → String
  | unknown argument => s!"unexpected argument '{argument}' found"
  | repeated option => s!"the argument '{option.write}' cannot be used multiple times"
  | missingValue option => s!"a value is required for '{option.write}' but none was supplied"
  | badValue option value => s!"invalid value '{value}' for '{option.write}'"
  | unexpectedValue argument => s!"unexpected value for '{argument}' found; no more were expected"

/-- What one flag stands for. -/
inductive Flag where
  | option (name : OptionName)
  | help
  | version
  deriving DecidableEq

/-- The flag of a letter. -/
def Flag.ofLetter? : Char → Option Flag
  | 'c' => some (.option .config)
  | 'b' => some (.option .bundleSize)
  | 'p' => some (.option .parallelism)
  | 'h' => some .help
  | 'V' => some .version
  | _ => none

/-- The flag of a name. -/
def Flag.ofName? (name : String) : Option Flag :=
  if name = "config" then some (.option .config)
  else if name = "bundle-size" then some (.option .bundleSize)
  else if name = "parallelism" then some (.option .parallelism)
  else if name = "help" then some .help
  else if name = "version" then some .version
  else none

namespace Arguments

/-- Whether an option has been given. -/
def has (arguments : Arguments) : OptionName → Bool
  | .config => arguments.config.isSome
  | .bundleSize => arguments.bundleSize.isSome
  | .parallelism => arguments.parallelism.isSome

/-- The number that the value of an option spells. -/
def number (option : OptionName) (value : String) : Except UsageError UInt64 :=
  match Config.Setting.parseWord? value with
  | some n => .ok (UInt64.ofNat n)
  | none => .error (.badValue option value)

/-- Gives an option its value. -/
def give (arguments : Arguments) (option : OptionName) (value : String) :
    Except UsageError Arguments :=
  if arguments.has option then .error (.repeated option)
  else
    match option with
    | .config => .ok { arguments with config := some value }
    | .bundleSize => (number option value).map fun n => { arguments with bundleSize := some n }
    | .parallelism => (number option value).map fun n => { arguments with parallelism := some n }

end Arguments

/-- What one argument that is not a value leads to. -/
inductive Effect where
  /-- The arguments so far, complete. -/
  | done (arguments : Arguments)
  /-- The next argument is the value of an option. -/
  | awaits (option : OptionName)
  | ends (command : Command)

/-- The effect of a named option, with the value after an equals sign, if any. -/
def longEffect (arguments : Arguments) (body : List Char) : Except UsageError Effect :=
  let (name, rest) := body.span (· ≠ '=')
  let name := String.ofList name
  match Flag.ofName? name with
  | none => .error (.unknown ("--" ++ name))
  | some (.option option) =>
    match rest with
    | [] => .ok (.awaits option)
    | _ :: value => .done <$> arguments.give option (String.ofList value)
  | some .help => if rest.isEmpty then .ok (.ends .help) else .error (.unexpectedValue "--help")
  | some .version =>
    if rest.isEmpty then .ok (.ends .version) else .error (.unexpectedValue "--version")

/-- The effect of an option by its letter, with what is attached to it. -/
def shortEffect (arguments : Arguments) (letter : Char) (rest : List Char) :
    Except UsageError Effect :=
  match Flag.ofLetter? letter with
  | none => .error (.unknown ("-" ++ String.singleton letter))
  | some .help => .ok (.ends .help)
  | some .version => .ok (.ends .version)
  | some (.option option) =>
    match rest with
    | [] => .ok (.awaits option)
    | '=' :: value => .done <$> arguments.give option (String.ofList value)
    | value => .done <$> arguments.give option (String.ofList value)

/-- The shapes of an argument. -/
inductive Shape where
  /-- A value to read, or the value of an option. -/
  | plain
  /-- Two dashes, which end the options. -/
  | terminator
  | named (body : List Char)
  | lettered (letter : Char) (attached : List Char)

/-- The shape of an argument. -/
def shape (argument : String) : Shape :=
  match argument.toList with
  | ['-', '-'] => .terminator
  | '-' :: '-' :: body => .named body
  | ['-'] => .plain
  | '-' :: letter :: attached => .lettered letter attached
  | _ => .plain

/-- Goes through arguments, where `awaited` is the option whose value comes next. -/
def parseFrom (arguments : Arguments) (awaited : Option OptionName) :
    List String → Except UsageError Command
  | [] =>
    match awaited with
    | some option => .error (.missingValue option)
    | none => .ok (.run arguments)
  | argument :: rest =>
    let proceed (effect : Except UsageError Effect) : Except UsageError Command := do
      match ← effect with
      | .done arguments => parseFrom arguments none rest
      | .awaits option => parseFrom arguments (some option) rest
      | .ends command => return command
    match awaited, shape argument with
    | some option, .plain => do
      let arguments ← arguments.give option argument
      parseFrom arguments none rest
    | some option, _ => .error (.missingValue option)
    | none, .plain => parseFrom { arguments with values := arguments.values ++ [argument] } none rest
    | none, .terminator => .ok (.run { arguments with values := arguments.values ++ rest })
    | none, .named body => proceed (longEffect arguments body)
    | none, .lettered letter attached => proceed (shortEffect arguments letter attached)

/-- What a list of arguments asks for. -/
def parse (arguments : List String) : Except UsageError Command := parseFrom {} none arguments

end BundledReading.CommandLine

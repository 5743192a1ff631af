import BundledReading.CommandLine.Arguments
import BundledReading.CommandLine.Log
import BundledReading.Coder.Plain
import BundledReading.Config.Load
import BundledReading.Executor.Schedule

/-!
# The program

Reads the given values, or else the lines of standard input, as the bundles of one source, and
writes them out again in their order. What the run was made of goes to standard error, behind what
the log has to say. Nothing is written to standard output unless everything was read.
-/

namespace BundledReading.CommandLine

/-- What a run of the program leaves behind. -/
structure Outcome where
  code : UInt8
  stdout : String
  stderr : String
  deriving DecidableEq, Inhabited

/-- Everything that the program depends on. -/
structure World where
  arguments : List String
  environment : Config.Environment
  files : Config.Files
  /-- The formats of configuration files, in the order in which they are tried. -/
  formats : List Config.Format
  stdin : Bytes
  /-- What stands on standard error of what the log is told. -/
  log : List LogEvent → String

/-! ## Values -/

/-- Cuts a text at its line ends, without them; a carriage return before a line end belongs to
it. -/
def splitLines : List Char → List (List Char)
  | [] => []
  | '\n' :: rest => [] :: splitLines rest
  | '\r' :: '\n' :: rest => [] :: splitLines rest
  | c :: rest =>
    match splitLines rest with
    | [] => [[c]]
    | line :: lines => (c :: line) :: lines

/-- The lines of standard input, unless it is not UTF-8. -/
def inputLines? (stdin : Bytes) : Option (List String) :=
  match Text.Utf8.decode stdin with
  | .ok text => some ((splitLines text.toList).map String.ofList)
  | .error _ => none

/-! ## Output -/

/-- A number in at least six columns. -/
def column (n : Nat) : String :=
  let ds := Nat.toDigits 10 n
  String.ofList (List.replicate (6 - ds.length) ' ' ++ ds)

/-- One line about a bundle. -/
def bundleLine (bundle : Executor.Summary) : String :=
  "  [" ++ column bundle.start ++ ", " ++ column bundle.stop ++ ") " ++ column bundle.records ++
    " records" ++ (if bundle.dynamic then "  (dynamic)" else "") ++ "\n"

/-- The lines about a whole run. -/
def reportLines (report : Executor.Report String) : String :=
  s!"{report.values.length} records in {report.bundles.length} bundles " ++
    s!"({report.dynamicSplits} dynamic splits)\n" ++
    String.join (report.bundles.map bundleLine)

/-- Each value on a line of its own. -/
def echo (values : List String) : String := String.join (values.map fun value => value ++ "\n")

/-- A failure: what was being done, and why it did not succeed. -/
def failed (doing cause : String) : Outcome :=
  let indented := cause.toList.flatMap fun c =>
    if c = '\n' then ['\n', ' ', ' ', ' ', ' '] else [c]
  ⟨1, "", "Error: " ++ doing ++ "\n\nCaused by:\n    " ++ String.ofList indented ++ "\n"⟩

/-- A crash, with what stopped the program. -/
def crashed (message : String) : Outcome := ⟨101, "", message ++ "\n"⟩

/-- The configuration could not be loaded. -/
def notLoaded (doing : String) : Config.Error → Outcome
  | .index fault => crashed fault.message
  | cause => failed doing cause.describe

/-- The version that the program reports. -/
def versionLine : String := "igloo 0.1.0\n"

/-- The help that the program gives. -/
def helpText : String :=
  "Main Igloo crate, re-exporting the in-memory source stack and providing the main binary.\n\n" ++
  "Usage: igloo [OPTIONS] [VALUES]...\n\n" ++
  "Arguments:\n" ++
  "  [VALUES]...  Values to read. Read from stdin, one per line, when none are given\n\n" ++
  "Options:\n" ++
  "  -c, --config <CONFIG>            TOML file with execution options. Defaults to $" ++
  Config.Environment.pathVariable ++ "\n" ++
  "  -b, --bundle-size <BUNDLE_SIZE>  Desired bundle size in bytes\n" ++
  "  -p, --parallelism <PARALLELISM>  Maximum number of bundles read at once\n" ++
  "  -h, --help                       Print help\n" ++
  "  -V, --version                    Print version\n"

/-- How the program ends once its run has returned, where `logged` is on standard error. -/
def conclude (logged : String) : Except Executor.RunError (Executor.Report String) → Outcome
  | .ok report => ⟨0, echo report.values, logged ++ reportLines report⟩
  | .error (.source cause) => ⟨1, "", logged ++ "Error: " ++ cause.message?.getD "" ++ "\n"⟩
  | .error .lostTask => ⟨1, "", logged ++ "Error: Bundle task did not complete\n"⟩
  | .error .tooManyPermits =>
    ⟨101, "", logged ++
      s!"a semaphore may not have more than MAX_PERMITS permits ({Executor.permitLimit})\n"⟩

/-! ## The run -/

/-- The loaded options with what the arguments override. -/
def Arguments.apply (arguments : Arguments) (options : Options) : Options :=
  { options with
    desiredBundleBytes := arguments.bundleSize.getD options.desiredBundleBytes
    maxParallelism := arguments.parallelism.getD options.maxParallelism }

/-- The options of a run, or the outcome of not getting them. -/
def options (world : World) (arguments : Arguments) : Except Outcome Options :=
  let loaded := match arguments.config with
    | some path =>
      (Config.load world.formats world.files world.environment (some path)).mapError
        (notLoaded ("loading configuration from " ++ path))
    | none =>
      (Config.loadDefault world.formats world.files world.environment).mapError
        (notLoaded "loading configuration")
  loaded.map arguments.apply

/-- The name of the configuration file that a run asks for. -/
def configName? (arguments : Arguments) (environment : Config.Environment) : Option String :=
  arguments.config <|> environment.value? Config.Environment.pathVariable

/-- Whether the program reads standard input. -/
def readsInput (world : World) : Bool :=
  match parse world.arguments with
  | .ok (.run arguments) => arguments.values.isEmpty && (options world arguments).isOk
  | _ => false

/-- The values of a run, or the outcome of not getting them. -/
def values (world : World) (arguments : Arguments) : Except Outcome (List String) :=
  if arguments.values.isEmpty then
    match inputLines? world.stdin with
    | some lines => .ok lines
    | none => .error (failed "reading values from stdin" "stream did not contain valid UTF-8")
  else .ok arguments.values

/-- The source of a run's values. -/
def source (values : List String) : Except Failure (Source String) :=
  @Source.create .text (some (Coder.utf8.share 5)) Registry.standard values

/-- A way to run a source, under options, to its end. -/
abbrev Execution := Options → Source String → Executor.Ending String

/-- What the program does for well-formed arguments, where `execute` runs a source. -/
def runWith (execute : Execution) (world : World) (arguments : Arguments) :
    Except Outcome Outcome := do
  let options ← options world arguments
  let values ← values world arguments
  let building := LogEvent.building values.length options
  match source values with
  | .error cause => return conclude (world.log [building]) (.error (.source cause))
  | .ok source =>
    let ending := execute options source
    return conclude (world.log (building :: runEvents options source ending)) ending.result

/-- What the program does, where `execute` runs a source. -/
def runBy (execute : Execution) (world : World) : Outcome :=
  match parse world.arguments with
  | .error cause => ⟨2, "", "error: " ++ cause.message ++ "\n"⟩
  | .ok .version => ⟨0, versionLine, ""⟩
  | .ok .help => ⟨0, helpText, ""⟩
  | .ok (.run arguments) =>
    match runWith execute world arguments with
    | .ok outcome => outcome
    | .error outcome => outcome

/-- Runs a source by the fixed schedule, without ticks. -/
def execute : Execution := fun options source =>
  (Executor.runToEnd options source).getD ⟨.error .lostTask, [], 0⟩

/-- What the program does. -/
def run (world : World) : Outcome := runBy execute world

end BundledReading.CommandLine

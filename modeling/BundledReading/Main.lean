import BundledReading.CommandLine.Program

/-!
# The command line

Collects what the program depends on, runs it and performs its outcome. Configuration files are
read before the run, under every name that they may be found by; standard input is read only if
the program asks for it. No log is kept.
-/

open BundledReading

namespace BundledReading.CommandLine

/-- The variables of the process. -/
def readEnvironment : IO Config.Environment := do
  let content ← try IO.FS.readBinFile "/proc/self/environ" catch _ => pure ByteArray.empty
  let entries := content.toList.splitOn 0
  return entries.filterMap fun entry => do
    let text ← (Text.Utf8.decode entry).toOption
    let name := text.toList.takeWhile (· ≠ '=')
    let rest := text.toList.drop name.length
    if name.isEmpty || rest.isEmpty then none
    else some (String.ofList name, String.ofList (rest.drop 1))

/-- The content of the file at a path, if it can be read. -/
def readFile? (path : String) : IO (Option Bytes) := do
  try return some (← IO.FS.readBinFile path).toList catch _ => return none

/-- All that is left of a stream. -/
partial def readStream (stream : IO.FS.Stream) (seen : ByteArray) : IO ByteArray := do
  let part ← stream.read 65536
  if part.isEmpty then return seen else readStream stream (seen ++ part)

/-- The files that a run may ask for, read beforehand. -/
def readFiles (arguments : List String) (environment : Config.Environment) : IO Config.Files := do
  let name? := match parse arguments with
    | .ok (.run arguments) => configName? arguments environment
    | _ => none
  let directory := (← IO.currentDir).toString
  let fullPath := Config.Path.inDirectory directory
  let paths := (name?.map (Config.candidatePaths Config.standardFormats ∘ fullPath)).getD []
  let contents ← paths.mapM fun path => do return (path, ← readFile? path)
  return {
    fullPath
    read? := fun path => (contents.find? fun content => content.1 = path).bind Prod.snd
    origin := Config.Path.wayFrom directory }

end BundledReading.CommandLine

/-- Runs the program. -/
def main (arguments : List String) : IO UInt32 := do
  let environment ← CommandLine.readEnvironment
  let files ← CommandLine.readFiles arguments environment
  let world : CommandLine.World :=
    { arguments, environment, files, formats := Config.standardFormats, stdin := []
      log := fun _ => "" }
  let stdin ← if CommandLine.readsInput world then
      CommandLine.readStream (← IO.getStdin) ByteArray.empty
    else pure ByteArray.empty
  let outcome := CommandLine.run { world with stdin := stdin.toList }
  IO.print outcome.stdout
  IO.eprint outcome.stderr
  return outcome.code.toUInt32

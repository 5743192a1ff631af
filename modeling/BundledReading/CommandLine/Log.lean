import BundledReading.Executor.State

/-!
# The log

What the program tells its log while it runs. Which of it is written, and how, is decided outside of
the program; all of it goes to standard error.
-/

namespace BundledReading.CommandLine

/-- What the program tells its log. -/
inductive LogEvent where
  /-- The source of a number of values is built. -/
  | building (values : Nat) (options : Options)
  /-- The run of a source begins. -/
  | starting (elements bundles parallelism : Nat)
  /-- A bundle is launched, has finished, or is split. -/
  | noticed (notice : Executor.Notice)
  /-- A bundle has failed while a number of others were running. -/
  | failed (cause : Failure) (running : Nat)
  | finished (records bundles dynamicSplits : Nat)

/-- What a run of a source tells the log, once it has ended. -/
def runEvents (options : Options) (source : Source String) (ending : Executor.Ending String) :
    List LogEvent :=
  let last := match ending.result with
    | .ok report =>
      [.finished report.values.length report.bundles.length report.dynamicSplits]
    | .error (.source cause) => [.failed cause ending.running]
    | .error _ => []
  .starting source.size (source.bundles options.desiredBundleBytes.toNat).length
      options.parallelism :: ending.notices.map .noticed ++ last

end BundledReading.CommandLine

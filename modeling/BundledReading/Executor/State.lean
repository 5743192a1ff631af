import BundledReading.Options
import BundledReading.Reader

/-!
# States of a run

A run reads the bundles of a source as concurrent tasks. Its main loop launches queued bundles
while permits are free, waits for a task to be joined or for a tick, and returns a report or an
error. Each task reads on its own, one small step at a time, gives its permit back when it has
ended, and is joined some time later.
-/

namespace BundledReading.Executor

variable {α : Type}

/-- A bundle that waits for a permit. -/
structure Pending (α : Type) where
  source : Source α
  /-- Whether the bundle is the residual of a running reader. -/
  dynamic : Bool

/-- How a task ends. -/
inductive Outcome (α : Type) where
  /-- All elements were read. The source covers what the reader read in the end. -/
  | read (final : Source α) (values : List α)
  | failed (cause : Failure)
  /-- The coder broke down instead of giving an answer. -/
  | crashed

/-- What a task does next. -/
inductive Phase (α : Type) where
  /-- Start the reader. -/
  | starting
  /-- Look whether the run has been aborted. -/
  | checking
  /-- Decode the current element. -/
  | reading
  /-- Advance the reader. -/
  | advancing
  /-- Note what the reader has covered. -/
  | closing
  /-- Give the permit back. -/
  | ended (outcome : Outcome α)
  /-- Nothing: the task waits to be joined. -/
  | released (outcome : Outcome α)

/-- A launched bundle that has not been joined. -/
structure Task (α : Type) where
  id : Nat
  dynamic : Bool
  reader : Reader α
  /-- The elements read so far, the last one first. -/
  readBack : List α
  phase : Phase α

/-- What the report says about one bundle. -/
structure Summary where
  start : Nat
  stop : Nat
  records : Nat
  dynamic : Bool
  deriving DecidableEq, Inhabited

/-- A bundle that was read to its end. -/
structure Finished (α : Type) where
  summary : Summary
  values : List α

/-- What a run returns when every bundle was read. -/
structure Report (α : Type) where
  values : List α
  /-- The bundles in the order of their ranges. -/
  bundles : List Summary
  dynamicSplits : Nat

/-- Why a run fails. -/
inductive RunError where
  | source (cause : Failure)
  /-- A task broke down. -/
  | lostTask
  /-- More bundles at once are asked for than there can be permits. -/
  | tooManyPermits
  deriving DecidableEq, Inhabited

/-- Where the main loop is. -/
inductive Control (α : Type) where
  | launching
  | waiting
  | returned (result : Except RunError (Report α))

/-- What happened in a run, as an observer sees it. -/
inductive Notice where
  | launched (start stop : Nat) (dynamic : Bool)
  | finished (start stop records : Nat)
  /-- A split gave the range away; its reader had consumed that share before. -/
  | split (start stop : Nat) (consumed : Numeric.Binary64)
  deriving DecidableEq, Inhabited

/-- A state of a run. -/
structure State (α : Type) where
  queue : List (Pending α)
  permits : Nat
  /-- Launched and not joined, in the order of launching. -/
  active : List (Task α)
  /-- Joined, in the order of joining. -/
  finished : List (Finished α)
  dynamicSplits : Nat
  /-- The number of bundles launched so far, and the next task's identity. -/
  launched : Nat
  /-- Whether tasks are told to stop. -/
  abort : Bool
  control : Control α
  /-- What has happened, the last first. -/
  notices : List Notice

/-- The greatest number of permits that there can be. -/
def permitLimit : Nat := Nat.pow 2 61 - 1

/-- The state in which a run begins: all static bundles queued and no task launched. -/
def State.begin (options : Options) (source : Source α) : State α where
  queue := (source.bundles options.desiredBundleBytes.toNat).map (⟨·, false⟩)
  permits := options.parallelism
  active := []
  finished := []
  dynamicSplits := 0
  launched := 0
  abort := permitLimit < options.parallelism
  control :=
    if permitLimit < options.parallelism then .returned (.error .tooManyPermits) else .launching
  notices := []

/-- The result of a run that has returned. -/
def State.result? (state : State α) : Option (Except RunError (Report α)) :=
  match state.control with
  | .returned result => some result
  | _ => none

/-- What a run leaves behind that has returned. -/
structure Ending (α : Type) where
  result : Except RunError (Report α)
  /-- What has happened, in order. -/
  notices : List Notice
  /-- The number of tasks that were launched and not joined. -/
  running : Nat

/-- What a run leaves behind, if it has returned. -/
def State.ending? (state : State α) : Option (Ending α) :=
  state.result?.map fun result => ⟨result, state.notices.reverse, state.active.length⟩

end BundledReading.Executor

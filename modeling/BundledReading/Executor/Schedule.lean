import BundledReading.Executor.Step

/-!
# Schedules

A run has many interleavings. The schedule here takes one of them: whatever can go on without
waiting goes on, tasks in the order of launching and each as far as it gets, until only closed
gates hold the run up. Ticks come only where a script asks for them.

## Implementation notes

The schedule only chooses events; what they do is said by `State.step` alone. The number of
steps between two ticks is bounded by the number of elements.
-/

namespace BundledReading.Executor

variable {α : Type}

/-- What a script does to a run that has settled. -/
inductive Action where
  /-- Lets one rebalance interval pass. -/
  | tick
  /-- Opens the gate before an element of these bytes, for good. -/
  | release (gate : Bytes)
  deriving DecidableEq

/-- Whether a task stands before a closed gate. -/
def Task.isHeld (gates : List Bytes) (task : Task α) : Bool :=
  match task.phase with
  | .reading =>
    (task.reader.range.current?.bind task.reader.source.buffer.get?).any fun bytes =>
      gates.contains bytes
  | _ => false

/-- Whether a task can do a step. -/
def Task.canWork (gates : List Bytes) (task : Task α) : Bool :=
  task.outcome?.isNone && !task.isHeld gates

/-- The next event of the schedule: the main loop first, then tasks, then joins. None if the run
has returned or only gates hold it up. -/
def State.nextEvent? (gates : List Bytes) (state : State α) : Option RunEvent :=
  match state.control with
  | .returned _ => none
  | .launching => some .proceed
  | .waiting =>
    match state.active.find? (Task.canWork gates) with
    | some task => some (.work task.id)
    | none => (state.active.find? fun task => task.outcome?.isSome).map fun task => .join task.id

/-- Follows the schedule until nothing can go on, for at most `fuel` events. -/
def State.settleFor (options : Options) (crashes : Bytes → Bool) (gates : List Bytes) :
    Nat → State α → State α
  | 0, state => state
  | fuel + 1, state =>
    match state.nextEvent? gates with
    | none => state
    | some event => settleFor options crashes gates fuel (state.step options crashes event)

/-- Enough events for a source of `size` elements to be read: three for each element, and a few
for each bundle. -/
def settleBound (size : Nat) : Nat := 16 * (size + 2)

/-- One rebalance attempt that looks at all running readers in the order of launching. -/
def State.tickAll (options : Options) (crashes : Bytes → Bool) (state : State α) : State α :=
  state.step options crashes (.tick (state.active.map Task.id))

/-- A scripted run: its state and the gates that are still closed. -/
structure Scripted (α : Type) where
  state : State α
  gates : List Bytes

namespace Scripted

variable (options : Options) (crashes : Bytes → Bool) (size : Nat)

/-- Lets a scripted run settle. -/
def settle (run : Scripted α) : Scripted α :=
  { run with state := run.state.settleFor options crashes run.gates (settleBound size) }

/-- Performs one action and lets the run settle. -/
def perform (run : Scripted α) : Action → Scripted α
  | .tick => settle options crashes size { run with state := run.state.tickAll options crashes }
  | .release gate =>
    settle options crashes size { run with gates := run.gates.filter fun other => other ≠ gate }

/-- The notices that `after` has and `before` had not, in the order in which they came. -/
def newNotices (before after : State α) : List Notice :=
  (after.notices.take (after.notices.length - before.notices.length)).reverse

/-- Follows a script and collects the notices of each action. Once the run has returned, the
notices of that action and of all later ones are left out. -/
def follow (run : Scripted α) : List Action → Scripted α × List (List Notice)
  | [] => (run, [])
  | action :: rest =>
    let after := perform options crashes size run action
    if after.state.result?.isSome then (after, [])
    else
      let (last, trace) := follow after rest
      (last, newNotices run.state after.state :: trace)

end Scripted

/-- Runs a source under a script, then with all gates open until it returns. Gives the result and
the notices of the start and of each action, as far as the run was still going on after it. -/
def runScripted (options : Options) (crashes : Bytes → Bool) (gates : List Bytes)
    (script : List Action) (source : Source α) :
    Option (Except RunError (Report α)) × List (List Notice) :=
  let size := source.size
  let first : Scripted α := ⟨State.begin options source, gates⟩
  let started := first.settle options crashes size
  if started.state.result?.isSome then (started.state.result?, [])
  else
    let (last, trace) := started.follow options crashes size script
    let last := { last with gates := [] }.settle options crashes size
    (last.state.result?, Scripted.newNotices first.state started.state :: trace)

/-- Runs a source without gates and ticks, and gives what the run leaves behind. -/
def runToEnd (options : Options) (source : Source α) : Option (Ending α) :=
  let first : Scripted α := ⟨State.begin options source, []⟩
  (first.settle options (fun _ => false) source.size).state.ending?

end BundledReading.Executor

import BundledReading.Executor.State

/-!
# Steps of a run

Whatever happens in a run is one of four events: the main loop goes on, a task goes on, a task is
joined, or a tick passes. A run is a sequence of events in any order; an event that cannot happen
in a state leaves it unchanged. Results about all interleavings are results about all lists of
events.

## Implementation notes

A tick looks at the running readers in an order of its own, which the event names. A reader left
out of the order is not looked at, so a tick may also split a reader that another reader has
overtaken while the tick was looking.
-/

namespace BundledReading.Executor

variable {α : Type}

/-- What can happen next in a run. -/
inductive RunEvent where
  /-- The main loop launches a bundle, stops launching, or returns. -/
  | proceed
  /-- The task with this identity does its next step. -/
  | work (id : Nat)
  /-- The main loop receives the outcome of the task with this identity. -/
  | join (id : Nat)
  /-- The timer ticks, and running readers are looked at in this order. -/
  | tick (order : List Nat)

/-! ## Tasks -/

/-- The next step of a task. `crashes` tells on which bytes the coder breaks down. -/
def Task.work (crashes : Bytes → Bool) (abort : Bool) (task : Task α) : Task α :=
  match task.phase with
  | .starting =>
    match task.reader.start with
    | .error cause => { task with phase := .ended (.failed cause) }
    | .ok (more, reader) => { task with reader, phase := if more then .checking else .closing }
  | .checking => { task with phase := if abort then .ended (.failed .aborted) else .reading }
  | .reading =>
    let bytes := task.reader.range.current?.bind task.reader.source.buffer.get?
    if bytes.any crashes then { task with phase := .ended .crashed }
    else
      match task.reader.current with
      | .error cause => { task with phase := .ended (.failed cause) }
      | .ok value => { task with readBack := value :: task.readBack, phase := .advancing }
  | .advancing =>
    match task.reader.advance with
    | .error cause => { task with phase := .ended (.failed cause) }
    | .ok (more, reader) => { task with reader, phase := if more then .checking else .closing }
  | .closing =>
    { task with phase := .ended (.read task.reader.currentSource task.readBack.reverse) }
  | .ended outcome => { task with phase := .released outcome }
  | .released _ => task

/-- Whether the next step of a task gives its permit back. -/
def Task.releases (task : Task α) : Bool :=
  match task.phase with
  | .ended _ => true
  | _ => false

/-- The outcome of a task that can be joined. -/
def Task.outcome? (task : Task α) : Option (Outcome α) :=
  match task.phase with
  | .released outcome => some outcome
  | _ => none

/-- The task with an identity. -/
def findTask (id : Nat) (tasks : List (Task α)) : Option (Task α) :=
  tasks.find? fun task => task.id = id

/-- Replaces the task that has the identity of `task`. -/
def putTask (task : Task α) (tasks : List (Task α)) : List (Task α) :=
  tasks.map fun other => if other.id = task.id then task else other

/-- The tasks but the one with an identity. -/
def removeTask (id : Nat) (tasks : List (Task α)) : List (Task α) :=
  tasks.filter fun task => task.id ≠ id

/-! ## Rebalancing -/

/-- The share that a reader has consumed, if the reader has started and is not at its end. -/
def candidate? (reader : Reader α) : Option Numeric.Binary64 :=
  match reader.consumed with
  | none => none
  | some consumed => if consumed.lt (Numeric.Binary64.ofNat 1) then some consumed else none

/-- The first of the readers that have consumed least, with what it has consumed. -/
def leastAdvanced : List (Nat × Reader α) → Option (Nat × Reader α × Numeric.Binary64)
  | [] => none
  | (id, reader) :: rest =>
    match candidate? reader, leastAdvanced rest with
    | none, least => least
    | some consumed, none => some (id, reader, consumed)
    | some consumed, some (otherId, other, otherConsumed) =>
      if otherConsumed.totalLt consumed then some (otherId, other, otherConsumed)
      else some (id, reader, consumed)

/-- A split that rebalancing has made. -/
structure Rebalanced (α : Type) where
  id : Nat
  reader : Reader α
  /-- What the reader had consumed before. -/
  consumed : Numeric.Binary64
  residual : Source α

/-- Splits the least advanced of the readers, if it lets itself be split. -/
def rebalance (fraction : Numeric.Binary64) (readers : List (Nat × Reader α)) :
    Option (Rebalanced α) := do
  let (id, reader, consumed) ← leastAdvanced readers
  match reader.split fraction with
  | (some residual, reader) => some ⟨id, reader, consumed, residual⟩
  | (none, _) => none

/-! ## The main loop -/

/-- The report of a run whose bundles have all finished. -/
def report (finished : List (Finished α)) (dynamicSplits : Nat) : Report α :=
  let inOrder := finished.mergeSort fun a b =>
    a.summary.start < b.summary.start ||
      (a.summary.start = b.summary.start && a.summary.stop ≤ b.summary.stop)
  ⟨inOrder.flatMap Finished.values, inOrder.map Finished.summary, dynamicSplits⟩

namespace State

/-- Ends the run with a result and tells all tasks to stop. -/
def finish (state : State α) (result : Except RunError (Report α)) : State α :=
  { state with control := .returned result, abort := true }

/-- Launches a bundle that has left the queue. -/
def launch (state : State α) (bundle : Pending α) (queue : List (Pending α)) : State α :=
  { state with
    queue
    permits := state.permits - 1
    active := state.active ++
      [⟨state.launched, bundle.dynamic, Reader.ofSource bundle.source, [], .starting⟩]
    launched := state.launched + 1
    notices := .launched bundle.source.start bundle.source.stop bundle.dynamic :: state.notices }

/-- Stops launching: waits for the tasks, or returns the report if there are none. -/
def stopLaunching (state : State α) : State α :=
  if state.active.isEmpty then state.finish (.ok (report state.finished state.dynamicSplits))
  else { state with control := .waiting }

/-- Launches the next bundle if there is one and a permit is free, and stops launching
otherwise. -/
def proceed (state : State α) : State α :=
  match state.control with
  | .launching =>
    match state.queue with
    | [] => state.stopLaunching
    | bundle :: queue =>
      if 0 < state.permits then state.launch bundle queue else state.stopLaunching
  | _ => state

/-- Lets a task do its next step. -/
def work (crashes : Bytes → Bool) (state : State α) (id : Nat) : State α :=
  match findTask id state.active with
  | none => state
  | some task =>
    { state with
      active := putTask (task.work crashes state.abort) state.active
      permits := if task.releases then state.permits + 1 else state.permits }

/-- Receives the outcome of a task that has ended. -/
def receive (state : State α) (task : Task α) (outcome : Outcome α) : State α :=
  let state := { state with active := removeTask task.id state.active, control := .launching }
  match outcome with
  | .crashed => state.finish (.error .lostTask)
  | .failed cause => state.finish (.error (.source cause))
  | .read final values =>
    { state with
      finished := state.finished ++
        [⟨⟨final.start, final.stop, values.length, task.dynamic⟩, values⟩]
      notices := .finished final.start final.stop values.length :: state.notices }

/-- Joins a task if the main loop waits and the task has ended. -/
def join (state : State α) (id : Nat) : State α :=
  match state.control, findTask id state.active with
  | .waiting, some task =>
    match task.outcome? with
    | some outcome => state.receive task outcome
    | none => state
  | _, _ => state

/-- Rebalances if the main loop waits, nothing is queued and a permit is free. -/
def tick (fraction : Numeric.Binary64) (state : State α) (order : List Nat) : State α :=
  match state.control with
  | .waiting =>
    let state := { state with control := .launching }
    if state.queue.isEmpty && 0 < state.permits then
      let readers := order.filterMap fun id =>
        (findTask id state.active).map fun task => (id, task.reader)
      match rebalance fraction readers with
      | none => state
      | some made =>
        { state with
          active := state.active.map fun task =>
            if task.id = made.id then { task with reader := made.reader } else task
          queue := state.queue ++ [⟨made.residual, true⟩]
          dynamicSplits := state.dynamicSplits + 1
          notices :=
            .split made.residual.start made.residual.stop made.consumed :: state.notices }
    else state
  | _ => state

/-- What an event makes of a state. -/
def step (options : Options) (crashes : Bytes → Bool) (state : State α) : RunEvent → State α
  | .proceed => state.proceed
  | .work id => state.work crashes id
  | .join id => state.join id
  | .tick order => state.tick options.splitFraction order

/-- What a sequence of events makes of a state. -/
def run (options : Options) (crashes : Bytes → Bool) (state : State α)
    (events : List RunEvent) : State α :=
  events.foldl (step options crashes) state

end State

end BundledReading.Executor

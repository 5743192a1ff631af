import BundledReading.Contract.Model

/-!
# Reading whole sources

The ways in which checks read: a whole source, the first elements of a fresh reader, all that a
reader has left, and all that it has left while a split lands somewhere in between.

## Implementation notes

A model may hand out elements for ever, so every loop has a budget of elements. Running out of
budget is an outcome of its own and never counts as having read anything.
-/

namespace BundledReading.Contract

/-- Why a check does not succeed. -/
inductive CheckError where
  /-- A call failed. -/
  | failure (cause : Failure)
  /-- The check found the contract broken. -/
  | violation (message : String)
  /-- A reader yielded more elements than the budget allows. -/
  | overBudget
  deriving DecidableEq, Inhabited

/-- A check: calls in sequence, until one fails or the contract is seen to be broken. -/
abbrev Check (σ : Type) := EStateM CheckError σ

variable {σ S R α β : Type}

/-- Performs a call within a check. -/
def perform (call : Call σ β) : Check σ β := fun state =>
  match call state with
  | .ok value state => .ok value state
  | .error cause state => .error (.failure cause) state

/-- Performs a call that cannot fail within a check. -/
def always (action : StateM σ β) : Check σ β := fun state =>
  let (value, state) := action state
  .ok value state

/-- Ends a check with a message. -/
def violated (message : String) : Check σ β := throw (.violation message)

/-- Performs the part of a check that uses one reader. -/
def withReader (reader : R) (action : Check (R × σ) β) : Check σ (β × R) := fun state =>
  match action (reader, state) with
  | .ok value (reader, state) => .ok (value, reader) state
  | .error cause (_, state) => .error cause state

namespace SourceModel

variable (model : SourceModel σ S R α)

/-- Reads on for as long as `more` says that the reader stands on an element. -/
def readWhile : Nat → Bool → Check (R × σ) (List α)
  | _, false => pure []
  | 0, true => throw .overBudget
  | budget + 1, true => do
    let value ← perform model.current
    let more ← perform model.advance
    let values ← readWhile budget more
    return value :: values

/-- Takes the next step: to the first element of a reader that has not started, else on. -/
def step (started : Bool) : Check (R × σ) Bool :=
  perform (if started then model.advance else model.start)

/-- Reads everything left. The current element of a started reader counts as read. -/
def readRest (budget : Nat) (started : Bool) : Check (R × σ) (List α) := do
  let more ← model.step started
  model.readWhile budget more

/-- Reads up to `count` elements, starting the reader unless `started`. -/
def readFirst : Nat → Bool → Check (R × σ) (List α)
  | 0, _ => pure []
  | count + 1, started => do
    let more ← model.step started
    if more then
      let value ← perform model.current
      let values ← readFirst count true
      return value :: values
    else return []

/-- Reads a whole source with a reader of its own. -/
def readAll (budget : Nat) (source : S) : Check σ (List α) := do
  let reader ← perform (model.openSource source)
  let (values, _) ← withReader reader (model.readRest budget false)
  return values

/-- A split that is to land after a number of further calls by the consumer, or the outcome of
one that has landed. -/
inductive Race (S : Type) where
  | pending (calls : Nat)
  | landed (residual : Option S)

/-- Lets a pending split land now if its time has come. -/
def Race.tick (fraction : Numeric.Binary64) : Race S → Check (R × σ) (Race S)
  | .landed residual => pure (.landed residual)
  | .pending 0 => .landed <$> always (model.handleSplit fraction)
  | .pending (calls + 1) => pure (.pending calls)

/-- Lets a pending split land in any case. -/
def Race.finish (fraction : Numeric.Binary64) : Race S → Check (R × σ) (Option S)
  | .landed residual => pure residual
  | .pending _ => always (model.handleSplit fraction)

/-- Reads on like `readWhile` while a split is under way. -/
def raceWhile (fraction : Numeric.Binary64) :
    Nat → Bool → Race S → Check (R × σ) (List α × Race S)
  | _, false, race => pure ([], race)
  | 0, true, _ => throw .overBudget
  | budget + 1, true, race => do
    let race ← race.tick model fraction
    let value ← perform model.current
    let race ← race.tick model fraction
    let more ← perform model.advance
    let (values, race) ← raceWhile fraction budget more race
    return (value :: values, race)

/-- Reads everything left while a split through a handle lands after `calls` calls of the
consumer, or once the consumer has finished if it makes fewer. Gives what was read and the
residual. -/
def readRacing (budget : Nat) (fraction : Numeric.Binary64) (calls : Nat) (started : Bool) :
    Check (R × σ) (List α × Option S) := do
  let race ← (Race.pending calls).tick model fraction
  let more ← model.step started
  let (values, race) ← model.raceWhile fraction budget more race
  let residual ← race.finish model fraction
  return (values, residual)

end SourceModel

end BundledReading.Contract

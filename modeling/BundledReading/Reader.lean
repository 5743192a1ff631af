import BundledReading.Source

/-!
# Readers

A reader moves over the elements of one source. Its live end may be moved back while it reads:
a split at a fraction of the live range gives the part behind the new end away as a residual,
provided the reader keeps at least one element that it has not yet read.

## Implementation notes

`ReadRange` is all that changes, so splitting is an operation on it. Whoever splits, the reader
itself or somebody who only holds a handle on it, performs the same operation on the same range.
-/

namespace BundledReading

/-- How far a reader is and how far it will go. -/
structure ReadRange where
  /-- The index of the current element; none before the start. -/
  position : Option Nat
  /-- The end of what the reader will still read. -/
  liveEnd : Nat
  /-- Whether the reader has run out of elements. -/
  done : Bool
  deriving DecidableEq, Inhabited

namespace ReadRange

/-- The range of a reader that has not started. -/
def fresh (stop : Nat) : ReadRange := ⟨none, stop, false⟩

/-- Positions a fresh range on its first element, if it has one. -/
def begin (range : ReadRange) (start : Nat) : Except Failure (Bool × ReadRange) :=
  if range.position.isSome || range.done then .error .alreadyStarted
  else if start < range.liveEnd then .ok (true, { range with position := some start })
  else .ok (false, { range with done := true })

/-- Moves to the next element, if there is one. -/
def advance (range : ReadRange) : Except Failure (Bool × ReadRange) :=
  if range.done then .ok (false, range)
  else
    match range.position with
    | none => .error .noCurrent
    | some position =>
      if position + 1 < range.liveEnd then
        .ok (true, { range with position := some (position + 1) })
      else .ok (false, { range with done := true })

/-- The index of the current element. -/
def current? (range : ReadRange) : Option Nat := if range.done then none else range.position

/-- The share of the live range that has been read, the current element included; none before
the start. -/
def consumed (range : ReadRange) (start : Nat) : Option Numeric.Binary64 :=
  if range.done then some (Numeric.Binary64.ofNat 1)
  else
    range.position.map fun position =>
      Numeric.Binary64.ofNat (position - start + 1) / Numeric.Binary64.ofNat (range.liveEnd - start)

/-- Whether a fraction lies strictly between zero and one. -/
def isSplitFraction (fraction : Numeric.Binary64) : Bool :=
  (Numeric.Binary64.zero false).lt fraction && fraction.lt (Numeric.Binary64.ofNat 1)

/-- The end that a split at `fraction` proposes: that share of the live range, rounded. -/
def proposedEnd (range : ReadRange) (start : Nat) (fraction : Numeric.Binary64) : Nat :=
  let offset := (fraction * Numeric.Binary64.ofNat (range.liveEnd - start)).round
  max start (min (start + offset.toNatSaturating (Nat.pow 2 64 - 1)) range.liveEnd)

/-- Where a split at `fraction` would cut: nowhere unless the reader stands on an element, the
fraction lies between zero and one, and both parts are left with an unread element. -/
def splitPoint (range : ReadRange) (start : Nat) (fraction : Numeric.Binary64) : Option Nat :=
  if isSplitFraction fraction then
    match range.current? with
    | none => none
    | some position =>
      let proposed := range.proposedEnd start fraction
      if proposed ≤ position + 1 || range.liveEnd ≤ proposed then none else some proposed
  else none

theorem splitPoint_eq_some_iff {range : ReadRange} {start point : Nat}
    {fraction : Numeric.Binary64} :
    range.splitPoint start fraction = some point ↔
      isSplitFraction fraction = true ∧ ∃ position, range.current? = some position ∧
        range.proposedEnd start fraction = point ∧ position + 1 < point ∧
        point < range.liveEnd := by
  unfold splitPoint
  by_cases hf : isSplitFraction fraction = true
  · cases hc : range.current? with
    | none => simp [hf]
    | some position =>
        simp only [hf, if_true, true_and, Option.some.injEq, exists_eq_left']
        by_cases h : range.proposedEnd start fraction ≤ position + 1 ∨
            range.liveEnd ≤ range.proposedEnd start fraction
        · simp [h]
          omega
        · simp [h]
          omega
  · simp [hf]

/-- Splits at `fraction`. Gives the part that was cut off, if any, and the range that is left. -/
def split (range : ReadRange) (start : Nat) (fraction : Numeric.Binary64) :
    Option (Nat × Nat) × ReadRange :=
  match range.splitPoint start fraction with
  | none => (none, range)
  | some point => (some (point, range.liveEnd), { range with liveEnd := point })

/-- A rejected split leaves the range as it was. -/
theorem split_of_none {range : ReadRange} {start : Nat} {fraction : Numeric.Binary64}
    (h : range.splitPoint start fraction = none) : range.split start fraction = (none, range) := by
  simp [split, h]

/-- An accepted split gives away what lies behind the new live end. -/
theorem split_of_some {range : ReadRange} {start point : Nat} {fraction : Numeric.Binary64}
    (h : range.splitPoint start fraction = some point) :
    range.split start fraction =
      (some (point, range.liveEnd), { range with liveEnd := point }) := by
  simp [split, h]

/-- How messages show a range. -/
def write (range : ReadRange) : String :=
  let position := match range.position with
    | none => "None"
    | some position => s!"Some({position})"
  s!"ReadRange \x7b position: {position}, live_end: {range.liveEnd}, " ++
    s!"done: {toString range.done} \x7d"

end ReadRange

/-- A source that is being read. -/
structure Reader (α : Type) where
  source : Source α
  range : ReadRange

namespace Reader

variable {α : Type}

/-- Opens a source. -/
def ofSource (source : Source α) : Reader α := ⟨source, ReadRange.fresh source.stop⟩

/-- Positions on the first element. -/
def start (reader : Reader α) : Except Failure (Bool × Reader α) := do
  let (more, range) ← reader.range.begin reader.source.start
  return (more, { reader with range })

/-- Moves to the next element. -/
def advance (reader : Reader α) : Except Failure (Bool × Reader α) := do
  let (more, range) ← reader.range.advance
  return (more, { reader with range })

/-- The value of the current element. -/
def current (reader : Reader α) : Except Failure α :=
  match reader.range.current? with
  | none => .error .noCurrent
  | some position => reader.source.buffer.decode position

/-- The share of the live range that has been read. -/
def consumed (reader : Reader α) : Option Numeric.Binary64 :=
  reader.range.consumed reader.source.start

/-- Splits at a fraction of the live range. Gives the residual, if the split is accepted. -/
def split (reader : Reader α) (fraction : Numeric.Binary64) : Option (Source α) × Reader α :=
  let (cut, range) := reader.range.split reader.source.start fraction
  (cut.map fun part => reader.source.withRange part.1 part.2, { reader with range })

/-- The source of what the reader will have read in the end, as things stand. -/
def currentSource (reader : Reader α) : Source α :=
  reader.source.withRange reader.source.start reader.range.liveEnd

/-- How messages show a reader. -/
def write (reader : Reader α) : String :=
  s!"InMemoryReader \x7b source: {reader.source.write}, range: {reader.range.write} \x7d"

/-- How messages show a handle on a reader. -/
def writeHandle (reader : Reader α) : String :=
  s!"SplitHandle \x7b range: {reader.range.write} \x7d"

end Reader

end BundledReading

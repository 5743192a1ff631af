import BundledReading.Reader

/-!
# Models of bounded sources

What a check may do with a source, whatever the source is made of: ask for its coder and its
bundles, open it, and read and split what was opened. A model may keep state that all its sources
and readers share, and every operation may change it, so nothing is assumed about how a source
behaves from one call to the next.

## Implementation notes

A call on a reader runs over the pair of the reader and the shared state. A call that fails still
leaves both behind, changed or not.
-/

namespace BundledReading.Contract

/-- A call that uses and changes state of type `σ`, and may fail. -/
abbrev Call (σ : Type) := EStateM Failure σ

/-- The operations of sources of type `S` with readers of type `R` over elements of type `α`,
where `σ` is the shared state. -/
structure SourceModel (σ S R α : Type) where
  /-- How messages show a source. -/
  write : S → String
  /-- The identity of the coder that a source hands out. -/
  coderIdentity : S → Call σ Nat
  /-- The bundles of a source for a desired size in bytes. -/
  bundles : S → Nat → Call σ (List S)
  openSource : S → Call σ R
  start : Call (R × σ) Bool
  advance : Call (R × σ) Bool
  current : Call (R × σ) α
  /-- A split by the reader itself. -/
  split : Numeric.Binary64 → StateM (R × σ) (Option S)
  /-- A split through a handle on the reader. -/
  handleSplit : Numeric.Binary64 → StateM (R × σ) (Option S)
  currentSource : StateM (R × σ) S

section InMemory

variable {α β : Type}

/-- A call on an in-memory reader, which a failure leaves as it was. -/
def onReader (f : Reader α → Except Failure (β × Reader α)) : Call (Reader α × Unit) β :=
  fun (reader, state) =>
    match f reader with
    | .ok (value, reader) => .ok value (reader, state)
    | .error cause => .error cause (reader, state)

/-- The sources over encoded buffers. They share no state. -/
def inMemory (α : Type) : SourceModel Unit (Source α) (Reader α) α where
  write := Source.write
  coderIdentity source := pure source.buffer.coder.identity
  bundles source desiredBytes := pure (source.bundles desiredBytes)
  openSource source := pure (Reader.ofSource source)
  start := onReader Reader.start
  advance := onReader Reader.advance
  current := onReader fun reader => reader.current.map (·, reader)
  split fraction := fun (reader, state) =>
    let (residual, reader) := reader.split fraction
    (residual, reader, state)
  handleSplit fraction := fun (reader, state) =>
    let (residual, reader) := reader.split fraction
    (residual, reader, state)
  currentSource := fun (reader, state) => (reader.currentSource, reader, state)

end InMemory

end BundledReading.Contract

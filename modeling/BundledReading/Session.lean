import BundledReading.Reader

/-!
# Sessions

A session keeps the sources, readers and split handles that were made one after the other, each
kind numbered from zero. A handle is a reference to a reader: splitting through it, or through
any clone of it, changes the very reader that consumes.
-/

namespace BundledReading

/-- The objects of a session. -/
structure Session (α : Type) where
  sources : Array (Source α)
  readers : Array (Reader α)
  /-- For each handle the number of its reader. -/
  handles : Array Nat

namespace Session

variable {α β : Type}

/-- A session with one source. -/
def ofSource (source : Source α) : Session α := ⟨#[source], #[], #[]⟩

/-- Adds a source and gives its number. -/
def addSource (session : Session α) (source : Source α) : Nat × Session α :=
  (session.sources.size, { session with sources := session.sources.push source })

/-- Adds sources and gives the number of the first. -/
def addSources (session : Session α) (sources : List (Source α)) : Nat × Session α :=
  (session.sources.size, { session with sources := session.sources ++ sources.toArray })

/-- Adds the residual of a split, if there is one, and gives it with its number. -/
def addResidual (session : Session α) (residual : Option (Source α)) :
    Option (Source α × Nat) × Session α :=
  match residual with
  | none => (none, session)
  | some source =>
    let (number, session) := session.addSource source
    (some (source, number), session)

/-- Adds a reader of a source and gives its number. -/
def openSource (session : Session α) (source : Source α) : Nat × Session α :=
  (session.readers.size, { session with readers := session.readers.push (Reader.ofSource source) })

/-- Adds a handle on a reader and gives its number. -/
def addHandle (session : Session α) (reader : Nat) : Nat × Session α :=
  (session.handles.size, { session with handles := session.handles.push reader })

/-- Forgets all handles. -/
def dropHandles (session : Session α) : Session α := { session with handles := #[] }

/-- Replaces a reader by what an operation has left of it. -/
def setReader (session : Session α) (number : Nat) (reader : Reader α) : Session α :=
  { session with readers := session.readers.setIfInBounds number reader }

/-- The reader that a handle refers to, with its number. -/
def handleReader? (session : Session α) (handle : Nat) : Option (Nat × Reader α) := do
  let number ← session.handles[handle]?
  let reader ← session.readers[number]?
  return (number, reader)

/-- Splits a reader, whoever asked for it, and adds the residual as a source. -/
def split (session : Session α) (number : Nat) (reader : Reader α)
    (fraction : Numeric.Binary64) : Option (Source α × Nat) × Session α :=
  let (residual, reader) := reader.split fraction
  (session.setReader number reader).addResidual residual

end Session

end BundledReading

import BundledReading.Buffer
import BundledReading.Registry

/-!
# Sources

A source is a view of consecutive elements of a buffer, from `start` up to but without `stop`.
Splitting makes new sources over parts of the range and changes none. A static split cuts the
range into bundles of as many elements as fit the desired size on average.
-/

namespace BundledReading

/-- The elements of a buffer from `start` up to, but without, `stop`. -/
structure Source (α : Type) where
  buffer : Buffer α
  start : Nat
  stop : Nat

namespace Source

variable {α : Type}

/-- The source of all elements of a buffer. -/
def ofBuffer (buffer : Buffer α) : Source α := ⟨buffer, 0, buffer.size⟩

/-- Encodes values and takes all of them. -/
def ofValues (coder : SharedCoder α) (values : List α) : Except Failure (Source α) :=
  ofBuffer <$> Buffer.encode coder values

/-- The source of `values` with the given coder, or else with the registry's default. -/
def create {t : ElementType} (coder? : Option (SharedCoder t.Carrier)) (registry : Registry)
    (values : List t.Carrier) : Except Failure (Source t.Carrier) := do
  let coder ← match coder? with
    | some coder => .ok coder
    | none => registry.resolve t
  ofValues coder values

/-- The same buffer with another range. -/
def withRange (source : Source α) (start stop : Nat) : Source α := ⟨source.buffer, start, stop⟩

/-- What `withRange` expects of a new range: it starts no earlier and stays within the buffer. -/
def MayNarrow (source : Source α) (start stop : Nat) : Prop :=
  source.start ≤ start ∧ start ≤ stop ∧ stop ≤ source.buffer.size

/-- The number of elements. -/
def size (source : Source α) : Nat := source.stop - source.start

/-- Whether the source has no elements. -/
def isEmpty (source : Source α) : Bool := source.start = source.stop

/-- The estimated number of bytes of the source's elements. -/
def estimatedBytes (source : Source α) : Nat := source.buffer.estimatedBytes source.size

/-- Whether reading yields sorted keys. It never promises to. -/
def isSorted (_ : Source α) : Bool := false

/-- The number of elements in each bundle of the desired size: as many as fit it on average, at
least one, and at most all. Elements without bytes fit all at once. -/
def elementsPerBundle (source : Source α) (desiredBytes : Nat) : Nat :=
  let average := source.buffer.averageSize
  if average.le (Numeric.Binary64.zero false) then max source.size 1
  else
    let perBundle := (Numeric.Binary64.ofNat desiredBytes / average).floor
    if (Numeric.Binary64.ofNat source.size).le perBundle then max source.size 1
    else max (perBundle.toNatSaturating (Nat.pow 2 64 - 1)) 1

theorem elementsPerBundle_pos (source : Source α) (desiredBytes : Nat) :
    0 < source.elementsPerBundle desiredBytes := by
  unfold elementsPerBundle
  dsimp only
  split
  · omega
  · split <;> omega

/-- The ends of consecutive pieces of `step` indices each, starting at `start`; the last piece
ends at `stop`. At most `fuel` pieces are cut. -/
def cut (step : Nat) : Nat → Nat → Nat → List (Nat × Nat)
  | 0, _, _ => []
  | fuel + 1, start, stop =>
    if start < stop then (start, min (start + step) stop) :: cut step fuel (start + step) stop
    else []

/-- Every piece is within the range and has at least one index. -/
theorem bounds_of_mem_cut {step fuel start stop : Nat} (hstep : 0 < step) {piece : Nat × Nat}
    (h : piece ∈ cut step fuel start stop) :
    start ≤ piece.1 ∧ piece.1 < piece.2 ∧ piece.2 ≤ stop := by
  induction fuel generalizing start with
  | zero => simp [cut] at h
  | succ fuel ih =>
      rw [cut] at h
      split at h
      · rcases List.mem_cons.mp h with rfl | h
        · dsimp only
          omega
        · have := ih h
          omega
      · simp at h

/-- The bundles of a source for a desired size. Without a desired size, and without elements,
the source is its only bundle. -/
def bundles (source : Source α) (desiredBytes : Nat) : List (Source α) :=
  if desiredBytes = 0 || source.isEmpty then [source]
  else
    (cut (source.elementsPerBundle desiredBytes) source.size source.start source.stop).map
      fun piece => source.withRange piece.1 piece.2

/-- How messages show a source. -/
def write (source : Source α) : String :=
  s!"InMemorySource \x7b start: {source.start}, end: {source.stop}, " ++
    s!"buffer: {source.buffer.write} \x7d"

end Source

end BundledReading

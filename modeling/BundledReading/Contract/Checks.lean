import BundledReading.Contract.Reading
import BundledReading.Element

/-!
# Checks of the source contract

A source keeps the contract if its bundles, read in order, yield what it yields itself, and if a
split at any point either leaves a reader as it was or divides what it reads exactly, also while
the reader is being consumed. Each check tries one such case and says what went wrong.
-/

namespace BundledReading.Contract

/-- How elements are compared and shown, and how many bytes of memory a list takes for each. -/
structure ElementView (α : Type) where
  agrees : α → α → Bool
  write : α → String
  itemBytes : Nat

/-- The view of the elements of a type. -/
def ElementView.ofType (t : ElementType) : ElementView t.Carrier := ⟨t.agrees, t.write, t.itemBytes⟩

namespace ElementView

variable {α : Type}

/-- Whether a list of `count` elements has room in memory, which has less than `2 ^ 63` bytes. -/
def hasRoom (view : ElementView α) (count : Nat) : Bool := view.itemBytes * count < Nat.pow 2 63

/-- Whether two lists agree element by element. -/
def listAgrees (view : ElementView α) : List α → List α → Bool
  | [], [] => true
  | a :: as, b :: bs => view.agrees a b && listAgrees view as bs
  | _, _ => false

/-- What a failed comparison of two lists says. -/
def mismatch (view : ElementView α) (reason : String) (left right : List α) : String :=
  "assertion `left == right` failed: " ++ reason ++
    "\n  left: " ++ showList (left.map view.write) ++
    "\n right: " ++ showList (right.map view.write)

end ElementView

/-- What a check expects of a split. -/
inductive ExpectedSplit where
  | accepted
  | rejected
  | either
  deriving DecidableEq, Inhabited

/-- How many elements an accepted split left to either side. -/
structure SplitSizes where
  primary : Nat
  residual : Nat
  deriving DecidableEq, Inhabited

/-- What an exhaustive check did. -/
structure ExhaustiveReport where
  attempts : Nat
  accepted : Nat
  concurrentRuns : Nat
  deriving DecidableEq, Inhabited

/-- How often each accepted split is tried again while the reader is being consumed. -/
def concurrentRepetitions : Nat := 3

/-- Fractions on a grid four times finer than the elements, both ends included. -/
def fractionGrid (total : Nat) : List Numeric.Binary64 :=
  let steps := max total 1 * 4
  (List.range (steps + 1)).map fun k => Numeric.Binary64.ofNat k / Numeric.Binary64.ofNat steps

variable {σ S R α : Type}

/-- A fraction as messages show it. -/
def writeFraction (fraction : Numeric.Binary64) : String := Numeric.NumberForm.plain.write fraction

/-- Where and when a split is tried, as messages show it. -/
def writeAttempt (fraction : Numeric.Binary64) (count : Nat) : String :=
  s!"{writeFraction fraction} after {count} items"

/-- Demands that two lists agree. -/
def demandAgreement (view : ElementView α) (left right : List α) (reason : String) :
    Check σ Unit :=
  if view.listAgrees left right then pure () else violated (view.mismatch reason left right)

section

variable (model : SourceModel σ S R α) (view : ElementView α) (budget : Nat)

/-- Reads parts in order, demanding of each the coder of the reference. The first part has
number `index`. -/
def readParts (coder : Nat) : Nat → List S → Check σ (List α)
  | _, [] => pure []
  | index, part :: parts => do
    let partCoder ← perform (model.coderIdentity part)
    if partCoder ≠ coder then
      violated s!"bundle {index} ({model.write part}) has a different coder"
    let values ← model.readAll budget part
    let more ← readParts coder (index + 1) parts
    return values ++ more

/-- Checks that `parts`, read in order, yield what `reference` yields, and share its coder. -/
def checkParts (reference : S) (parts : List S) : Check σ Unit := do
  if parts.isEmpty then violated s!"splitting {model.write reference} produced no sources"
  let coder ← perform (model.coderIdentity reference)
  let expected ← model.readAll budget reference
  let actual ← readParts model budget coder 0 parts
  demandAgreement view actual expected s!"bundles do not reproduce {model.write reference}"

/-- Reads `count` elements, splits at `fraction` and checks the outcome. Gives the sizes of an
accepted split. -/
def checkSplit (source : S) (count : Nat) (fraction : Numeric.Binary64)
    (expectation : ExpectedSplit) : Check σ (Option SplitSizes) := do
  let expected ← model.readAll budget source
  let reader ← perform (model.openSource source)
  let ((items, parts), _) ← withReader reader do
    let before ← model.readFirst count false
    let residual ← always (model.split fraction)
    let attempt := s!"split of {model.write source} at {writeAttempt fraction count}"
    match expectation, residual with
    | .accepted, none => violated s!"{attempt} was rejected"
    | .rejected, some rest => violated s!"{attempt} produced {model.write rest}"
    | _, _ => pure ()
    let after ← model.readRest budget (0 < count)
    let parts ← match residual with
      | none => pure none
      | some rest => (fun current => some (current, rest)) <$> always model.currentSource
    return (before ++ after, parts)
  match parts with
  | none =>
    demandAgreement view items expected
      s!"rejected split at {writeAttempt fraction count} changed the reader"
    return none
  | some (current, rest) =>
    let primaryItems ← model.readAll budget current
    let residualItems ← model.readAll budget rest
    demandAgreement view items primaryItems
      s!"reader split at {writeAttempt fraction count} disagrees with its primary source"
    demandAgreement view (primaryItems ++ residualItems) expected
      (s!"primary and residual of split at {writeAttempt fraction count} " ++
        s!"do not partition {model.write source}")
    return some ⟨primaryItems.length, residualItems.length⟩

/-- Reads `count` elements, then the rest while a split through a handle lands after `calls`
further calls, and checks that nothing is lost or read twice. Says whether the split was
accepted. -/
def checkConcurrentSplit (source : S) (count : Nat) (fraction : Numeric.Binary64)
    (calls : Nat) : Check σ Bool := do
  let expected ← model.readAll budget source
  let reader ← perform (model.openSource source)
  let ((items, residual), _) ← withReader reader do
    let before ← model.readFirst count false
    let (after, residual) ← model.readRacing budget fraction calls (0 < count)
    return (before ++ after, residual)
  let rest ← match residual with
    | none => pure []
    | some rest => model.readAll budget rest
  let accepted := residual.isSome
  demandAgreement view (items ++ rest) expected
    (s!"concurrent split at {writeAttempt fraction count} (accepted: {toString accepted}) " ++
      "lost or duplicated items")
  return accepted

/-- What a reading that has no room in memory says. -/
def noRoom : String := "capacity overflow"

/-- Reads up to `count` elements with a reader that has not started, if they have room in memory. -/
def readFirstWithRoom (count : Nat) : Check (R × σ) (List α) :=
  if view.hasRoom count then model.readFirst count false else violated noRoom

/-- Performs a check that reads `count` elements at first, if they have room in memory. If not, it
ends once the source has been read and opened again. -/
def withRoom {β : Type} (source : S) (count : Nat) (check : Check σ β) : Check σ β :=
  if view.hasRoom count then check
  else do
    let _ ← model.readAll budget source
    let _ ← perform (model.openSource source)
    violated noRoom

/-- `checkSplit` within the room of memory. -/
def checkSplitWithRoom (source : S) (count : Nat) (fraction : Numeric.Binary64)
    (expectation : ExpectedSplit) : Check σ (Option SplitSizes) :=
  withRoom model view budget source count <|
    checkSplit model view budget source count fraction expectation

/-- `checkConcurrentSplit` within the room of memory. -/
def checkConcurrentSplitWithRoom (source : S) (count : Nat) (fraction : Numeric.Binary64)
    (calls : Nat) : Check σ Bool :=
  withRoom model view budget source count <|
    checkConcurrentSplit model view budget source count fraction calls

/-- Repeats the concurrent check, the run of number `run` with a split that lands after
`schedule run` calls. -/
def repeatConcurrent (source : S) (count : Nat) (fraction : Numeric.Binary64)
    (schedule : Nat → Nat) : Nat → ExhaustiveReport → Check σ ExhaustiveReport
  | 0, report => pure report
  | times + 1, report => do
    let _ ← checkConcurrentSplit model view budget source count fraction
      (schedule report.concurrentRuns)
    repeatConcurrent source count fraction schedule times
      { report with concurrentRuns := report.concurrentRuns + 1 }

/-- Tries one split and, if it is accepted, the same split concurrently. -/
def checkAttempt (source : S) (schedule : Nat → Nat) (report : ExhaustiveReport)
    (attempt : Nat × Numeric.Binary64) : Check σ ExhaustiveReport := do
  let report := { report with attempts := report.attempts + 1 }
  let outcome ← checkSplit model view budget source attempt.1 attempt.2 .either
  match outcome with
  | none => return report
  | some _ =>
    repeatConcurrent model view budget source attempt.1 attempt.2 schedule concurrentRepetitions
      { report with accepted := report.accepted + 1 }

/-- Every number of elements read before a split, with every fraction of the grid. -/
def attempts (total : Nat) : List (Nat × Numeric.Binary64) :=
  (List.range (total + 1)).flatMap fun count => (fractionGrid total).map (count, ·)

/-- Tries a split after every number of elements and at every fraction of the grid. -/
def checkAllSplits (source : S) (schedule : Nat → Nat) : Check σ ExhaustiveReport := do
  let items ← model.readAll budget source
  (attempts items.length).foldlM (checkAttempt model view budget source schedule) ⟨0, 0, 0⟩

end

end BundledReading.Contract

import BundledReading.Coder.Basic
import BundledReading.Config.Error

/-!
# Failures of building and reading sources
-/

namespace BundledReading

/-- Why a source cannot be built or read. -/
inductive Failure where
  /-- No coder is known for an element type. -/
  | noCoder (typeName : String)
  | encode (index : Nat) (cause : CoderError)
  | decode (index : Nat) (cause : CoderError)
  /-- The reader does not stand on an element. -/
  | noCurrent
  | config (cause : Config.Error)
  | alreadyStarted
  | outsideBuffer (index size : Nat)
  /-- The run that the reader belongs to has ended. -/
  | aborted
  /-- What else a source may fail with, and its wording. -/
  | execution (reason : String)
  deriving DecidableEq, Inhabited

/-- The wording of a failure, where its cause has one. -/
def Failure.message? : Failure → Option String
  | noCoder typeName => some s!"Unable to infer a coder for {typeName}; supply one explicitly"
  | encode index cause => some s!"Failed to encode element {index}: {cause.message}"
  | decode index cause => some s!"Failed to decode element {index}: {cause.message}"
  | noCurrent => some "Reader is not positioned on an element"
  | config cause => cause.message?.map ("Failed to load configuration: " ++ ·)
  | alreadyStarted => some "Execution error: reader already started"
  | outsideBuffer index size => some s!"Execution error: element {index} outside buffer of {size}"
  | aborted => some "Execution error: bundle aborted"
  | execution reason => some s!"Execution error: {reason}"

/-- Whether the failure happened while elements were read, and not while things were set up. -/
def Failure.isReadFailure : Failure → Bool
  | decode _ _ => true
  | noCurrent => true
  | _ => false

end BundledReading

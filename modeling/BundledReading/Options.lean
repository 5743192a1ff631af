import BundledReading.Numeric.Binary64

/-!
# Options

The tuning of a run. Sources are handed options with every call but never look at them; only
the executor does. Labels are free text and kept in the order of their keys.
-/

namespace BundledReading

/-- The tuning of a run. -/
structure Options where
  desiredBundleBytes : UInt64 := 65536
  maxParallelism : UInt64 := 4
  splitFraction : Numeric.Binary64 := Numeric.Binary64.ofQuotient false 1 2
  rebalanceMillis : UInt64 := 10
  /-- Labels by key, each key once, in increasing order. -/
  labels : List (String × String) := []
  deriving Inhabited

namespace Options

/-- Puts a label into a list in the order of keys, in the place of an older one. -/
def putLabel (key value : String) : List (String × String) → List (String × String)
  | [] => [(key, value)]
  | label :: rest =>
    if key = label.1 then (key, value) :: rest
    else if key < label.1 then (key, value) :: label :: rest
    else label :: putLabel key value rest

/-- Sets one label. -/
def withLabel (options : Options) (key value : String) : Options :=
  { options with labels := putLabel key value options.labels }

/-- Whether two tunings are equal. A fraction that is not a number equals none. -/
def agrees (a b : Options) : Bool :=
  a.desiredBundleBytes == b.desiredBundleBytes && a.maxParallelism == b.maxParallelism &&
    a.splitFraction.agrees b.splitFraction && a.rebalanceMillis == b.rebalanceMillis &&
    a.labels == b.labels

/-- Whether nothing differs from the default. -/
def isDefault (options : Options) : Bool := options.agrees {}

/-- The number of bundles that may be read at once: at least one. -/
def parallelism (options : Options) : Nat := max options.maxParallelism.toNat 1

/-- The time between two rebalances, in milliseconds: at least one. -/
def rebalancePeriod (options : Options) : Nat := max options.rebalanceMillis.toNat 1

end Options

end BundledReading

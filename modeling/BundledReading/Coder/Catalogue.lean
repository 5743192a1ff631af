import BundledReading.Coder.Plain
import BundledReading.Coder.Varint
import BundledReading.Element

/-!
# The coders by kind

A `CoderKind` names a coder without its element type. `CoderKind.coder?` gives the coder of that
kind for one type, if the kind has one.
-/

namespace BundledReading

/-- The kinds of coders. -/
inductive CoderKind where
  | bigEndian
  | varint
  | evenOnly
  | varlong
  | utf8
  | bytes
  | nullable (inner : CoderKind)
  | compact
  deriving DecidableEq, Inhabited

/-- The coder of a kind for an element type. -/
def CoderKind.coder? : CoderKind → (t : ElementType) → Option (Coder t.Carrier)
  | bigEndian, .int32 => some Coder.bigEndian32
  | varint, .int32 => some Coder.varint32
  | evenOnly, .int32 => some Coder.evenOnly
  | varlong, .int64 => some Coder.varint64
  | utf8, .text => some Coder.utf8
  | bytes, .bytes => some Coder.bytes
  | nullable inner, .optional t => Coder.nullable <$> inner.coder? t
  | compact, t => some (Coder.compact t.name t.compact)
  | _, _ => none

end BundledReading

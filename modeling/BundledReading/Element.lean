import BundledReading.Coder.Compact
import BundledReading.Numeric.Notation
import BundledReading.Text.Quoted

/-!
# Element types

The types of elements that sources are read with: numbers, texts, byte strings, options of any
depth, and declared types of three shapes: a record, a record with a list, and a choice of variants.
Each has a name for messages, a compact format, an equality that failed checks go by, and a written
form.

## Implementation notes

An `ElementType` is a code; `Carrier` gives the type it stands for. Everything else is defined by
recursion on the code, so a table keyed by codes can hold entries of different types.
-/

namespace BundledReading

/-- A labelled number. -/
structure Point where
  x : Int64
  label : String
  deriving DecidableEq, Inhabited

/-- A numbered event with tags. -/
structure Event where
  id : UInt64
  tags : List String
  deriving DecidableEq, Inhabited

/-- A shape: nothing, a name, or a width with perhaps a height. -/
inductive Shape where
  | empty
  | named (name : String)
  | rect (width : Int32) (height : Option UInt8)
  deriving DecidableEq, Inhabited

/-- The codes of element types. A type that is declared somewhere has a path as its name. -/
inductive ElementType where
  | int32
  | int64
  | text
  | bytes
  | bool
  | char
  | float
  | optional (inner : ElementType)
  | point (path : String)
  | event (path : String)
  | shape (path : String)
  deriving DecidableEq, Inhabited

namespace ElementType

/-- The type that a code stands for. -/
def Carrier : ElementType → Type
  | int32 => Int32
  | int64 => Int64
  | text => String
  | bytes => Bytes
  | bool => Bool
  | char => Char
  | float => Numeric.Binary64
  | optional inner => Option inner.Carrier
  | point _ => Point
  | event _ => Event
  | shape _ => Shape

/-- The bytes of memory that a list takes for each element. An option takes none of its own where
its inner type leaves a bit pattern free. -/
def itemBytes : ElementType → Nat
  | int32 => 4
  | int64 => 8
  | text => 24
  | bytes => 24
  | bool => 1
  | char => 4
  | float => 8
  | optional int32 => 8
  | optional int64 => 16
  | optional float => 16
  | optional inner => inner.itemBytes
  | point _ => 32
  | event _ => 32
  | shape _ => 24

/-- How messages name the type. -/
def name : ElementType → String
  | int32 => "i32"
  | int64 => "i64"
  | text => "alloc::string::String"
  | bytes => "alloc::vec::Vec<u8>"
  | bool => "bool"
  | char => "char"
  | float => "f64"
  | optional inner => s!"core::option::Option<{inner.name}>"
  | point path => path
  | event path => path
  | shape path => path

end ElementType

namespace Compact

/-- A point is its number and its label. -/
def point : Compact Point :=
  (int64.pair text).via (fun p => ⟨p.1, p.2⟩) fun p => (p.x, p.label)

/-- An event is its number and its tags. -/
def event : Compact Event :=
  (uint64.pair text.list).via (fun p => ⟨p.1, p.2⟩) fun e => (e.id, e.tags)

/-- A shape is its variant and the parts of that. -/
def shape : Compact Shape :=
  (unit.choice text (int32.pair uint8.option)).via
    (fun
      | .inl () => .empty
      | .inr (.inl name) => .named name
      | .inr (.inr (width, height)) => .rect width height)
    (fun
      | .empty => .inl ()
      | .named name => .inr (.inl name)
      | .rect width height => .inr (.inr (width, height)))

end Compact

namespace ElementType

/-- The compact format of a type's values. -/
def compact : (t : ElementType) → Compact t.Carrier
  | int32 => Compact.int32
  | int64 => Compact.int64
  | text => Compact.text
  | bytes => Compact.uint8.list
  | bool => Compact.bool
  | char => Compact.char
  | float => Compact.binary64
  | optional inner => (compact inner).option
  | point _ => Compact.point
  | event _ => Compact.event
  | shape _ => Compact.shape

/-- Equality of elements. Floating-point numbers are compared as values, so one that is not a
number differs from itself. -/
def agrees : (t : ElementType) → t.Carrier → t.Carrier → Bool
  | int32 => fun (a b : Int32) => a == b
  | int64 => fun (a b : Int64) => a == b
  | text => fun (a b : String) => a == b
  | bytes => fun (a b : Bytes) => a == b
  | bool => fun (a b : Bool) => a == b
  | char => fun (a b : Char) => a == b
  | float => Numeric.Binary64.agrees
  | optional inner => fun
    | none, none => true
    | some a, some b => agrees inner a b
    | _, _ => false
  | point _ => fun (a b : Point) => a == b
  | event _ => fun (a b : Event) => a == b
  | shape _ => fun (a b : Shape) => a == b

end ElementType

/-- A list as messages show it. -/
def showList (items : List String) : String := "[" ++ String.intercalate ", " items ++ "]"

/-- An option as messages show it. -/
def showOption : Option String → String
  | none => "None"
  | some item => s!"Some({item})"

/-- A point as messages show it. -/
def Point.write (p : Point) : String :=
  s!"Point \x7b x: {toString p.x}, label: {Text.quoteText p.label} \x7d"

/-- An event as messages show it. -/
def Event.write (e : Event) : String :=
  s!"Event \x7b id: {toString e.id}, tags: {showList (e.tags.map Text.quoteText)} \x7d"

/-- A shape as messages show it. -/
def Shape.write : Shape → String
  | .empty => "Empty"
  | .named name => s!"Named({Text.quoteText name})"
  | .rect width height =>
    s!"Rect \x7b w: {toString width}, h: {showOption (height.map toString)} \x7d"

/-- The written form of an element in messages. -/
def ElementType.write : (t : ElementType) → t.Carrier → String
  | int32 => fun (v : Int32) => toString v
  | int64 => fun (v : Int64) => toString v
  | text => Text.quoteText
  | bytes => fun (v : Bytes) => showList (v.map toString)
  | bool => fun (v : Bool) => toString v
  | char => Text.quoteChar
  | float => Numeric.NumberForm.debug.write
  | optional inner => fun v => showOption (v.map inner.write)
  | point _ => Point.write
  | event _ => Event.write
  | shape _ => Shape.write

end BundledReading

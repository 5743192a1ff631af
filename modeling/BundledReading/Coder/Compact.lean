import BundledReading.Coder.Basic
import BundledReading.Numeric.Binary64

/-!
# The compact format

Integers have a fixed width with the lowest byte first, texts and lists start with their length
in eight bytes, options with one tag byte, variants with their number in four bytes, and the
parts of a record follow each other without framing. Every value therefore ends where its own
bytes say, and what follows it does not matter.

## Implementation notes

A `Compact` describes one type by a writer and a reader that hands back the unread rest. The
formats of composite types are built from those of their parts.
-/

namespace BundledReading

/-- The compact format of one type. -/
structure Compact (α : Type) where
  write : α → Bytes
  read : Bytes → Except CompactError (α × Bytes)

namespace Compact

variable {α β γ δ : Type}

/-- The first `width` bytes and the rest. -/
def take (width : Nat) (bytes : Bytes) : Except CompactError (Bytes × Bytes) :=
  let word := bytes.take width
  if word.length = width then .ok (word, bytes.drop width) else .error .endOfInput

/-- A natural number in `width` bytes. -/
def nat (width : Nat) : Compact Nat where
  write n := Bytes.littleEndian width n
  read bytes := do
    let (word, rest) ← take width bytes
    return (Bytes.ofLittleEndian word, rest)

/-- The format of a type that is another type under a different name. -/
def via (format : Compact α) (forth : α → β) (back : β → α) : Compact β where
  write value := format.write (back value)
  read bytes := do
    let (value, rest) ← format.read bytes
    return (forth value, rest)

def uint8 : Compact UInt8 := (nat 1).via UInt8.ofNat UInt8.toNat

def uint64 : Compact UInt64 := (nat 8).via UInt64.ofNat UInt64.toNat

def int32 : Compact Int32 :=
  (nat 4).via (fun n => (UInt32.ofNat n).toInt32) (fun v => v.toUInt32.toNat)

def int64 : Compact Int64 :=
  (nat 8).via (fun n => (UInt64.ofNat n).toInt64) (fun v => v.toUInt64.toNat)

/-- A floating-point number as its bit pattern. -/
def binary64 : Compact Numeric.Binary64 := uint64.via Numeric.Binary64.mk Numeric.Binary64.bits

def bool : Compact Bool where
  write value := [if value then 1 else 0]
  read bytes := do
    let (n, rest) ← (nat 1).read bytes
    if n = 0 then return (false, rest)
    else if n = 1 then return (true, rest)
    else throw (.badBool n)

/-- A character as its UTF-8 bytes. -/
def char : Compact Char where
  write := Text.Utf8.encodeChar
  read
    | [] => .error .endOfInput
    | b :: rest => (Text.Utf8.decodeChar b rest).mapError fun _ => .badChar

/-- A text as the number of its bytes and these. -/
def text : Compact String where
  write value := (nat 8).write (Text.Utf8.encode value).length ++ Text.Utf8.encode value
  read bytes := do
    let (length, rest) ← (nat 8).read bytes
    if rest.length < length then throw .bodyCutShort
    let value ← (Text.Utf8.decode (rest.take length)).mapError .badText
    return (value, rest.drop length)

/-- An option: a tag byte, and the value if there is one. -/
def option (format : Compact α) : Compact (Option α) where
  write
    | none => [0]
    | some value => 1 :: format.write value
  read bytes := do
    let (tag, rest) ← (nat 1).read bytes
    if tag = 0 then return (none, rest)
    else if tag = 1 then
      let (value, rest) ← format.read rest
      return (some value, rest)
    else throw (.badTag tag)

/-- Exactly `count` values, one after the other. -/
def readMany (format : Compact α) : Nat → Bytes → Except CompactError (List α × Bytes)
  | 0, bytes => .ok ([], bytes)
  | count + 1, bytes => do
    let (value, rest) ← format.read bytes
    let (values, rest) ← readMany format count rest
    return (value :: values, rest)

/-- A list: the number of its values, and these. -/
def list (format : Compact α) : Compact (List α) where
  write values := (nat 8).write values.length ++ values.flatMap format.write
  read bytes := do
    let (count, rest) ← (nat 8).read bytes
    readMany format count rest

/-- Two parts, one after the other. -/
def pair (first : Compact α) (second : Compact β) : Compact (α × β) where
  write value := first.write value.1 ++ second.write value.2
  read bytes := do
    let (a, rest) ← first.read bytes
    let (b, rest) ← second.read rest
    return ((a, b), rest)

/-- A record without parts. -/
def unit : Compact Unit where
  write _ := []
  read bytes := .ok ((), bytes)

/-- One of three variants: its number, and its content. -/
def choice (first : Compact α) (second : Compact β) (third : Compact γ) :
    Compact (α ⊕ β ⊕ γ) where
  write
    | .inl a => (nat 4).write 0 ++ first.write a
    | .inr (.inl b) => (nat 4).write 1 ++ second.write b
    | .inr (.inr c) => (nat 4).write 2 ++ third.write c
  read bytes := do
    let (variant, rest) ← (nat 4).read bytes
    if variant = 0 then
      let (a, rest) ← first.read rest
      return (.inl a, rest)
    else if variant = 1 then
      let (b, rest) ← second.read rest
      return (.inr (.inl b), rest)
    else if variant = 2 then
      let (c, rest) ← third.read rest
      return (.inr (.inr c), rest)
    else throw (.badVariant variant 3)

end Compact

/-- The coder of a compact format. What follows the value is ignored. -/
def Coder.compact {α : Type} (typeName : String) (format : Compact α) : Coder α where
  description := s!"BincodeCoder<{typeName}>"
  encode value := .ok (format.write value)
  decode bytes := ((format.read bytes).map Prod.fst).mapError .compact

end BundledReading

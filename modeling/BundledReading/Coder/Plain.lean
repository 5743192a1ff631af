import BundledReading.Coder.Basic

/-!
# Plain coders and absent values

The forms here have exactly one spelling of each value: four bytes with the highest first, the
bytes of a text, and bytes as they are. `nullable` puts one marker byte in front of another
coder's form, so that an absent value can be written as well.
-/

namespace BundledReading.Coder

/-- Signed numbers of 32 bits in exactly four bytes, the highest first. -/
def bigEndian32 : Coder Int32 where
  description := "BigEndianI32Coder"
  encode value := .ok (Bytes.bigEndian 4 value.toUInt32.toNat)
  decode bytes :=
    if bytes.length = 4 then .ok (UInt32.ofNat (Bytes.ofBigEndian bytes)).toInt32
    else .error (.truncated 4 bytes.length)

/-- Texts as their UTF-8 bytes. -/
def utf8 : Coder String where
  description := "StringUtf8Coder"
  encode text := .ok (Text.Utf8.encode text)
  decode bytes := (Text.Utf8.decode bytes).mapError .badText

/-- Byte strings as they are. -/
def bytes : Coder Bytes where
  description := "BytesCoder"
  encode := .ok
  decode := .ok

/-- The marker of an absent value. -/
def absentMarker : UInt8 := 0

/-- The marker before a value that is present. -/
def presentMarker : UInt8 := 1

/-- The form of `inner` behind a marker byte; an absent value is its marker alone. -/
def nullable {α : Type} (inner : Coder α) : Coder (Option α) where
  description := s!"NullableCoder \x7b inner: {inner.description} \x7d"
  encode
    | none => .ok [absentMarker]
    | some value => (presentMarker :: ·) <$> inner.encode value
  decode
    | [] => .error (.truncated 1 0)
    | marker :: rest =>
      if marker = absentMarker then
        if rest.length = 0 then .ok none else .error (.trailing rest.length)
      else if marker = presentMarker then some <$> inner.decode rest
      else .error (.badMarker marker)

end BundledReading.Coder

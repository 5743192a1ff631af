import BundledReading.Text.Utf8

/-!
# Coders

A coder turns one value into bytes and back. Every element of a source is coded on its own, so a
coder always sees the bytes of exactly one value. Coders are shared: two sources that use equal
coders may still use different ones, and a `SharedCoder` carries the identity that tells them
apart.
-/

namespace BundledReading

/-- Why bytes are not a value of the compact format. -/
inductive CompactError where
  /-- The input ends inside a part of fixed width. -/
  | endOfInput
  /-- The input ends inside the body of a text. -/
  | bodyCutShort
  | badBool (found : Nat)
  | badTag (found : Nat)
  | badVariant (found count : Nat)
  | badText (fault : Text.Utf8.Fault)
  | badChar
  deriving DecidableEq, Inhabited

/-- The wording of a compact format error. -/
def CompactError.message : CompactError → String
  | endOfInput => "io error: unexpected end of file"
  | bodyCutShort => "io error: "
  | badBool found => s!"invalid u8 while decoding bool, expected 0 or 1, found {found}"
  | badTag found => s!"tag for enum is not valid, found {found}"
  | badVariant found count =>
    "invalid value: integer `" ++ toString found ++ "`, expected variant index 0 <= i < " ++
      toString count
  | badText fault => s!"string is not valid utf8: {fault.message}"
  | badChar => "char is not valid"

/-- Why a value cannot be encoded or bytes cannot be decoded. -/
inductive CoderError where
  | truncated (expected actual : Nat)
  | trailing (count : Nat)
  | overflow (bits : Nat)
  | badMarker (marker : UInt8)
  | badText (fault : Text.Utf8.Fault)
  | compact (cause : CompactError)
  | refused (reason : String)
  deriving DecidableEq, Inhabited

/-- A byte in hexadecimal, with two digits. -/
def hexByte (b : UInt8) : String :=
  String.ofList [Nat.digitChar (b.toNat / 16), Nat.digitChar (b.toNat % 16)]

/-- The wording of a coder error. -/
def CoderError.message : CoderError → String
  | truncated expected actual => s!"expected {expected} bytes, found {actual}"
  | trailing count => s!"{count} trailing bytes after value"
  | overflow bits => s!"varint does not fit in {bits} bits"
  | badMarker marker => "invalid null marker byte 0x" ++ hexByte marker
  | badText fault => s!"invalid utf-8: {fault.message}"
  | compact cause => s!"bincode: {cause.message}"
  | refused reason => reason

/-- A way to write values of a type as bytes and to read them back. -/
structure Coder (α : Type) where
  /-- How messages name the coder. -/
  description : String
  encode : α → Except CoderError Bytes
  decode : Bytes → Except CoderError α

/-- A coder together with the identity that all its users share. -/
structure SharedCoder (α : Type) extends Coder α where
  identity : Nat

/-- Gives a coder an identity. -/
def Coder.share {α : Type} (coder : Coder α) (identity : Nat) : SharedCoder α :=
  ⟨coder, identity⟩

end BundledReading

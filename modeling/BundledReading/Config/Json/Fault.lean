import BundledReading.Text.Utf8

/-!
# Faults of JSON

What is wrong with a text that should be JSON, and where. A fault found when the text ends, or in
what has just been read, is placed right there; a fault that the next byte causes is placed after
that byte.

## Implementation notes

The reader knows only what is left of a text, so a fault keeps the number of bytes after its
place. Lines and columns are counted when the fault is shown.
-/

namespace BundledReading.Config.Json

/-- What is wrong at one place. -/
inductive Flaw where
  | endInValue
  | endInText
  | endInArray
  | endInObject
  | noValue
  | noWord
  | noColon
  | noArrayEnd
  | noObjectEnd
  | keyIsNoText
  | trailingComma
  | trailingCharacters
  | badNumber
  | numberTooLarge
  | badEscape
  | loneSurrogate
  | halfSurrogatePair
  | controlCharacter
  | tooDeep
  deriving DecidableEq, Inhabited

/-- The wording of a flaw. -/
def Flaw.message : Flaw → String
  | endInValue => "EOF while parsing a value"
  | endInText => "EOF while parsing a string"
  | endInArray => "EOF while parsing a list"
  | endInObject => "EOF while parsing an object"
  | noValue => "expected value"
  | noWord => "expected ident"
  | noColon => "expected `:`"
  | noArrayEnd => "expected `,` or `]`"
  | noObjectEnd => "expected `,` or `\x7d`"
  | keyIsNoText => "key must be a string"
  | trailingComma => "trailing comma"
  | trailingCharacters => "trailing characters"
  | badNumber => "invalid number"
  | numberTooLarge => "number out of range"
  | badEscape => "invalid escape"
  | loneSurrogate => "lone leading surrogate in hex escape"
  | halfSurrogatePair => "unexpected end of hex escape"
  | controlCharacter => "control character (\\u0000-\\u001F) found while parsing a string"
  | tooDeep => "recursion limit exceeded"

/-- A flaw and the number of bytes after its place. -/
structure Fault where
  flaw : Flaw
  bytesLeft : Nat
  deriving DecidableEq, Inhabited

namespace Fault

/-- The number of bytes of a text. -/
def byteCount (cs : List Char) : Nat := (Text.Utf8.encodeChars cs).length

/-- A flaw right before what is left of a text. -/
def before (flaw : Flaw) (rest : List Char) : Fault := ⟨flaw, byteCount rest⟩

/-- A flaw that the next byte of what is left causes. -/
def inside (flaw : Flaw) (rest : List Char) : Fault := ⟨flaw, byteCount rest - 1⟩

/-- A flaw at the end of a text. -/
def atEnd (flaw : Flaw) : Fault := ⟨flaw, 0⟩

/-- The wording of a fault of a document, with its line and its column. Columns count bytes. -/
def describe (fault : Fault) (document : String) : String :=
  let bytes := Text.Utf8.encode document
  let seen := bytes.take (bytes.length - fault.bytesLeft)
  let line := seen.count 0x0a + 1
  let column := (seen.reverse.takeWhile (· ≠ 0x0a)).length
  s!"{fault.flaw.message} at line {line} column {column}"

end Fault

end BundledReading.Config.Json

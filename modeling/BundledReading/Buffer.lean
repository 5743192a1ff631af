import BundledReading.Failure
import BundledReading.Numeric.Binary64

/-!
# Encoded buffers

A buffer holds the encodings of a source's values, one byte string for each, together with the
coder that made them. It never changes. Sizes of parts are estimated as if all elements were
equally long.
-/

namespace BundledReading

/-- The encoded elements of a source and their coder. -/
structure Buffer (α : Type) where
  elements : Array Bytes
  coder : SharedCoder α

namespace Buffer

variable {α : Type}

/-- Encodes values one after the other, the first at position `index`. -/
def encodeFrom (coder : Coder α) (index : Nat) : List α → Except Failure (List Bytes)
  | [] => .ok []
  | value :: rest => do
    let element ← (coder.encode value).mapError (.encode index)
    let elements ← encodeFrom coder (index + 1) rest
    return element :: elements

/-- The buffer of a list of values. The first value that cannot be encoded fails it. -/
def encode (coder : SharedCoder α) (values : List α) : Except Failure (Buffer α) := do
  let elements ← encodeFrom coder.toCoder 0 values
  return ⟨elements.toArray, coder⟩

/-- The buffer of bytes that `coder` has already produced. -/
def ofEncoded (coder : SharedCoder α) (elements : List Bytes) : Buffer α :=
  ⟨elements.toArray, coder⟩

/-- The number of elements. -/
def size (buffer : Buffer α) : Nat := buffer.elements.size

/-- The number of bytes of all elements together. -/
def totalBytes (buffer : Buffer α) : Nat := (buffer.elements.toList.map List.length).foldr (· + ·) 0

/-- The mean length of an element; zero if there is none. -/
def averageSize (buffer : Buffer α) : Numeric.Binary64 :=
  if buffer.size = 0 then Numeric.Binary64.zero false
  else Numeric.Binary64.ofNat buffer.totalBytes / Numeric.Binary64.ofNat buffer.size

/-- The estimated number of bytes of `count` elements, cut to 64 bits. -/
def estimatedBytes (buffer : Buffer α) (count : Nat) : Nat :=
  if buffer.size = 0 then 0 else buffer.totalBytes * count / buffer.size % Nat.pow 2 64

/-- The bytes of one element. -/
def get? (buffer : Buffer α) (index : Nat) : Option Bytes := buffer.elements[index]?

/-- The value of one element. -/
def decode (buffer : Buffer α) (index : Nat) : Except Failure α :=
  match buffer.get? index with
  | none => .error (.outsideBuffer index buffer.size)
  | some element => (buffer.coder.decode element).mapError (.decode index)

/-- Whether two buffers hold the same bytes and share one coder. -/
def same (a b : Buffer α) : Bool :=
  a.elements == b.elements && a.coder.identity == b.coder.identity

/-- How messages show a buffer. -/
def write (buffer : Buffer α) : String :=
  s!"EncodedBuffer \x7b len: {buffer.size}, total_bytes: {buffer.totalBytes}, " ++
    s!"coder: {buffer.coder.description} \x7d"

end Buffer

end BundledReading

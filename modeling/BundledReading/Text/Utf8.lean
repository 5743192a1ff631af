import BundledReading.Bytes

/-!
# UTF-8

`encode` writes a text as bytes and `decode` reads it back, refusing everything that is not the
shortest form of a scalar value. A refusal tells how many bytes were valid so far and what is
wrong with the next ones: either they cannot begin any character, and then how many of them
belong to the broken sequence, or the input ends inside a sequence that could still be completed.
-/

namespace BundledReading.Text.Utf8

/-! ## Writing -/

/-- The bytes of one scalar value. -/
def encodeScalar (n : Nat) : Bytes :=
  if n < 0x80 then [UInt8.ofNat n]
  else if n < 0x800 then [UInt8.ofNat (0xc0 + n / 64), UInt8.ofNat (0x80 + n % 64)]
  else if n < 0x10000 then
    [UInt8.ofNat (0xe0 + n / 4096), UInt8.ofNat (0x80 + n / 64 % 64), UInt8.ofNat (0x80 + n % 64)]
  else
    [UInt8.ofNat (0xf0 + n / 262144), UInt8.ofNat (0x80 + n / 4096 % 64),
      UInt8.ofNat (0x80 + n / 64 % 64), UInt8.ofNat (0x80 + n % 64)]

def encodeChar (c : Char) : Bytes := encodeScalar c.toNat

/-- The bytes of a list of characters. -/
def encodeChars (cs : List Char) : Bytes := cs.flatMap encodeChar

/-- The bytes of a text. -/
def encode (text : String) : Bytes := encodeChars text.toList

/-! ## Reading -/

/-- What is wrong with the bytes at one place. -/
inductive Flaw where
  /-- The first `length` bytes start a sequence that the byte after them breaks. -/
  | broken (length : Nat)
  /-- The input ends inside a sequence that is valid so far. -/
  | incomplete
  deriving DecidableEq, Inhabited

/-- The first flaw of a byte string and the number of bytes before it. -/
structure Fault where
  validUpTo : Nat
  flaw : Flaw
  deriving DecidableEq, Inhabited

/-- The wording of a fault. -/
def Fault.message (fault : Fault) : String :=
  match fault.flaw with
  | .broken length => s!"invalid utf-8 sequence of {length} bytes from index {fault.validUpTo}"
  | .incomplete => s!"incomplete utf-8 byte sequence from index {fault.validUpTo}"

/-- The number of bytes that a first byte announces; zero if it announces nothing. -/
def width (first : Nat) : Nat :=
  if first < 0x80 then 1
  else if first < 0xc2 then 0
  else if first < 0xe0 then 2
  else if first < 0xf0 then 3
  else if first < 0xf5 then 4
  else 0

/-- The least second byte after `first`: overlong forms start below it. -/
def leastSecond (first : Nat) : Nat :=
  if first = 0xe0 then 0xa0 else if first = 0xf0 then 0x90 else 0x80

/-- The greatest second byte after `first`: surrogates and values that are too large lie above. -/
def greatestSecond (first : Nat) : Nat :=
  if first = 0xed then 0x9f else if first = 0xf4 then 0x8f else 0xbf

/-- The number that the bytes of one sequence spell. -/
def scalar : List Nat → Nat
  | [a] => a
  | [a, b] => (a - 0xc0) * 64 + (b - 0x80)
  | [a, b, c] => (a - 0xe0) * 4096 + (b - 0x80) * 64 + (c - 0x80)
  | [a, b, c, d] => (a - 0xf0) * 262144 + (b - 0x80) * 4096 + (c - 0x80) * 64 + (d - 0x80)
  | _ => 0

/-- Whether `byte` may stand at place `place` of a sequence that starts with `first`. -/
def fits (first place byte : Nat) : Bool :=
  if place = 1 then leastSecond first ≤ byte && byte ≤ greatestSecond first
  else 0x80 ≤ byte && byte ≤ 0xbf

/-- Collects the `missing` further bytes of a sequence of which `seen` has been read. -/
def continuation (first : Nat) : Nat → List Nat → Bytes → Except Flaw (List Nat × Bytes)
  | 0, seen, rest => .ok (seen, rest)
  | _ + 1, _, [] => .error .incomplete
  | missing + 1, seen, b :: rest =>
    if fits first seen.length b.toNat then continuation first missing (seen ++ [b.toNat]) rest
    else .error (.broken seen.length)

/-- The first character of a byte string that is not empty, and what follows it. -/
def decodeChar (b : UInt8) (rest : Bytes) : Except Flaw (Char × Bytes) :=
  match width b.toNat with
  | 0 => .error (.broken 1)
  | missing + 1 =>
    match continuation b.toNat missing [b.toNat] rest with
    | .error flaw => .error flaw
    | .ok (seen, rest) => .ok (Char.ofNat (scalar seen), rest)

theorem length_le_of_continuation {first missing : Nat} {seen seen' : List Nat}
    {bytes rest : Bytes} (h : continuation first missing seen bytes = .ok (seen', rest)) :
    rest.length ≤ bytes.length := by
  induction missing generalizing seen bytes with
  | zero =>
      simp only [continuation, Except.ok.injEq, Prod.mk.injEq] at h
      exact h.2 ▸ Nat.le_refl _
  | succ missing ih =>
      cases bytes with
      | nil => simp [continuation] at h
      | cons b tail =>
          simp only [continuation] at h
          split at h
          · have := ih h
            simp only [List.length_cons]
            omega
          · simp at h

theorem length_le_of_decodeChar {b : UInt8} {bytes rest : Bytes} {c : Char}
    (h : decodeChar b bytes = .ok (c, rest)) : rest.length ≤ bytes.length := by
  unfold decodeChar at h
  split at h
  · simp at h
  · split at h
    · simp at h
    · rename_i heq
      simp only [Except.ok.injEq, Prod.mk.injEq] at h
      exact h.2 ▸ length_le_of_continuation heq

/-- The characters of a byte string of which `position` bytes have been read before. -/
def decodeChars (position : Nat) (bytes : Bytes) : Except Fault (List Char) :=
  match bytes with
  | [] => .ok []
  | b :: tail =>
    match h : decodeChar b tail with
    | .error flaw => .error ⟨position, flaw⟩
    | .ok (c, rest) => do
      have := length_le_of_decodeChar h
      let cs ← decodeChars (position + width b.toNat) rest
      return c :: cs
termination_by bytes.length
decreasing_by exact Nat.lt_succ_of_le this

/-- The text that a byte string spells. -/
def decode (bytes : Bytes) : Except Fault String := String.ofList <$> decodeChars 0 bytes

end BundledReading.Text.Utf8

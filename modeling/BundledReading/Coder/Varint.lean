import BundledReading.Coder.Basic

/-!
# Variable-length integers

A number is cut into groups of seven bits, the lowest first. Every byte but the last has its high
bit set. A reader for `bits` bits takes at most as many bytes as that many bits need, and refuses
a last group that would carry more bits than are left. Overlong forms are accepted.
-/

namespace BundledReading

namespace Varint

/-- The groups of `n`, each but the last marked as followed by another. -/
def write (n : Nat) : Bytes :=
  if n < 128 then [UInt8.ofNat n] else UInt8.ofNat (128 + n % 128) :: write (n / 128)
termination_by n

/-- Reads on after `index` groups that spell `value`, in an input of `total` bytes. -/
def readFrom (bits total index value : Nat) : Bytes → Except CoderError Nat
  | [] => .error (.truncated (total + 1) total)
  | b :: rest =>
    let value := value + b.toNat % 128 * Nat.pow 128 index
    if bits ≤ 7 * index then .error (.overflow bits)
    else if Nat.pow 2 bits ≤ value then .error (.overflow bits)
    else if 128 ≤ b.toNat then readFrom bits total (index + 1) value rest
    else if rest.length = 0 then .ok value
    else .error (.trailing rest.length)

/-- The number of at most `bits` bits that a whole byte string spells. -/
def read (bits : Nat) (bytes : Bytes) : Except CoderError Nat :=
  readFrom bits bytes.length 0 0 bytes

theorem write_of_lt {n : Nat} (h : n < 128) : write n = [UInt8.ofNat n] := by
  rw [write, if_pos h]

theorem write_of_le {n : Nat} (h : 128 ≤ n) :
    write n = UInt8.ofNat (128 + n % 128) :: write (n / 128) := by
  rw [write, if_neg (Nat.not_lt.mpr h)]

theorem readFrom_write {bits total index value n : Nat} (hindex : 7 * index < bits)
    (h : value + n * Nat.pow 128 index < Nat.pow 2 bits) :
    readFrom bits total index value (write n) = .ok (value + n * Nat.pow 128 index) := by
  simp only [Nat.pow_eq] at h ⊢
  induction n using Nat.strongRecOn generalizing index value with
  | _ n ih =>
      by_cases hs : n < 128
      · have hb : (UInt8.ofNat n).toNat = n := by simp; omega
        simp [write_of_lt hs, readFrom, hb, Nat.mod_eq_of_lt hs, Nat.not_le.mpr hindex,
          Nat.not_le.mpr h, Nat.not_le.mpr hs]
      · have hle : 128 ≤ n := Nat.not_lt.mp hs
        have hb : (UInt8.ofNat (128 + n % 128)).toNat = 128 + n % 128 := by
          have := Nat.mod_lt n (by decide : 0 < 128)
          simp; omega
        have hsplit : value + n % 128 * 128 ^ index + n / 128 * 128 ^ (index + 1) =
            value + n * 128 ^ index := by
          rw [Nat.pow_succ, Nat.mul_comm (128 ^ index) 128, ← Nat.mul_assoc, Nat.mul_comm (n / 128),
            Nat.add_assoc, ← Nat.add_mul, Nat.mod_add_div]
        have hvalue : value + n % 128 * 128 ^ index < 2 ^ bits := by omega
        have hnext : 7 * (index + 1) < bits := by
          have hpow : 2 ^ (7 * (index + 1)) ≤ n / 128 * 128 ^ (index + 1) := by
            rw [Nat.pow_mul]
            exact Nat.le_mul_of_pos_left _ (by omega)
          exact (Nat.pow_lt_pow_iff_right (by decide : 1 < 2)).mp (by omega)
        have hmod : (128 + n % 128) % 128 = n % 128 := by omega
        rw [write_of_le hle]
        simp only [readFrom, Nat.pow_eq, hb, hmod, if_neg (Nat.not_le.mpr hindex),
          if_neg (Nat.not_le.mpr hvalue), if_pos (Nat.le_add_right 128 _)]
        rw [ih (n / 128) (by omega) hnext (by omega), hsplit]

/-- Reading what was written gives the number back, if it has no more than `bits` bits. -/
theorem read_write {bits n : Nat} (hbits : 0 < bits) (h : n < Nat.pow 2 bits) :
    read bits (write n) = .ok n := by
  have : readFrom bits (write n).length 0 0 (write n) = .ok (0 + n * Nat.pow 128 0) :=
    readFrom_write (by omega) (by simpa using h)
  simpa [read] using this

end Varint

namespace Coder

/-- Signed numbers of 32 bits as the variable-length form of their pattern. -/
def varint32 : Coder Int32 where
  description := "VarIntCoder"
  encode value := .ok (Varint.write value.toUInt32.toNat)
  decode bytes := do
    let n ← Varint.read 32 bytes
    return (UInt32.ofNat n).toInt32

/-- Signed numbers of 64 bits as the variable-length form of their pattern. -/
def varint64 : Coder Int64 where
  description := "VarLongCoder"
  encode value := .ok (Varint.write value.toUInt64.toNat)
  decode bytes := do
    let n ← Varint.read 64 bytes
    return (UInt64.ofNat n).toInt64

/-- The form of `varint32`, but refusing to write positive odd numbers. -/
def evenOnly : Coder Int32 where
  description := "RejectOdd"
  encode value :=
    if value % 2 = 1 then .error (.refused s!"odd value {value}") else varint32.encode value
  decode := varint32.decode

end Coder

end BundledReading

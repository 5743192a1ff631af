import BundledReading.Coder.Varint
import Mathlib.Algebra.BigOperators.Fin
import Mathlib.Algebra.Order.Floor.Div
import Mathlib.Tactic.Ring

/-!
# The grammar of variable-length numbers

Which byte strings a reader of variable-length numbers accepts is said here without the reader: by
where the bytes say that another follows, by how many there are, and by the number that their groups
spell. A byte string says of every byte that another follows, or has one prefix that is terminated;
`read` is computed on both kinds (`read_of_continues`, `read_append_of_terminated`), and all its
outcomes are read off from there.

## Implementation notes

The reader sees one byte at a time, so the induction is on a front of bytes that all continue, with
the groups read so far generalised (`readFrom_append`).
-/

namespace BundledReading

namespace Varint

/-! ## Forms -/

/-- The number that the groups of a byte string spell, the lowest group first. -/
def spelled (bytes : Bytes) : Nat := ∑ i : Fin bytes.length, bytes[i].toNat % 128 * 128 ^ i.val

@[simp] theorem spelled_nil : spelled [] = 0 := rfl

@[simp] theorem spelled_cons (b : UInt8) (rest : Bytes) :
    spelled (b :: rest) = b.toNat % 128 + 128 * spelled rest := by
  have hsucc : spelled (b :: rest) =
      b.toNat % 128 * 128 ^ 0 +
        ∑ i : Fin rest.length, rest[i].toNat % 128 * 128 ^ (i.val + 1) :=
    Fin.sum_univ_succ _
  rw [hsucc, spelled, Finset.mul_sum, Nat.pow_zero, Nat.mul_one]
  refine congrArg _ (Finset.sum_congr rfl fun i _ => ?_)
  ring

theorem spelled_append (front rest : Bytes) :
    spelled (front ++ rest) = spelled front + spelled rest * 128 ^ front.length := by
  induction front with
  | nil => simp
  | cons b front ih =>
      rw [List.cons_append, spelled_cons, ih, spelled_cons, List.length_cons]
      ring

/-- Every byte says that another follows. -/
def Continues (bytes : Bytes) : Prop := ∀ b ∈ bytes, 128 ≤ b.toNat

/-- Every byte but the last says that another follows, and the last says that none does. -/
def Terminated (bytes : Bytes) : Prop :=
  ∃ front last, bytes = front ++ [last] ∧ Continues front ∧ last.toNat < 128

/-- There are no more groups than `bits` bits need, and they spell no more than `bits` bits. -/
structure Fits (bits : Nat) (bytes : Bytes) : Prop where
  length_le : bytes.length ≤ bits ⌈/⌉ 7
  spelled_lt : spelled bytes < 2 ^ bits

/-- The byte strings that spell a number of `bits` bits. -/
structure Accepted (bits : Nat) (bytes : Bytes) : Prop extends Fits bits bytes where
  terminated : Terminated bytes

variable {bits total index value n : Nat} {bytes front code other rest rest' : Bytes} {b : UInt8}

theorem continues_cons_iff : Continues (b :: rest) ↔ 128 ≤ b.toNat ∧ Continues rest :=
  List.forall_mem_cons

theorem terminated_cons_iff :
    Terminated (b :: rest) ↔ b.toNat < 128 ∧ rest = [] ∨ 128 ≤ b.toNat ∧ Terminated rest := by
  constructor
  · rintro ⟨front, last, heq, hfront, hlast⟩
    cases front with
    | nil =>
        obtain ⟨rfl, rfl⟩ := List.cons.inj heq
        exact Or.inl ⟨hlast, rfl⟩
    | cons c front =>
        obtain ⟨rfl, rfl⟩ := List.cons.inj heq
        obtain ⟨hb, hfront⟩ := continues_cons_iff.mp hfront
        exact Or.inr ⟨hb, front, last, rfl, hfront, hlast⟩
  · rintro (⟨hb, rfl⟩ | ⟨hb, front, last, rfl, hfront, hlast⟩)
    · exact ⟨[], b, rfl, by simp [Continues], hb⟩
    · exact ⟨b :: front, last, rfl, continues_cons_iff.mpr ⟨hb, hfront⟩, hlast⟩

theorem Terminated.ne_nil (h : Terminated code) : code ≠ [] := by
  obtain ⟨front, last, rfl, -, -⟩ := h
  simp

/-- A byte string goes on to its end, or has a terminated prefix. -/
theorem continues_or_terminated (bytes : Bytes) :
    Continues bytes ∨ ∃ code rest, bytes = code ++ rest ∧ Terminated code := by
  induction bytes with
  | nil => exact Or.inl (by simp [Continues])
  | cons b rest ih =>
      by_cases hb : b.toNat < 128
      · exact Or.inr ⟨[b], rest, rfl, terminated_cons_iff.mpr (Or.inl ⟨hb, rfl⟩)⟩
      · have hb := Nat.le_of_not_lt hb
        rcases ih with hrest | ⟨code, rest, rfl, hcode⟩
        · exact Or.inl (continues_cons_iff.mpr ⟨hb, hrest⟩)
        · exact Or.inr ⟨b :: code, rest, rfl, terminated_cons_iff.mpr (Or.inr ⟨hb, hcode⟩)⟩

/-- A byte string has no two terminated prefixes. -/
theorem Terminated.eq_of_append_eq (hcode : Terminated code) (hother : Terminated other)
    (heq : code ++ rest = other ++ rest') : code = other ∧ rest = rest' := by
  induction code generalizing other with
  | nil => exact absurd rfl hcode.ne_nil
  | cons b code ih =>
      cases other with
      | nil => exact absurd rfl hother.ne_nil
      | cons c other =>
          obtain ⟨rfl, htail⟩ := List.cons.inj heq
          rcases terminated_cons_iff.mp hcode with ⟨hb, rfl⟩ | ⟨hb, hcode⟩
          · rcases terminated_cons_iff.mp hother with ⟨-, rfl⟩ | ⟨hb', -⟩
            · exact ⟨rfl, htail⟩
            · omega
          · rcases terminated_cons_iff.mp hother with ⟨hb', -⟩ | ⟨-, hother⟩
            · omega
            · obtain ⟨rfl, rfl⟩ := ih hcode hother htail
              exact ⟨rfl, rfl⟩

theorem Continues.not_terminated (h : Continues (code ++ rest)) : ¬ Terminated code := by
  rintro ⟨front, last, rfl, -, hlast⟩
  have := h last (by simp)
  omega

/-! ## Reading -/

theorem le_groups_iff : n ≤ bits ⌈/⌉ 7 ↔ 7 * n < bits + 7 := by
  rw [Nat.ceilDiv_eq_add_pred_div]
  omega

/-- A front of bytes that continue is read group by group, as long as it fits. -/
theorem readFrom_append (hfront : Continues front) (hindex : 7 * index < bits + 7)
    (hvalue : value < 2 ^ bits) :
    readFrom bits total index value (front ++ rest) =
      if 7 * (index + front.length) < bits + 7 ∧ value + spelled front * 128 ^ index < 2 ^ bits then
        readFrom bits total (index + front.length) (value + spelled front * 128 ^ index) rest
      else .error (.overflow bits) := by
  induction front generalizing index value with
  | nil => simp [hindex, hvalue]
  | cons b front ih =>
      obtain ⟨hb, hfront⟩ := continues_cons_iff.mp hfront
      have hspelled : value + spelled (b :: front) * 128 ^ index =
          value + b.toNat % 128 * 128 ^ index + spelled front * 128 ^ (index + 1) := by
        rw [spelled_cons]
        ring
      have hlength : index + (b :: front).length = index + 1 + front.length := by
        rw [List.length_cons]
        omega
      rw [hspelled, hlength, List.cons_append, readFrom]
      simp only [Nat.pow_eq]
      by_cases hgroups : bits ≤ 7 * index
      · rw [if_pos hgroups, if_neg (by omega)]
      · rw [if_neg hgroups]
        by_cases hwide : 2 ^ bits ≤ value + b.toNat % 128 * 128 ^ index
        · rw [if_pos hwide, if_neg (by omega)]
        · rw [if_neg hwide, if_pos hb, ih hfront (by omega) (by omega)]

theorem fits_iff : Fits bits bytes ↔ 7 * bytes.length < bits + 7 ∧ spelled bytes < 2 ^ bits :=
  ⟨fun h => ⟨le_groups_iff.mp h.length_le, h.spelled_lt⟩,
    fun h => ⟨le_groups_iff.mpr h.1, h.2⟩⟩

instance : Decidable (Fits bits bytes) := decidable_of_iff _ fits_iff.symm

/-- Bytes that never end are too few, or already too many. -/
theorem read_of_continues (h : Continues bytes) :
    read bits bytes =
      if Fits bits bytes then .error (.truncated (bytes.length + 1) bytes.length)
      else .error (.overflow bits) := by
  have hread : read bits bytes = readFrom bits bytes.length 0 0 (bytes ++ []) := by
    rw [List.append_nil, read]
  rw [hread, readFrom_append h (by omega) (Nat.two_pow_pos bits)]
  simp only [Nat.zero_add, Nat.pow_zero, Nat.mul_one, readFrom, fits_iff]

/-- What follows a terminated prefix matters only if the prefix fits. -/
theorem read_append_of_terminated (h : Terminated code) (rest : Bytes) :
    read bits (code ++ rest) =
      if Fits bits code then
        if rest.length = 0 then .ok (spelled code) else .error (.trailing rest.length)
      else .error (.overflow bits) := by
  obtain ⟨front, last, rfl, hfront, hlast⟩ := h
  have hspelled : spelled (front ++ [last]) = spelled front + last.toNat * 128 ^ front.length := by
    simp [spelled_append, Nat.mod_eq_of_lt hlast]
  rw [List.append_assoc, List.singleton_append, read,
    readFrom_append hfront (by omega) (Nat.two_pow_pos bits)]
  simp only [Nat.zero_add, Nat.pow_zero, Nat.mul_one, readFrom, fits_iff, hspelled, Nat.pow_eq,
    Nat.mod_eq_of_lt hlast, if_neg (Nat.not_le.mpr hlast), List.length_append,
    List.length_singleton]
  by_cases hgroups : bits ≤ 7 * front.length
  · rw [if_pos hgroups, if_neg (by omega : ¬(7 * (front.length + 1) < bits + 7 ∧ _)), ite_self]
  · by_cases hwide : 2 ^ bits ≤ spelled front + last.toNat * 128 ^ front.length
    · rw [if_neg hgroups, if_pos hwide, ite_self, if_neg (by omega)]
    · have hfits : 7 * front.length < bits + 7 ∧ spelled front < 2 ^ bits := by omega
      have hall : 7 * (front.length + 1) < bits + 7 ∧
          spelled front + last.toNat * 128 ^ front.length < 2 ^ bits := by omega
      rw [if_neg hgroups, if_neg hwide, if_pos hfits, if_pos hall]

theorem read_eq_ok_iff : read bits bytes = .ok n ↔ Accepted bits bytes ∧ spelled bytes = n := by
  rcases continues_or_terminated bytes with h | ⟨code, rest, rfl, h⟩
  · have hnot : ¬ Accepted bits bytes := fun haccepted =>
      (List.append_nil bytes ▸ h).not_terminated haccepted.terminated
    rw [read_of_continues h]
    split <;> simp [hnot]
  · rw [read_append_of_terminated h]
    constructor
    · intro hread
      split at hread
      next hfits =>
        split at hread
        next hrest =>
          obtain rfl := List.length_eq_zero_iff.mp hrest
          rw [List.append_nil]
          exact ⟨⟨hfits, h⟩, Except.ok.inj hread⟩
        · simp at hread
      · simp at hread
    · rintro ⟨⟨hfits, hterminated⟩, rfl⟩
      obtain ⟨hcode, hrest⟩ := h.eq_of_append_eq hterminated (List.append_nil (code ++ rest)).symm
      rw [← hcode] at hfits ⊢
      rw [if_pos hfits, if_pos (by simp [hrest])]

theorem read_eq_trailing_iff {count : Nat} :
    read bits bytes = .error (.trailing count) ↔
      0 < count ∧ Accepted bits (bytes.take (bytes.length - count)) := by
  rcases continues_or_terminated bytes with h | ⟨code, rest, rfl, h⟩
  · have hnot : ¬ Accepted bits (bytes.take (bytes.length - count)) := by
      intro haccepted
      rw [← List.take_append_drop (bytes.length - count) bytes] at h
      exact h.not_terminated haccepted.terminated
    rw [read_of_continues h]
    split <;> simp [hnot]
  · rw [read_append_of_terminated h]
    constructor
    · intro hread
      split at hread
      next hfits =>
        split at hread
        · simp at hread
        next hrest =>
          obtain rfl : rest.length = count := by simpa using hread
          refine ⟨Nat.pos_of_ne_zero hrest, ?_⟩
          rw [List.length_append, Nat.add_sub_cancel, List.take_left]
          exact ⟨hfits, h⟩
      · simp at hread
    · rintro ⟨hcount, ⟨hfits, hterminated⟩⟩
      have hsplit := List.take_append_drop ((code ++ rest).length - count) (code ++ rest)
      obtain ⟨hcode, hrest⟩ := h.eq_of_append_eq hterminated hsplit.symm
      have hlength := congrArg List.length hrest
      have hpos : 0 < code.length := List.length_pos_iff.mpr h.ne_nil
      rw [← hcode] at hfits
      rw [if_pos hfits]
      simp only [List.length_drop, List.length_append] at hlength
      rw [if_neg (by omega), show rest.length = count by omega]

theorem read_eq_truncated_iff {expected actual : Nat} :
    read bits bytes = .error (.truncated expected actual) ↔
      expected = bytes.length + 1 ∧ actual = bytes.length ∧ Continues bytes ∧ Fits bits bytes := by
  rcases continues_or_terminated bytes with h | ⟨code, rest, rfl, h⟩
  · rw [read_of_continues h]
    split
    next hfits =>
      simp only [Except.error.injEq, CoderError.truncated.injEq, h, hfits, and_true]
      constructor
      · rintro ⟨rfl, rfl⟩
        exact ⟨rfl, rfl⟩
      · rintro ⟨rfl, rfl⟩
        exact ⟨rfl, rfl⟩
    next hfits => simp [hfits]
  · have hnot : ¬ Continues (code ++ rest) := fun hcontinues => hcontinues.not_terminated h
    rw [read_append_of_terminated h]
    split
    · split <;> simp [hnot]
    · simp [hnot]

/-- Reading has no other outcomes. -/
theorem read_cases (bits : Nat) (bytes : Bytes) :
    (∃ n, read bits bytes = .ok n) ∨ (∃ count, read bits bytes = .error (.trailing count)) ∨
      (∃ expected actual, read bits bytes = .error (.truncated expected actual)) ∨
      read bits bytes = .error (.overflow bits) := by
  rcases continues_or_terminated bytes with h | ⟨code, rest, rfl, h⟩
  · rw [read_of_continues h]
    split
    · exact Or.inr (Or.inr (Or.inl ⟨_, _, rfl⟩))
    · exact Or.inr (Or.inr (Or.inr rfl))
  · rw [read_append_of_terminated h]
    split
    · split
      · exact Or.inl ⟨_, rfl⟩
      · exact Or.inr (Or.inl ⟨_, rfl⟩)
    · exact Or.inr (Or.inr (Or.inr rfl))

theorem read_eq_overflow_iff :
    read bits bytes = .error (.overflow bits) ↔
      ¬ Accepted bits bytes ∧
      (∀ count, 0 < count → ¬ Accepted bits (bytes.take (bytes.length - count))) ∧
      ¬ (Continues bytes ∧ Fits bits bytes) := by
  constructor
  · intro h
    refine ⟨?_, ?_, ?_⟩
    · intro haccepted
      have hread := read_eq_ok_iff.mpr ⟨haccepted, rfl⟩
      simp [h] at hread
    · intro count hcount haccepted
      have hread := read_eq_trailing_iff.mpr ⟨hcount, haccepted⟩
      simp [h] at hread
    · intro hopen
      have hread := read_eq_truncated_iff.mpr ⟨rfl, rfl, hopen⟩
      simp [h] at hread
  · rintro ⟨haccepted, hfront, hopen⟩
    rcases read_cases bits bytes with ⟨n, h⟩ | ⟨count, h⟩ | ⟨expected, actual, h⟩ | h
    · exact absurd (read_eq_ok_iff.mp h).1 haccepted
    · obtain ⟨hcount, hcode⟩ := read_eq_trailing_iff.mp h
      exact absurd hcode (hfront count hcount)
    · exact absurd (read_eq_truncated_iff.mp h).2.2 hopen
    · exact h

/-! ## Writing -/

/-- The forms that are not overlong. -/
def Canonical (bytes : Bytes) : Prop :=
  bytes.length = 1 ∨ ∃ last, bytes.getLast? = some last ∧ last ≠ 0

theorem write_ne_nil (n : Nat) : write n ≠ [] := by
  rw [write]
  split <;> simp

theorem getLast?_write {n : Nat} (h : 0 < n) : (write n).getLast? ≠ some 0 := by
  induction n using Nat.strongRecOn with
  | _ n ih =>
      by_cases hlt : n < 128
      · rw [write_of_lt hlt, List.getLast?_singleton]
        intro hzero
        have := congrArg UInt8.toNat (Option.some.inj hzero)
        simp at this
        omega
      · have hle : 128 ≤ n := Nat.le_of_not_lt hlt
        rw [write_of_le hle, List.getLast?_cons_of_ne_nil (write_ne_nil _)]
        exact ih (n / 128) (by omega) (by omega)

/-- What is written is never overlong. -/
theorem canonical_write (n : Nat) : Canonical (write n) := by
  rcases Nat.eq_zero_or_pos n with rfl | hpos
  · rw [write_of_lt (by decide)]
    exact Or.inl rfl
  · refine Or.inr ⟨(write n).getLast (write_ne_nil n), List.getLast?_eq_some_getLast _, ?_⟩
    intro hzero
    apply getLast?_write hpos
    rw [← hzero, List.getLast?_eq_some_getLast]

/-- A terminated form is the one that is written, or it is longer and ends with a group of zeros. -/
theorem Terminated.eq_write_or (h : Terminated code) :
    code = write (spelled code) ∨
      (write (spelled code)).length < code.length ∧ code.getLast? = some 0 := by
  induction code with
  | nil => exact absurd rfl h.ne_nil
  | cons b rest ih =>
      rcases terminated_cons_iff.mp h with ⟨hb, rfl⟩ | ⟨hb, hrest⟩
      · left
        rw [spelled_cons, spelled_nil, Nat.mod_eq_of_lt hb, Nat.mul_zero, Nat.add_zero,
          write_of_lt hb, UInt8.ofNat_toNat]
      · rw [List.getLast?_cons_of_ne_nil hrest.ne_nil, spelled_cons]
        rcases Nat.eq_zero_or_pos (spelled rest) with hzero | hpos
        -- All later groups are zeros, so the first one alone is shorter.
        · right
          have hlast : rest.getLast? = some 0 := by
            rcases ih hrest with heq | ⟨-, hlast⟩
            · rw [heq, hzero, write_of_lt (by decide)]
              rfl
            · exact hlast
          have hlength : 0 < rest.length := List.length_pos_iff.mpr hrest.ne_nil
          rw [hzero, Nat.mul_zero, Nat.add_zero, write_of_lt (Nat.mod_lt _ (by decide))]
          exact ⟨Nat.succ_lt_succ hlength, hlast⟩
        · have hbyte : UInt8.ofNat (128 + b.toNat % 128) = b := by
            have := b.toNat_lt
            rw [show 128 + b.toNat % 128 = b.toNat by omega, UInt8.ofNat_toNat]
          rw [write_of_le (by omega),
            show (b.toNat % 128 + 128 * spelled rest) % 128 = b.toNat % 128 by omega,
            show (b.toNat % 128 + 128 * spelled rest) / 128 = spelled rest by omega, hbyte]
          rcases ih hrest with heq | ⟨hlength, hlast⟩
          · exact Or.inl (congrArg (b :: ·) heq)
          · exact Or.inr ⟨Nat.succ_lt_succ hlength, hlast⟩

/-- Of the forms of a number the written one is the only one that is not overlong. -/
theorem Terminated.canonical_iff (h : Terminated code) :
    Canonical code ↔ code = write (spelled code) := by
  constructor
  · intro hcanonical
    rcases h.eq_write_or with heq | ⟨hlength, hzero⟩
    · exact heq
    · exfalso
      rcases hcanonical with hone | ⟨last, hlast, hne⟩
      · have hpos := List.length_pos_iff.mpr (write_ne_nil (spelled code))
        omega
      · exact hne (Option.some.inj (hlast.symm.trans hzero))
  · intro heq
    rw [heq]
    exact canonical_write _

end Varint

namespace Coder

open Varint

variable {α : Type} {bits : Nat} {coder : Coder α}

/-- What is to be said of a coder whose forms are the variable-length numbers of `bits` bits: which
byte strings it reads and what they stand for, what it answers to all others, and which of the
forms of a value it writes. -/
structure FollowsGrammar (bits : Nat) (toInt : α → Int) (coder : Coder α) : Prop where
  succeeds_iff : ∀ bytes, (∃ v, coder.decode bytes = .ok v) ↔ Accepted bits bytes
  /-- The number is the pattern of the value in two's complement. -/
  toInt_eq : ∀ bytes v, coder.decode bytes = .ok v →
    toInt v = (BitVec.ofNat bits (spelled bytes)).toInt
  trailing_iff : ∀ bytes count, coder.decode bytes = .error (.trailing count) ↔
    0 < count ∧ Accepted bits (bytes.take (bytes.length - count))
  truncated_iff : ∀ bytes expected actual,
    coder.decode bytes = .error (.truncated expected actual) ↔
      expected = bytes.length + 1 ∧ actual = bytes.length ∧ Continues bytes ∧ Fits bits bytes
  overflow_iff : ∀ bytes, coder.decode bytes = .error (.overflow bits) ↔
    ¬ Accepted bits bytes ∧
    (∀ count, 0 < count → ¬ Accepted bits (bytes.take (bytes.length - count))) ∧
    ¬ (Continues bytes ∧ Fits bits bytes)
  /-- Every value is written in the shortest of its forms. All its other forms are overlong. -/
  encode_shortest : ∀ v, ∃ code, coder.encode v = .ok code ∧ coder.decode code = .ok v ∧
    ∀ bytes, coder.decode bytes = .ok v →
      (Canonical bytes ↔ bytes = code) ∧
      (bytes ≠ code → code.length < bytes.length ∧ bytes.getLast? = some 0)

/-- The coder writes and reads the bit patterns of its values as numbers of `bits` bits. -/
structure SpellsPatterns (bits : Nat) (pattern : α ≃ BitVec bits) (coder : Coder α) : Prop where
  encode_eq : ∀ v, coder.encode v = .ok (write (pattern v).toNat)
  decode_eq : ∀ bytes, coder.decode bytes =
    (Varint.read bits bytes).map fun n => pattern.symm (BitVec.ofNat bits n)

namespace SpellsPatterns

variable {pattern : α ≃ BitVec bits}

theorem decode_eq_ok_iff (h : SpellsPatterns bits pattern coder) {bytes : Bytes} {v : α} :
    coder.decode bytes = .ok v ↔ Accepted bits bytes ∧ spelled bytes = (pattern v).toNat := by
  rw [h.decode_eq, ← read_eq_ok_iff]
  cases hread : Varint.read bits bytes with
  | error cause => simp [Except.map]
  | ok n =>
      obtain ⟨haccepted, rfl⟩ := read_eq_ok_iff.mp hread
      simp only [Except.map, Except.ok.injEq, Equiv.symm_apply_eq, BitVec.toNat_eq,
        BitVec.toNat_ofNat, Nat.mod_eq_of_lt haccepted.spelled_lt]

theorem decode_eq_error_iff (h : SpellsPatterns bits pattern coder) {bytes : Bytes}
    {cause : CoderError} :
    coder.decode bytes = .error cause ↔ Varint.read bits bytes = .error cause := by
  rw [h.decode_eq]
  cases Varint.read bits bytes <;> simp [Except.map]

theorem followsGrammar (h : SpellsPatterns bits pattern coder) (hbits : 0 < bits) :
    FollowsGrammar bits (fun v => (pattern v).toInt) coder where
  succeeds_iff := by
    intro bytes
    constructor
    · rintro ⟨v, hv⟩
      exact (h.decode_eq_ok_iff.mp hv).1
    · intro haccepted
      refine ⟨pattern.symm (BitVec.ofNat bits (spelled bytes)),
        h.decode_eq_ok_iff.mpr ⟨haccepted, ?_⟩⟩
      rw [Equiv.apply_symm_apply, BitVec.toNat_ofNat, Nat.mod_eq_of_lt haccepted.spelled_lt]
  toInt_eq := by
    intro bytes v hv
    rw [(h.decode_eq_ok_iff.mp hv).2, BitVec.ofNat_toNat, BitVec.setWidth_eq]
  trailing_iff := by
    intro bytes count
    rw [h.decode_eq_error_iff, read_eq_trailing_iff]
  truncated_iff := by
    intro bytes expected actual
    rw [h.decode_eq_error_iff, read_eq_truncated_iff]
  overflow_iff := by
    intro bytes
    rw [h.decode_eq_error_iff, read_eq_overflow_iff]
  encode_shortest := by
    intro v
    refine ⟨_, h.encode_eq v, ?_, ?_⟩
    · have hread := read_write hbits (pattern v).isLt
      exact h.decode_eq_ok_iff.mpr (read_eq_ok_iff.mp hread)
    · intro bytes hbytes
      obtain ⟨haccepted, hspelled⟩ := h.decode_eq_ok_iff.mp hbytes
      rw [← hspelled]
      refine ⟨haccepted.terminated.canonical_iff, fun hne => ?_⟩
      exact haccepted.terminated.eq_write_or.resolve_left hne

end SpellsPatterns

/-- The bit patterns of signed numbers of 32 bits. -/
def pattern32 : Int32 ≃ BitVec 32 := ⟨Int32.toBitVec, Int32.ofBitVec, fun _ => rfl, fun _ => rfl⟩

/-- The bit patterns of signed numbers of 64 bits. -/
def pattern64 : Int64 ≃ BitVec 64 := ⟨Int64.toBitVec, Int64.ofBitVec, fun _ => rfl, fun _ => rfl⟩

theorem spellsPatterns_varint32 : SpellsPatterns 32 pattern32 varint32 where
  encode_eq := fun _ => rfl
  decode_eq := by
    intro bytes
    simp only [varint32]
    cases Varint.read 32 bytes <;> rfl

theorem spellsPatterns_varint64 : SpellsPatterns 64 pattern64 varint64 where
  encode_eq := fun _ => rfl
  decode_eq := by
    intro bytes
    simp only [varint64]
    cases Varint.read 64 bytes <;> rfl

/-- Both coders of variable-length numbers accept exactly the forms of their grammar, answer each
other byte string by what is wrong with it, and write the one form of a value that is not
overlong. -/
theorem varint_coders_follow_grammar :
    FollowsGrammar 32 Int32.toInt varint32 ∧ FollowsGrammar 64 Int64.toInt varint64 :=
  ⟨spellsPatterns_varint32.followsGrammar (by decide),
    spellsPatterns_varint64.followsGrammar (by decide)⟩

end Coder

end BundledReading

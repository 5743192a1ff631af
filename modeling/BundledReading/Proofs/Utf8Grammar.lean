import BundledReading.Proofs.Utf8Forms
import Mathlib.Data.List.Forall2

/-!
# The grammar of UTF-8

Well-formed bytes are sequences of one to four bytes, one after the other, and a sequence is a row
of a table of byte ranges. The table says nothing of numbers or characters. The bytes that can be
read are those that are well formed: a row of the table describes the forms of one length, or those
forms after one first byte.
-/

namespace BundledReading.Text.Utf8

/-! ## The table -/

/-- Where a byte may lie, both ends included. -/
abbrev ByteRange := Nat × Nat

/-- The range of every byte behind the second, and of most second bytes. -/
def laterRange : ByteRange := (0x80, 0xbf)

/-- The well-formed sequences, by the ranges of their bytes. The second range is narrower where a
greater one would let in overlong forms, surrogates or numbers that are too large. -/
def sequenceTable : List (List ByteRange) :=
  [[(0x00, 0x7f)],
    [(0xc2, 0xdf), laterRange],
    [(0xe0, 0xe0), (0xa0, 0xbf), laterRange],
    [(0xe1, 0xec), laterRange, laterRange],
    [(0xed, 0xed), (0x80, 0x9f), laterRange],
    [(0xee, 0xef), laterRange, laterRange],
    [(0xf0, 0xf0), (0x90, 0xbf), laterRange, laterRange],
    [(0xf1, 0xf3), laterRange, laterRange, laterRange],
    [(0xf4, 0xf4), (0x80, 0x8f), laterRange, laterRange]]

/-- As many bytes as there are ranges, each in its range. -/
def Follows (bytes : Bytes) (row : List ByteRange) : Prop :=
  List.Forall₂ (fun byte range => range.1 ≤ byte.toNat ∧ byte.toNat ≤ range.2) bytes row

/-- One sequence of the table. -/
def IsSequence (bytes : Bytes) : Prop := ∃ row ∈ sequenceTable, Follows bytes row

/-- Sequences of the table, one after the other. -/
inductive WellFormed : Bytes → Prop
  | nil : WellFormed []
  | cons {bytes rest : Bytes} (hfirst : IsSequence bytes) (hrest : WellFormed rest) :
      WellFormed (bytes ++ rest)

/-! ## Sequences and forms -/

/-- The second byte has a range of its own, and all later ones have the same. -/
theorem forall_fits_cons {first : Nat} {c : UInt8} {tail : Bytes} :
    (∀ place byte, (c :: tail)[place]? = some byte → fits first (place + 1) byte.toNat = true) ↔
      (leastSecond first ≤ c.toNat ∧ c.toNat ≤ greatestSecond first) ∧
        ∀ byte ∈ tail, 0x80 ≤ byte.toNat ∧ byte.toNat ≤ 0xbf := by
  constructor
  · intro h
    refine ⟨by simpa [fits] using h 0 c rfl, ?_⟩
    intro byte hbyte
    obtain ⟨place, hplace⟩ := List.mem_iff_getElem?.mp hbyte
    simpa [fits] using h (place + 1) byte hplace
  · rintro ⟨hsecond, hlater⟩ (_ | place) byte hbyte
    · obtain rfl := Option.some.inj hbyte
      exact fits_second hsecond.1 hsecond.2
    · have hrange := hlater byte (List.mem_of_getElem? hbyte)
      exact fits_later (by omega) hrange.1 hrange.2

/-- A sequence is a first byte that announces the others, all of which fit where they stand. -/
theorem isSequence_cons_iff {b : UInt8} {tail : Bytes} :
    IsSequence (b :: tail) ↔ width b.toNat = tail.length + 1 ∧
      ∀ place byte, tail[place]? = some byte → fits b.toNat (place + 1) byte.toNat = true := by
  obtain ⟨hone, htwo, hthree, hfour, hmost⟩ := @width_eq_iff b.toNat
  rcases tail with _ | ⟨c, _ | ⟨d, _ | ⟨e, _ | ⟨f, tail⟩⟩⟩⟩
  · simp [IsSequence, sequenceTable, Follows, hone, Nat.lt_succ_iff]
  · have hrows : IsSequence [b, c] ↔ (0xc2 ≤ b.toNat ∧ b.toNat ≤ 0xdf) ∧
        0x80 ≤ c.toNat ∧ c.toNat ≤ 0xbf := by
      simp [IsSequence, sequenceTable, Follows, laterRange]
    rw [hrows, forall_fits_cons, List.length_singleton, htwo, leastSecond, greatestSecond]
    simp only [List.not_mem_nil, false_implies, implies_true, and_true]
    split_ifs <;> omega
  · simp only [forall_fits_cons, List.length_cons, List.length_nil, hthree, leastSecond,
      greatestSecond, List.forall_mem_singleton]
    simp only [IsSequence, sequenceTable, laterRange, List.mem_cons, List.not_mem_nil, or_false,
      Follows, exists_eq_or_imp, List.forall₂_cons, Nat.zero_le, true_and,
      List.forall₂_nil_right_iff, reduceCtorEq, and_false, List.cons_ne_self, and_true,
      List.forall₂_nil_left_iff, ↓existsAndEq, or_self, false_or]
    split_ifs <;> omega
  · simp only [forall_fits_cons, List.length_cons, List.length_nil, hfour, leastSecond,
      greatestSecond, List.forall_mem_cons, List.not_mem_nil]
    simp only [IsSequence, sequenceTable, laterRange, List.mem_cons, List.not_mem_nil, or_false,
      Follows, exists_eq_or_imp, List.forall₂_cons, Nat.zero_le, true_and,
      List.forall₂_nil_right_iff, reduceCtorEq, and_false, List.cons_ne_self, and_true,
      ↓existsAndEq, false_or, false_implies, implies_true]
    split_ifs <;> omega
  · have hlength : ¬ width b.toNat = (c :: d :: e :: f :: tail).length + 1 := by
      simp only [List.length_cons]
      omega
    refine iff_of_false ?_ fun h => hlength h.1
    simp [IsSequence, sequenceTable, Follows, laterRange]

/-- The sequences are the forms of numbers. -/
theorem isSequence_iff_spells {b : UInt8} {tail : Bytes} :
    IsSequence (b :: tail) ↔ ∃ n, Spells n b.toNat (tail.map UInt8.toNat) := by
  rw [isSequence_cons_iff]
  constructor
  · rintro ⟨hwidth, hfits⟩
    exact ⟨_, spells_of_fits hwidth hfits⟩
  · rintro ⟨n, hwidth, hfits, -⟩
    refine ⟨by rw [hwidth, List.length_map], ?_⟩
    intro place byte hbyte
    apply hfits
    rw [List.getElem?_map, hbyte, Option.map_some]

/-- The sequences are what characters are written as. -/
theorem isSequence_iff_encodeChar {bytes : Bytes} :
    IsSequence bytes ↔ ∃ c, encodeChar c = bytes := by
  constructor
  · intro h
    cases bytes with
    | nil => simp [IsSequence, sequenceTable, Follows] at h
    | cons b tail =>
        obtain ⟨n, hspells⟩ := isSequence_iff_spells.mp h
        exact ⟨Char.ofNat n, hspells.encodeChar_eq⟩
  · rintro ⟨c, rfl⟩
    obtain ⟨b, tail, hcode, hspells⟩ := exists_form c
    rw [hcode]
    exact isSequence_iff_spells.mpr ⟨_, hspells⟩

/-! ## Well-formed bytes -/

theorem wellFormed_encodeChars (cs : List Char) : WellFormed (encodeChars cs) := by
  induction cs with
  | nil => exact WellFormed.nil
  | cons c cs ih => exact WellFormed.cons (isSequence_iff_encodeChar.mpr ⟨c, rfl⟩) ih

theorem WellFormed.exists_encodeChars {bytes : Bytes} (h : WellFormed bytes) :
    ∃ cs, encodeChars cs = bytes := by
  induction h with
  | nil => exact ⟨[], rfl⟩
  | cons hfirst hrest ih =>
      obtain ⟨c, rfl⟩ := isSequence_iff_encodeChar.mp hfirst
      obtain ⟨cs, rfl⟩ := ih
      exact ⟨c :: cs, rfl⟩

/-- The bytes that can be read are those that are well formed. -/
theorem exists_decode_iff {bytes : Bytes} :
    (∃ text, decode bytes = .ok text) ↔ WellFormed bytes := by
  constructor
  · rintro ⟨text, hdecode⟩
    rw [← encode_of_decode hdecode]
    exact wellFormed_encodeChars text.toList
  · intro h
    obtain ⟨cs, rfl⟩ := h.exists_encodeChars
    refine ⟨String.ofList cs, ?_⟩
    have hdecode := decode_encode (String.ofList cs)
    rwa [encode, String.toList_ofList] at hdecode

end BundledReading.Text.Utf8

import BundledReading.Text.Utf8
import Mathlib.Data.List.Basic

/-!
# UTF-8 forms

A form of a number is a first byte and as many further bytes as it announces, all of them where
they may stand. The writer gives every character a form of its number, in one of four lengths, and
the reader takes exactly one form off the front of its input. A text that was written is therefore
read back, whatever follows each of its characters; and since no number has a form besides the one
that is written, bytes that can be read are those of the text that is read.

## Implementation notes

A form is kept as the list of its bytes' values, which is what the reader computes with. Bytes
enter only where forms are joined to the input.
-/

namespace BundledReading.Text.Utf8

/-- The numbers of characters. -/
def IsScalar (n : Nat) : Prop := n < 0xd800 ∨ 0xdfff < n ∧ n < 0x110000

theorem isScalar_toNat (c : Char) : IsScalar c.toNat := c.valid

theorem toNat_ofNat {n : Nat} (h : IsScalar n) : (Char.ofNat n).toNat = n := by
  have hvalid : n.isValidChar := h
  rw [Char.ofNat, dif_pos hvalid]
  rfl

/-- The bytes `first :: rest` are a form of the number `n`. -/
structure Spells (n first : Nat) (rest : List Nat) : Prop where
  width_eq : width first = rest.length + 1
  fits : ∀ place byte, rest[place]? = some byte → fits first (place + 1) byte = true
  scalar_eq : scalar (first :: rest) = n

theorem fits_second {first byte : Nat} (hleast : leastSecond first ≤ byte)
    (hgreatest : byte ≤ greatestSecond first) : fits first 1 byte = true := by
  simp [fits, hleast, hgreatest]

theorem fits_later {first place byte : Nat} (hplace : place ≠ 1) (hleast : 0x80 ≤ byte)
    (hgreatest : byte ≤ 0xbf) : fits first place byte = true := by
  simp [fits, hplace, hleast, hgreatest]

/-! ## Writing -/

theorem spells_one {n : Nat} (h : n < 0x80) : Spells n n [] where
  width_eq := if_pos h
  fits := by simp
  scalar_eq := rfl

theorem spells_two {n : Nat} (hleast : 0x80 ≤ n) (hgreatest : n < 0x800) :
    Spells n (0xc0 + n / 64) [0x80 + n % 64] where
  width_eq := by
    rw [width, if_neg (by omega), if_neg (by omega), if_pos (by omega)]
    rfl
  fits := by
    rintro (_ | place) byte hbyte
    · obtain rfl := Option.some.inj hbyte
      apply fits_second
      · simp only [leastSecond]
        split_ifs <;> omega
      · simp only [greatestSecond]
        split_ifs <;> omega
    · simp at hbyte
  scalar_eq := by
    change (0xc0 + n / 64 - 0xc0) * 64 + (0x80 + n % 64 - 0x80) = n
    omega

/-- Surrogates have no form: this is where the second byte after `0xed` would be too great. -/
theorem spells_three {n : Nat} (hscalar : IsScalar n) (hleast : 0x800 ≤ n)
    (hgreatest : n < 0x10000) :
    Spells n (0xe0 + n / 4096) [0x80 + n / 64 % 64, 0x80 + n % 64] where
  width_eq := by
    rw [width, if_neg (by omega), if_neg (by omega), if_neg (by omega), if_pos (by omega)]
    rfl
  fits := by
    unfold IsScalar at hscalar
    rintro (_ | _ | place) byte hbyte
    · obtain rfl := Option.some.inj hbyte
      apply fits_second
      · simp only [leastSecond]
        split_ifs <;> omega
      · simp only [greatestSecond]
        split_ifs <;> omega
    · obtain rfl := Option.some.inj hbyte
      exact fits_later (by omega) (by omega) (by omega)
    · simp at hbyte
  scalar_eq := by
    change (0xe0 + n / 4096 - 0xe0) * 4096 + (0x80 + n / 64 % 64 - 0x80) * 64 +
      (0x80 + n % 64 - 0x80) = n
    omega

theorem spells_four {n : Nat} (hleast : 0x10000 ≤ n) (hgreatest : n < 0x110000) :
    Spells n (0xf0 + n / 262144) [0x80 + n / 4096 % 64, 0x80 + n / 64 % 64, 0x80 + n % 64] where
  width_eq := by
    rw [width, if_neg (by omega), if_neg (by omega), if_neg (by omega), if_neg (by omega),
      if_pos (by omega)]
    rfl
  fits := by
    rintro (_ | _ | _ | place) byte hbyte
    · obtain rfl := Option.some.inj hbyte
      apply fits_second
      · simp only [leastSecond]
        split_ifs <;> omega
      · simp only [greatestSecond]
        split_ifs <;> omega
    · obtain rfl := Option.some.inj hbyte
      exact fits_later (by omega) (by omega) (by omega)
    · obtain rfl := Option.some.inj hbyte
      exact fits_later (by omega) (by omega) (by omega)
    · simp at hbyte
  scalar_eq := by
    change (0xf0 + n / 262144 - 0xf0) * 262144 + (0x80 + n / 4096 % 64 - 0x80) * 4096 +
      (0x80 + n / 64 % 64 - 0x80) * 64 + (0x80 + n % 64 - 0x80) = n
    omega

/-- Every character is written in a form of its number. -/
theorem exists_spells (c : Char) :
    ∃ first rest, encodeChar c = (first :: rest).map UInt8.ofNat ∧
      (∀ byte ∈ first :: rest, byte < 256) ∧ Spells c.toNat first rest := by
  have hscalar := isScalar_toNat c
  simp only [encodeChar, encodeScalar]
  split_ifs with hone htwo hthree
  · exact ⟨_, _, rfl, by simp; omega, spells_one hone⟩
  · exact ⟨_, _, rfl, by simp; omega, spells_two (by omega) htwo⟩
  · exact ⟨_, _, rfl, by simp; omega, spells_three hscalar (by omega) hthree⟩
  · have hgreatest : c.toNat < 0x110000 := by
      unfold IsScalar at hscalar
      omega
    exact ⟨_, _, rfl, by simp; omega, spells_four (by omega) hgreatest⟩

theorem exists_form (c : Char) :
    ∃ b tail, encodeChar c = b :: tail ∧ Spells c.toNat b.toNat (tail.map UInt8.toNat) := by
  obtain ⟨first, rest, hcode, hbytes, hspells⟩ := exists_spells c
  have hback : ((first :: rest).map UInt8.ofNat).map UInt8.toNat = first :: rest := by
    rw [List.map_map]
    refine (List.map_congr_left fun byte hbyte => ?_).trans (List.map_id _)
    exact UInt8.toNat_ofNat_of_lt' (hbytes byte hbyte)
  obtain ⟨hfirst, hrest⟩ := List.cons.inj hback
  refine ⟨UInt8.ofNat first, rest.map UInt8.ofNat, hcode, ?_⟩
  rw [hfirst, hrest]
  exact hspells

/-! ## Reading -/

/-- Further bytes that all fit where they stand are collected. -/
theorem continuation_append {first : Nat} {seen : List Nat} {tail rest : Bytes}
    (h : ∀ place byte, tail[place]? = some byte →
      fits first (seen.length + place) byte.toNat = true) :
    continuation first tail.length seen (tail ++ rest) =
      .ok (seen ++ tail.map UInt8.toNat, rest) := by
  induction tail generalizing seen with
  | nil => simp [continuation]
  | cons b tail ih =>
      have hfits : fits first seen.length b.toNat = true := h 0 b rfl
      have hlater : ∀ place byte, tail[place]? = some byte →
          fits first ((seen ++ [b.toNat]).length + place) byte.toNat = true := by
        intro place byte hbyte
        have := h (place + 1) byte hbyte
        rwa [List.length_append, List.length_singleton, Nat.add_assoc, Nat.add_comm 1]
      simp only [List.length_cons, List.cons_append, continuation, hfits, if_true, ih hlater,
        List.append_assoc, List.map_cons, List.nil_append]

/-- Reading a form gives its character and leaves what follows. -/
theorem decodeChar_append {c : Char} {b : UInt8} {tail : Bytes}
    (h : Spells c.toNat b.toNat (tail.map UInt8.toNat)) (rest : Bytes) :
    decodeChar b (tail ++ rest) = .ok (c, rest) := by
  obtain ⟨hwidth, hfits, hscalar⟩ := h
  have hcontinuation : continuation b.toNat tail.length [b.toNat] (tail ++ rest) =
      .ok ([b.toNat] ++ tail.map UInt8.toNat, rest) := by
    apply continuation_append
    intro place byte hbyte
    rw [List.length_singleton, Nat.add_comm]
    apply hfits
    rw [List.getElem?_map, hbyte, Option.map_some]
  rw [List.length_map] at hwidth
  simp only [decodeChar, hwidth, hcontinuation, List.singleton_append, hscalar, Char.ofNat_toNat]

theorem decodeChars_of_decodeChar {position : Nat} {b : UInt8} {bytes rest : Bytes} {c : Char}
    (h : decodeChar b bytes = .ok (c, rest)) :
    decodeChars position (b :: bytes) =
      (c :: ·) <$> decodeChars (position + width b.toNat) rest := by
  rw [decodeChars]
  split
  next flaw hflaw => simp [h] at hflaw
  next found left hfound =>
    obtain ⟨rfl, rfl⟩ := Prod.mk.inj (Except.ok.inj (h.symm.trans hfound))
    rfl

theorem decodeChars_encodeChars (position : Nat) (cs : List Char) :
    decodeChars position (encodeChars cs) = .ok cs := by
  induction cs generalizing position with
  | nil => rw [encodeChars, List.flatMap_nil, decodeChars]
  | cons c cs ih =>
      obtain ⟨b, tail, hcode, hspells⟩ := exists_form c
      have hbytes : encodeChars (c :: cs) = b :: (tail ++ encodeChars cs) := by
        rw [encodeChars, List.flatMap_cons, hcode]
        rfl
      rw [hbytes, decodeChars_of_decodeChar (decodeChar_append hspells _), ih]
      rfl

/-- Reading the bytes of a text gives the text back. -/
theorem decode_encode (text : String) : decode (encode text) = .ok text := by
  rw [decode, encode, decodeChars_encodeChars]
  exact congrArg Except.ok String.ofList_toList

/-! ## What can be read was written -/

/-- The first bytes of each length of forms. -/
theorem width_eq_iff {first : Nat} :
    (width first = 1 ↔ first < 0x80) ∧ (width first = 2 ↔ 0xc2 ≤ first ∧ first < 0xe0) ∧
      (width first = 3 ↔ 0xe0 ≤ first ∧ first < 0xf0) ∧
      (width first = 4 ↔ 0xf0 ≤ first ∧ first < 0xf5) ∧ width first ≤ 4 := by
  unfold width
  split_ifs <;> simp <;> omega

theorem Spells.second {n first byte : Nat} {rest : List Nat} (h : Spells n first (byte :: rest)) :
    leastSecond first ≤ byte ∧ byte ≤ greatestSecond first := by
  have hfits := h.fits 0 byte rfl
  simpa [Utf8.fits] using hfits

theorem Spells.later {n first byte : Nat} {rest : List Nat} (h : Spells n first rest) (place : Nat)
    (hbyte : rest[place + 1]? = some byte) : 0x80 ≤ byte ∧ byte ≤ 0xbf := by
  have hfits := h.fits (place + 1) byte hbyte
  simpa [Utf8.fits] using hfits

/-- A form is of the number of a character, and it is the form in which that is written. -/
theorem Spells.encodeScalar_eq {n first : Nat} {rest : List Nat} (h : Spells n first rest) :
    IsScalar n ∧ encodeScalar n = (first :: rest).map UInt8.ofNat := by
  have hwidth := h.width_eq
  have hscalar := h.scalar_eq
  obtain ⟨hone, htwo, hthree, hfour, hmost⟩ := @width_eq_iff first
  rcases rest with _ | ⟨b, _ | ⟨c, _ | ⟨d, _ | ⟨e, rest⟩⟩⟩⟩
  · have hfirst := hone.mp hwidth
    obtain rfl : first = n := hscalar
    refine ⟨Or.inl (by omega), ?_⟩
    rw [encodeScalar, if_pos hfirst]
    rfl
  · have hfirst := htwo.mp hwidth
    have hb := h.second
    have hn : (first - 0xc0) * 64 + (b - 0x80) = n := hscalar
    rw [leastSecond, greatestSecond, if_neg (by omega), if_neg (by omega), if_neg (by omega),
      if_neg (by omega)] at hb
    refine ⟨Or.inl (by omega), ?_⟩
    rw [encodeScalar, if_neg (by omega), if_pos (by omega), show 0xc0 + n / 64 = first by omega,
      show 0x80 + n % 64 = b by omega]
    rfl
  · have hfirst := hthree.mp hwidth
    have hb := h.second
    have hc := h.later 0 rfl
    have hn : (first - 0xe0) * 4096 + (b - 0x80) * 64 + (c - 0x80) = n := hscalar
    -- The least second byte keeps longer forms of small numbers out, the greatest surrogates.
    have hrange : 0x800 ≤ n ∧ n < 0x10000 ∧ 0x80 ≤ b ∧ b ≤ 0xbf ∧ IsScalar n := by
      rw [leastSecond, greatestSecond] at hb
      unfold IsScalar
      split_ifs at hb <;> omega
    refine ⟨hrange.2.2.2.2, ?_⟩
    rw [encodeScalar, if_neg (by omega), if_neg (by omega), if_pos (by omega),
      show 0xe0 + n / 4096 = first by omega, show 0x80 + n / 64 % 64 = b by omega,
      show 0x80 + n % 64 = c by omega]
    rfl
  · have hfirst := hfour.mp hwidth
    have hb := h.second
    have hc := h.later 0 rfl
    have hd := h.later 1 rfl
    have hn : (first - 0xf0) * 262144 + (b - 0x80) * 4096 + (c - 0x80) * 64 + (d - 0x80) = n :=
      hscalar
    have hrange : 0x10000 ≤ n ∧ n < 0x110000 ∧ 0x80 ≤ b ∧ b ≤ 0xbf := by
      rw [leastSecond, greatestSecond] at hb
      split_ifs at hb <;> omega
    refine ⟨Or.inr (by omega), ?_⟩
    rw [encodeScalar, if_neg (by omega), if_neg (by omega), if_neg (by omega),
      show 0xf0 + n / 262144 = first by omega, show 0x80 + n / 4096 % 64 = b by omega,
      show 0x80 + n / 64 % 64 = c by omega, show 0x80 + n % 64 = d by omega]
    rfl
  · simp only [List.length_cons] at hwidth
    omega

/-- What a sequence is continued with was taken off the input, and fits where it stands. -/
theorem exists_of_continuation {first missing : Nat} {seen read : List Nat} {bytes rest : Bytes}
    (h : continuation first missing seen bytes = .ok (read, rest)) :
    ∃ tail : Bytes, bytes = tail ++ rest ∧ tail.length = missing ∧
      read = seen ++ tail.map UInt8.toNat ∧
      ∀ place byte, tail[place]? = some byte →
        fits first (seen.length + place) byte.toNat = true := by
  induction missing generalizing seen bytes with
  | zero =>
      obtain ⟨rfl, rfl⟩ := Prod.mk.inj (Except.ok.inj h)
      exact ⟨[], rfl, rfl, by simp, by simp⟩
  | succ missing ih =>
      cases bytes with
      | nil => simp [continuation] at h
      | cons b bytes =>
          rw [continuation] at h
          split at h
          next hfits =>
            obtain ⟨tail, rfl, rfl, rfl, hlater⟩ := ih h
            refine ⟨b :: tail, rfl, rfl, by simp, ?_⟩
            rintro (_ | place) byte hbyte
            · obtain rfl := Option.some.inj hbyte
              exact hfits
            · have := hlater place byte hbyte
              rwa [List.length_append, List.length_singleton, Nat.add_assoc,
                Nat.add_comm 1] at this
          · simp at h

/-- Bytes of which the first announces the others, all of which fit, are a form of what they
spell. -/
theorem spells_of_fits {b : UInt8} {tail : Bytes} (hwidth : width b.toNat = tail.length + 1)
    (hfits : ∀ place byte, tail[place]? = some byte →
      fits b.toNat (place + 1) byte.toNat = true) :
    Spells (scalar (b.toNat :: tail.map UInt8.toNat)) b.toNat (tail.map UInt8.toNat) where
  width_eq := by rw [hwidth, List.length_map]
  fits := by
    intro place byte hbyte
    rw [List.getElem?_map] at hbyte
    obtain ⟨found, hfound, rfl⟩ := Option.map_eq_some_iff.mp hbyte
    exact hfits place found hfound
  scalar_eq := rfl

/-- The character of a number is written as any form of that number. -/
theorem Spells.encodeChar_eq {n : Nat} {b : UInt8} {tail : Bytes}
    (h : Spells n b.toNat (tail.map UInt8.toNat)) : encodeChar (Char.ofNat n) = b :: tail := by
  obtain ⟨hscalar, hcode⟩ := h.encodeScalar_eq
  rw [encodeChar, toNat_ofNat hscalar, hcode, ← List.map_cons, List.map_map]
  simp [Function.comp_def]

/-- The character that is read off the front of the input is written there. -/
theorem cons_eq_of_decodeChar {b : UInt8} {bytes rest : Bytes} {c : Char}
    (h : decodeChar b bytes = .ok (c, rest)) : b :: bytes = encodeChar c ++ rest := by
  unfold decodeChar at h
  split at h
  · simp at h
  next missing hwidth =>
    split at h
    · simp at h
    next read left hcontinuation =>
      obtain ⟨rfl, rfl⟩ := Prod.mk.inj (Except.ok.inj h)
      obtain ⟨tail, rfl, hlength, rfl, hfits⟩ := exists_of_continuation hcontinuation
      have hlater : ∀ place byte, tail[place]? = some byte →
          fits b.toNat (place + 1) byte.toNat = true := by
        intro place byte hbyte
        have hfit := hfits place byte hbyte
        rwa [List.length_singleton, Nat.add_comm] at hfit
      have hspells := spells_of_fits (hlength ▸ hwidth) hlater
      rw [List.singleton_append, hspells.encodeChar_eq]
      rfl

theorem exists_of_decodeChars_cons {position : Nat} {b : UInt8} {bytes : Bytes} {cs : List Char}
    (h : decodeChars position (b :: bytes) = .ok cs) :
    ∃ c rest more, decodeChar b bytes = .ok (c, rest) ∧
      decodeChars (position + width b.toNat) rest = .ok more ∧ cs = c :: more := by
  cases hfirst : decodeChar b bytes with
  | error flaw =>
      rw [decodeChars] at h
      split at h
      · cases h
      next c rest hok => cases hfirst.symm.trans hok
  | ok found =>
      obtain ⟨c, rest⟩ := found
      rw [decodeChars_of_decodeChar hfirst] at h
      cases hmore : decodeChars (position + width b.toNat) rest with
      | error fault => simp [hmore] at h
      | ok more =>
          rw [hmore] at h
          exact ⟨c, rest, more, rfl, hmore, (Except.ok.inj h).symm⟩

theorem encodeChars_of_decodeChars {position : Nat} {bytes : Bytes} {cs : List Char}
    (h : decodeChars position bytes = .ok cs) : encodeChars cs = bytes := by
  induction cs generalizing position bytes with
  | nil =>
      cases bytes with
      | nil => rfl
      | cons b bytes =>
          obtain ⟨c, rest, more, -, -, hcs⟩ := exists_of_decodeChars_cons h
          cases hcs
  | cons c cs ih =>
      cases bytes with
      | nil =>
          rw [decodeChars] at h
          cases h
      | cons b bytes =>
          obtain ⟨_, rest, _, hfirst, hmore, hcs⟩ := exists_of_decodeChars_cons h
          obtain ⟨rfl, rfl⟩ := List.cons.inj hcs
          rw [cons_eq_of_decodeChar hfirst, ← ih hmore]
          rfl

/-- Bytes that can be read are those of the text that is read. -/
theorem encode_of_decode {bytes : Bytes} {text : String} (h : decode bytes = .ok text) :
    encode text = bytes := by
  rw [decode] at h
  cases hcs : decodeChars 0 bytes with
  | error fault => simp [hcs] at h
  | ok cs =>
      rw [hcs] at h
      rw [← Except.ok.inj h, encode, String.toList_ofList]
      exact encodeChars_of_decodeChars hcs

end BundledReading.Text.Utf8

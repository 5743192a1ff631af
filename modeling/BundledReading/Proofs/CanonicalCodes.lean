import BundledReading.Proofs.RoundTrips
import BundledReading.Proofs.Utf8Grammar

/-!
# Canonical codes

A coder is canonical if the only code of a value that it reads is the one that it writes. Bytes that
are read are then written back as they were, and no two byte strings are read as one value. For
options this hangs on what the marker lets through: `ReadsMarkers` lists all answers, whatever the
inner coder is.
-/

namespace BundledReading.Coder

variable {α : Type} {coder inner : Coder α}

/-- What the coder reads as a value, it writes for that value. -/
def Canonical (coder : Coder α) : Prop :=
  ∀ code v, coder.decode code = .ok v → coder.encode v = .ok code

/-- No two codes are read as one value. -/
theorem Canonical.eq_of_decode (h : coder.Canonical) {code other : Bytes} {v : α}
    (hcode : coder.decode code = .ok v) (hother : coder.decode other = .ok v) : code = other := by
  have hwritten := h code v hcode
  rw [h other v hother] at hwritten
  exact (Except.ok.inj hwritten).symm

/-! ## Plain values -/

theorem canonical_bigEndian32 : bigEndian32.Canonical := by
  intro code v hdecode
  simp only [bigEndian32] at hdecode ⊢
  split at hdecode
  next hlength =>
    have hlt : Bytes.ofBigEndian code < 2 ^ 32 := by
      have := Bytes.ofLittleEndian_lt code.reverse
      rwa [List.length_reverse, hlength] at this
    obtain rfl := Except.ok.inj hdecode
    have hspelled := Bytes.littleEndian_ofLittleEndian code.reverse
    rw [List.length_reverse, hlength] at hspelled
    rw [UInt32.toUInt32_toInt32, UInt32.toNat_ofNat_of_lt' hlt, Bytes.bigEndian, Bytes.ofBigEndian,
      hspelled, List.reverse_reverse]
  next => cases hdecode

theorem utf8_decode_eq_ok {code : Bytes} {v : String} :
    utf8.decode code = .ok v ↔ Text.Utf8.decode code = .ok v := by
  simp only [utf8]
  cases Text.Utf8.decode code <;> simp [Except.mapError]

theorem canonical_utf8 : utf8.Canonical := by
  intro code v hdecode
  exact congrArg Except.ok (Text.Utf8.encode_of_decode (utf8_decode_eq_ok.mp hdecode))

theorem canonical_bytes : bytes.Canonical := by
  intro code v hdecode
  exact hdecode.symm

/-! ## Absent values -/

/-- The answers of the coder of options over a coder: each of them, and what it is given for. -/
structure ReadsMarkers (inner : Coder α) : Prop where
  none_iff : ∀ code, (nullable inner).decode code = .ok none ↔ code = [absentMarker]
  some_iff : ∀ code v, (nullable inner).decode code = .ok (some v) ↔
    ∃ rest, code = presentMarker :: rest ∧ inner.decode rest = .ok v
  error_iff : ∀ code cause, (nullable inner).decode code = .error cause ↔
    (code = [] ∧ cause = .truncated 1 0) ∨
    (∃ rest, code = absentMarker :: rest ∧ 1 ≤ rest.length ∧ cause = .trailing rest.length) ∨
    (∃ rest, code = presentMarker :: rest ∧ inner.decode rest = .error cause) ∨
    ∃ marker rest, code = marker :: rest ∧ 1 < marker ∧ cause = .badMarker marker

theorem nullable_decode_nil (inner : Coder α) :
    (nullable inner).decode [] = .error (.truncated 1 0) := rfl

theorem nullable_decode_present (inner : Coder α) (rest : Bytes) :
    (nullable inner).decode (presentMarker :: rest) = some <$> inner.decode rest := by
  rw [nullable_decode_cons, if_neg absentMarker_ne_presentMarker.symm, if_pos rfl]

theorem nullable_decode_absent (inner : Coder α) (rest : Bytes) :
    (nullable inner).decode (absentMarker :: rest) =
      if rest.length = 0 then .ok none else .error (.trailing rest.length) := by
  rw [nullable_decode_cons, if_pos rfl]

theorem ne_marker_of_lt {marker : UInt8} (h : 1 < marker) :
    marker ≠ absentMarker ∧ marker ≠ presentMarker := by
  constructor
  · rintro rfl
    exact absurd h (by decide)
  · rintro rfl
    exact absurd h (by decide)

theorem nullable_decode_bad (inner : Coder α) {marker : UInt8} (h : 1 < marker) (rest : Bytes) :
    (nullable inner).decode (marker :: rest) = .error (.badMarker marker) := by
  rw [nullable_decode_cons, if_neg (ne_marker_of_lt h).1, if_neg (ne_marker_of_lt h).2]

/-- What the first byte of a code of an option can be. -/
theorem marker_cases (code : Bytes) :
    code = [] ∨ (∃ rest, code = absentMarker :: rest) ∨ (∃ rest, code = presentMarker :: rest) ∨
      ∃ marker rest, 1 < marker ∧ code = marker :: rest := by
  cases code with
  | nil => exact Or.inl rfl
  | cons marker rest =>
      have hmarker : marker = absentMarker ∨ marker = presentMarker ∨ 1 < marker := by
        simp only [absentMarker, presentMarker, UInt8.lt_iff_toNat_lt, ← UInt8.toNat_inj,
          UInt8.reduceToNat]
        omega
      rcases hmarker with rfl | rfl | hbad
      · exact Or.inr (Or.inl ⟨rest, rfl⟩)
      · exact Or.inr (Or.inr (Or.inl ⟨rest, rfl⟩))
      · exact Or.inr (Or.inr (Or.inr ⟨marker, rest, hbad, rfl⟩))

theorem readsMarkers (inner : Coder α) : ReadsMarkers inner where
  none_iff := by
    intro code
    rcases marker_cases code with rfl | ⟨rest, rfl⟩ | ⟨rest, rfl⟩ | ⟨marker, rest, hbad, rfl⟩
    · simp [nullable_decode_nil]
    · cases rest <;> simp [nullable_decode_absent]
    · cases hinner : inner.decode rest <;>
        simp [nullable_decode_present, hinner, absentMarker_ne_presentMarker.symm]
    · simp [nullable_decode_bad inner hbad, ne_marker_of_lt hbad]
  some_iff := by
    intro code v
    rcases marker_cases code with rfl | ⟨rest, rfl⟩ | ⟨rest, rfl⟩ | ⟨marker, rest, hbad, rfl⟩
    · simp [nullable_decode_nil]
    · cases rest <;> simp [nullable_decode_absent, absentMarker_ne_presentMarker]
    · cases hinner : inner.decode rest <;> simp [nullable_decode_present, hinner]
    · simp [nullable_decode_bad inner hbad, ne_marker_of_lt hbad]
  error_iff := by
    intro code cause
    rcases marker_cases code with rfl | ⟨rest, rfl⟩ | ⟨rest, rfl⟩ | ⟨marker, rest, hbad, rfl⟩
    · simp [nullable_decode_nil, eq_comm]
    · have hgood : ¬ 1 < absentMarker := by decide
      cases rest with
      | nil => simp [nullable_decode_absent, absentMarker_ne_presentMarker, hgood]
      | cons b rest =>
          simp [nullable_decode_absent, absentMarker_ne_presentMarker, hgood, eq_comm]
    · have hgood : ¬ 1 < presentMarker := by decide
      cases hinner : inner.decode rest <;>
        simp [nullable_decode_present, hinner, absentMarker_ne_presentMarker.symm, hgood]
    · simp [nullable_decode_bad inner hbad, ne_marker_of_lt hbad, hbad, eq_comm]

theorem Canonical.nullable (h : inner.Canonical) : (nullable inner).Canonical := by
  rintro code (_ | v) hdecode
  · rw [((readsMarkers inner).none_iff code).mp hdecode]
    exact nullable_encode_none inner
  · obtain ⟨rest, rfl, hrest⟩ := ((readsMarkers inner).some_iff code v).mp hdecode
    exact nullable_encode_some_eq_ok.mpr ⟨rest, h rest v hrest, rfl⟩

theorem Canonical.nested (h : inner.Canonical) (depth : Nat) :
    (nested inner depth).Canonical := by
  induction depth with
  | zero => exact h
  | succ depth ih => exact ih.nullable

/-- The coders with one spelling of each value write back what they read, and so do the coders of
options over them, to any depth. So no two byte strings are read as one value. What the coder of
options reads is told by the marker and the inner coder, and the bytes that are read as a text are
those that are well formed. -/
theorem encode_undoes_decode :
    bigEndian32.Canonical ∧ utf8.Canonical ∧ bytes.Canonical ∧
      (∀ (α : Type) (inner : Coder α), inner.Canonical →
        (nullable inner).Canonical ∧ ∀ depth, (nested inner depth).Canonical) ∧
      (∀ (α : Type) (coder : Coder α), coder.Canonical → ∀ code other v,
        coder.decode code = .ok v → coder.decode other = .ok v → code = other) ∧
      (∀ (α : Type) (inner : Coder α), ReadsMarkers inner) ∧
      ∀ code, (∃ text, utf8.decode code = .ok text) ↔ Text.Utf8.WellFormed code := by
  refine ⟨canonical_bigEndian32, canonical_utf8, canonical_bytes, ?_, ?_, ?_, ?_⟩
  · intro α inner h
    exact ⟨h.nullable, h.nested⟩
  · intro α coder h code other v
    exact h.eq_of_decode
  · intro α inner
    exact readsMarkers inner
  · intro code
    simp only [utf8_decode_eq_ok]
    exact Text.Utf8.exists_decode_iff

/-- Two markers in front of the bytes of a number are read as a number inside two options, and
written in front of it again. -/
theorem encode_undoes_decode_twoMarkers :
    (nested bigEndian32 2).decode [1, 1, 0, 0, 1, 44] = .ok (some (some (300 : Int32))) ∧
      (nested bigEndian32 2).encode (some (some (300 : Int32))) = .ok [1, 1, 0, 0, 1, 44] := by
  have hread : (nested bigEndian32 2).decode [1, 1, 0, 0, 1, 44] =
      .ok (some (some (300 : Int32))) := rfl
  obtain ⟨hplain, -, -, hwrapped, -⟩ := encode_undoes_decode
  obtain ⟨-, hnested⟩ := hwrapped Int32 bigEndian32 hplain
  exact ⟨hread, hnested 2 _ _ hread⟩

end BundledReading.Coder

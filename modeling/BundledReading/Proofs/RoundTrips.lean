import BundledReading.Coder.Plain
import BundledReading.Proofs.Utf8Forms
import BundledReading.Proofs.VarintGrammar

/-!
# Reading back what was written

Each coder of this library reads every value back from the code that it writes for it. Wrapping a
coder for options, once or any number of times, keeps this for every value whose payload the inner
coder reads back, even if the inner coder fails for others: the markers tell an option that is
empty at one level from all other values, and errors of the inner coder come through unchanged.

## Implementation notes

The inner coder is arbitrary: its `decode` need not have anything to do with its `encode`. So
everything is said of single values (`RoundTrips`), and the induction over the depth of nesting
(`Nested`) carries the payload along.
-/

namespace BundledReading.Coder

variable {α : Type} {inner : Coder α}

/-- What the coder writes for a value, it reads as that value again. -/
def RoundTrips (coder : Coder α) (v : α) : Prop :=
  ∃ code, coder.encode v = .ok code ∧ coder.decode code = .ok v

/-! ## Plain values -/

theorem roundTrips_bigEndian32 (v : Int32) : bigEndian32.RoundTrips v := by
  refine ⟨_, rfl, ?_⟩
  have hlt : v.toUInt32.toNat < Nat.pow 256 4 := v.toUInt32.toNat_lt
  simp only [bigEndian32, Bytes.length_bigEndian, if_true, Bytes.ofBigEndian_bigEndian,
    Nat.mod_eq_of_lt hlt, UInt32.ofNat_toNat, Int32.toInt32_toUInt32]

/-- A coder of variable-length numbers reads what it writes. -/
theorem FollowsGrammar.roundTrips {bits : Nat} {toInt : α → Int} {coder : Coder α}
    (h : FollowsGrammar bits toInt coder) (v : α) : coder.RoundTrips v := by
  obtain ⟨code, hencode, hdecode, -⟩ := h.encode_shortest v
  exact ⟨code, hencode, hdecode⟩

theorem roundTrips_varint32 (v : Int32) : varint32.RoundTrips v :=
  (spellsPatterns_varint32.followsGrammar (by decide)).roundTrips v

theorem roundTrips_varint64 (v : Int64) : varint64.RoundTrips v :=
  (spellsPatterns_varint64.followsGrammar (by decide)).roundTrips v

theorem roundTrips_utf8 (v : String) : utf8.RoundTrips v := by
  refine ⟨Text.Utf8.encode v, rfl, ?_⟩
  simp only [utf8, Text.Utf8.decode_encode, Except.mapError]

theorem roundTrips_bytes (v : Bytes) : bytes.RoundTrips v := ⟨v, rfl, rfl⟩

/-! ## Absent values -/

theorem absentMarker_ne_presentMarker : absentMarker ≠ presentMarker := by decide

theorem nullable_encode_none (inner : Coder α) :
    (nullable inner).encode none = .ok [absentMarker] := rfl

theorem nullable_encode_some (inner : Coder α) (v : α) :
    (nullable inner).encode (some v) = (presentMarker :: ·) <$> inner.encode v := rfl

theorem nullable_decode_cons (inner : Coder α) (marker : UInt8) (rest : Bytes) :
    (nullable inner).decode (marker :: rest) =
      if marker = absentMarker then
        if rest.length = 0 then .ok none else .error (.trailing rest.length)
      else if marker = presentMarker then some <$> inner.decode rest
      else .error (.badMarker marker) := rfl

theorem nullable_encode_some_eq_ok {v : α} {code : Bytes} :
    (nullable inner).encode (some v) = .ok code ↔
      ∃ rest, inner.encode v = .ok rest ∧ code = presentMarker :: rest := by
  rw [nullable_encode_some]
  cases inner.encode v with
  | error cause => simp
  | ok rest => simp [eq_comm]

theorem nullable_encode_some_eq_error {v : α} {cause : CoderError} :
    (nullable inner).encode (some v) = .error cause ↔ inner.encode v = .error cause := by
  rw [nullable_encode_some]
  cases inner.encode v <;> simp

/-- An empty option and a full one never have the same code. -/
theorem nullable_encode_some_ne_absent {v : α} :
    (nullable inner).encode (some v) ≠ .ok [absentMarker] := by
  intro h
  obtain ⟨rest, -, hcode⟩ := nullable_encode_some_eq_ok.mp h
  exact absentMarker_ne_presentMarker (List.cons.inj hcode).1

theorem roundTrips_none (inner : Coder α) : (nullable inner).RoundTrips none := by
  refine ⟨[absentMarker], rfl, ?_⟩
  rw [nullable_decode_cons, if_pos rfl]
  rfl

theorem RoundTrips.some {v : α} (h : inner.RoundTrips v) :
    (nullable inner).RoundTrips (some v) := by
  obtain ⟨code, hencode, hdecode⟩ := h
  refine ⟨presentMarker :: code, nullable_encode_some_eq_ok.mpr ⟨code, hencode, rfl⟩, ?_⟩
  rw [nullable_decode_cons, if_neg absentMarker_ne_presentMarker.symm, if_pos rfl, hdecode]
  rfl

/-! ## Nested options -/

/-- Options nested `depth` times. -/
def Nested (α : Type) : Nat → Type
  | 0 => α
  | depth + 1 => Option (Nested α depth)

/-- What is inside all the options, if none of them is empty. -/
def Nested.payload? : (depth : Nat) → Nested α depth → Option α
  | 0, v => some v
  | _ + 1, none => none
  | depth + 1, some v => payload? depth v

/-- The coder of nested options over a coder of what is inside them. -/
def nested (inner : Coder α) : (depth : Nat) → Coder (Nested α depth)
  | 0 => inner
  | depth + 1 => nullable (nested inner depth)

variable {depth : Nat} {v w : Nested α depth}

theorem nested_roundTrips
    (h : ∀ payload, Nested.payload? depth v = some payload → inner.RoundTrips payload) :
    (nested inner depth).RoundTrips v := by
  induction depth with
  | zero => exact h v rfl
  | succ depth ih =>
      cases v with
      | none => exact roundTrips_none _
      | some v => exact (ih h).some

/-- A value that is empty at some level shares its code with no other value. -/
theorem eq_of_nested_encode {code : Bytes} (habsent : Nested.payload? depth v = none)
    (hv : (nested inner depth).encode v = .ok code)
    (hw : (nested inner depth).encode w = .ok code) : v = w := by
  induction depth generalizing code with
  | zero => exact absurd habsent (Option.some_ne_none v)
  | succ depth ih =>
      cases v with
      | none =>
          obtain rfl : [absentMarker] = code := Except.ok.inj hv
          cases w with
          | none => rfl
          | some w => exact absurd hw nullable_encode_some_ne_absent
      | some v =>
          cases w with
          | none =>
              obtain rfl : [absentMarker] = code := Except.ok.inj hw
              exact absurd hv nullable_encode_some_ne_absent
          | some w =>
              obtain ⟨rest, hrest, rfl⟩ := nullable_encode_some_eq_ok.mp hv
              obtain ⟨other, hother, hcode⟩ := nullable_encode_some_eq_ok.mp hw
              obtain rfl : rest = other := (List.cons.inj hcode).2
              exact congrArg some (ih habsent hrest hother)

/-- Writing a value fails exactly with the errors of writing what is inside it. -/
theorem nested_encode_eq_error_iff {cause : CoderError} :
    (nested inner depth).encode v = .error cause ↔
      ∃ payload, Nested.payload? depth v = some payload ∧ inner.encode payload = .error cause := by
  induction depth with
  | zero =>
      constructor
      · intro h
        exact ⟨v, rfl, h⟩
      · rintro ⟨payload, hpayload, h⟩
        obtain rfl : v = payload := Option.some.inj hpayload
        exact h
  | succ depth ih =>
      cases v with
      | none =>
          constructor
          · intro h
            simp [nested, nullable_encode_none] at h
          · rintro ⟨payload, hpayload, -⟩
            simp [Nested.payload?] at hpayload
      | some v => exact nullable_encode_some_eq_error.trans ih

/-- What the coder of nested options makes of the coder inside it. -/
structure WrapsFaithfully (inner : Coder α) (depth : Nat) : Prop where
  roundTrips : ∀ v : Nested α depth,
    (∀ payload, Nested.payload? depth v = some payload → inner.RoundTrips payload) →
      (nested inner depth).RoundTrips v
  /-- A value that is empty at some level is written, and not as any other value is. -/
  absent : ∀ v : Nested α depth, Nested.payload? depth v = none →
    ∃ code, (nested inner depth).encode v = .ok code ∧
      ∀ w, (nested inner depth).encode w = .ok code → w = v
  fails_iff : ∀ (v : Nested α depth) cause, (nested inner depth).encode v = .error cause ↔
    ∃ payload, Nested.payload? depth v = some payload ∧ inner.encode payload = .error cause

theorem wrapsFaithfully (inner : Coder α) (depth : Nat) : WrapsFaithfully inner depth where
  roundTrips := fun _ => nested_roundTrips
  absent := by
    intro v habsent
    obtain ⟨code, hcode, -⟩ : (nested inner depth).RoundTrips v := by
      apply nested_roundTrips
      intro payload hpayload
      simp [habsent] at hpayload
    exact ⟨code, hcode, fun w hw => (eq_of_nested_encode habsent hcode hw).symm⟩
  fails_iff := fun _ _ => nested_encode_eq_error_iff

/-- The library's own coders read back all that they write, and wrapping any coder for options, to
any depth, reads back what the coder does, keeps empty options apart from all other values at each
level, and fails just as the coder fails. -/
theorem decode_undoes_encode :
    (∀ v, bigEndian32.RoundTrips v) ∧ (∀ v, varint32.RoundTrips v) ∧
      (∀ v, varint64.RoundTrips v) ∧ (∀ v, utf8.RoundTrips v) ∧ (∀ v, bytes.RoundTrips v) ∧
      ∀ (α : Type) (inner : Coder α) (depth : Nat), WrapsFaithfully inner depth :=
  ⟨roundTrips_bigEndian32, roundTrips_varint32, roundTrips_varint64, roundTrips_utf8,
    roundTrips_bytes, fun _ => wrapsFaithfully⟩

end BundledReading.Coder

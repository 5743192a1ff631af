import BundledReading.Config.Typed
import BundledReading.Proofs.Config.DistinctKeys
import BundledReading.Proofs.WrittenNumbers

/-!
# Conversions

What a value of a document, or a variable's text, says as a number of 64 bits, as a floating-point
number and as text is told by one rule for each kind of value. A whole number from `2 ^ 63` on
counts as the floating-point number nearest to it. A setting is converted exactly as the document
says that it comes from.
-/

namespace BundledReading.Config

open Numeric

/-! ## What documents say -/

/-- What a floating-point number says as a number of 64 bits: the nearest whole number, a half going
up, or zero if it is negative or no number, or the greatest if it is too large. -/
def roundedWord (x : Binary64) : Nat :=
  if x.isNaN || x.isNegative then 0
  else if x.isInfinite then 2 ^ 64 - 1
  else min ⌊x.value + 1 / 2⌋₊ (2 ^ 64 - 1)

/-- A word for a truth value, in any case. -/
inductive TruthWord (text : String) : Bool → Prop
  | true (h : Text.LowerCase.toLower text ∈ ["true", "on", "yes"]) : TruthWord text true
  | false (h : Text.LowerCase.toLower text ∈ ["false", "off", "no"]) : TruthWord text false

/-- Digits of a number below `2 ^ 64`, perhaps behind a plus sign. -/
structure WordText (text : List Char) (n : Nat) : Prop where
  lt : n < 2 ^ 64
  digits : ∃ ds, ds ≠ [] ∧ (∀ c ∈ ds, c.isDigit) ∧ Nat.ofDigitChars 10 ds 0 = n ∧
    (text = ds ∨ text = '+' :: ds)

/-- What a document says as a number of 64 bits. -/
inductive SaysWord : Document → Nat → Prop
  | integer {n : Nat} (h : n < 2 ^ 63) : SaysWord (.scalar (.integer n)) n
  | large {n : Nat} {x : Binary64} (h : 2 ^ 63 ≤ n) (hx : x.IsNearest false n) :
      SaysWord (.scalar (.integer n)) (roundedWord x)
  | float (x : Binary64) : SaysWord (.scalar (.float x)) (roundedWord x)
  | bool (truth : Bool) : SaysWord (.scalar (.bool truth)) truth.toNat
  | truth {text : String} {truth : Bool} (h : TruthWord text truth) :
      SaysWord (.scalar (.text text)) truth.toNat
  | number {text : String} {n : Nat} (hword : ∀ truth, ¬TruthWord text truth)
      (h : WordText text.toList n) : SaysWord (.scalar (.text text)) n

/-- What a document says as a floating-point number. -/
inductive SaysFraction : Document → Binary64 → Prop
  | float (x : Binary64) : SaysFraction (.scalar (.float x)) x
  | integer {n : Int} {x : Binary64} (hx : x.IsNearest (n < 0) n.natAbs) :
      SaysFraction (.scalar (.integer n)) x
  | bool {truth : Bool} {x : Binary64} (hx : x.IsNearest false truth.toNat) :
      SaysFraction (.scalar (.bool truth)) x
  | truth {text : String} {truth : Bool} {x : Binary64} (h : TruthWord text truth)
      (hx : x.IsNearest false truth.toNat) : SaysFraction (.scalar (.text text)) x
  | number {text : String} {x : Binary64} (hword : ∀ truth, ¬TruthWord text truth)
      (h : Binary64.Spells text.toList x) : SaysFraction (.scalar (.text text)) x

/-- What a document says as text. -/
inductive SaysText : Document → String → Prop
  | text (text : String) : SaysText (.scalar (.text text)) text
  | bool (truth : Bool) : SaysText (.scalar (.bool truth)) (if truth then "true" else "false")
  | integer {n : Int} (h : n < 2 ^ 63) : SaysText (.scalar (.integer n)) (toString n)
  | large {n : Int} {x : Binary64} {text : String} (h : 2 ^ 63 ≤ n)
      (hx : x.IsNearest false n.natAbs) (htext : x.Writes text.toList) :
      SaysText (.scalar (.integer n)) text
  | float {x : Binary64} {text : String} (htext : x.Writes text.toList) :
      SaysText (.scalar (.float x)) text

/-! ## Words -/

section Words

variable {text : String} {truth : Bool} {n : Nat}

theorem truthWord?_eq_some_iff : Setting.truthWord? text = some truth ↔ TruthWord text truth := by
  unfold Setting.truthWord?
  dsimp only
  constructor
  · intro h
    split at h
    next htrue => exact Option.some.inj h ▸ .true htrue
    · split at h
      next hfalse => exact Option.some.inj h ▸ .false hfalse
      · cases h
  · rintro (htrue | hfalse)
    · rw [if_pos htrue]
    · have hnot : Text.LowerCase.toLower text ∉ ["true", "on", "yes"] := by
        intro htrue
        simp only [List.mem_cons, List.not_mem_nil, or_false] at htrue hfalse
        rcases htrue with h | h | h <;> rw [h] at hfalse <;> revert hfalse <;> decide
      rw [if_neg hnot, if_pos hfalse]

theorem truthWord?_eq_none_iff :
    Setting.truthWord? text = none ↔ ∀ truth, ¬TruthWord text truth := by
  simp only [← truthWord?_eq_some_iff, Option.eq_none_iff_forall_ne_some, ne_eq]

theorem eq_or_eq_withoutPlus (cs : List Char) :
    cs = Setting.withoutPlus cs ∨ cs = '+' :: Setting.withoutPlus cs := by
  unfold Setting.withoutPlus
  split
  · exact .inr rfl
  · exact .inl rfl

theorem withoutPlus_eq {cs ds : List Char} (hdigits : ∀ c ∈ ds, c.isDigit)
    (h : cs = ds ∨ cs = '+' :: ds) : Setting.withoutPlus cs = ds := by
  rcases h with rfl | rfl
  · unfold Setting.withoutPlus
    split
    next rest => cases hdigits '+' List.mem_cons_self
    · rfl
  · rfl

theorem parseWord?_eq_some_iff : Setting.parseWord? text = some n ↔ WordText text.toList n := by
  have hmax : wordMax = 2 ^ 64 - 1 := rfl
  unfold Setting.parseWord?
  dsimp only
  constructor
  · intro h
    split at h
    · cases h
    next hdigits =>
      simp only [Bool.or_eq_true, List.isEmpty_iff, Bool.not_eq_true', not_or, Bool.not_eq_false,
        List.all_eq_true] at hdigits
      split at h
      next hle =>
        cases h
        exact ⟨by omega, _, hdigits.1, hdigits.2, rfl, eq_or_eq_withoutPlus _⟩
      · cases h
  · rintro ⟨hlt, ds, hfilled, hdigits, rfl, htext⟩
    have hall : ds.all Char.isDigit = true := List.all_eq_true.mpr hdigits
    have hempty : ds.isEmpty = false := by simpa using hfilled
    have hle : Nat.ofDigitChars 10 ds 0 ≤ wordMax := by omega
    rw [withoutPlus_eq hdigits htext, hall, hempty, if_neg (by decide), if_pos hle]

end Words

/-! ## Settings -/

section Settings

variable {origin : Option String} {document : Document}

theorem toNatSaturating_round (x : Binary64) :
    x.round.toNatSaturating wordMax = roundedWord x := by
  unfold roundedWord
  by_cases hnan : x.isNaN
  · simp [Binary64.round, Binary64.toNatSaturating, hnan]
  by_cases hinfinite : x.isInfinite
  · simp [Binary64.round, Binary64.toNatSaturating, hnan, hinfinite]
    rfl
  have hmagnitude : x.magnitude < Binary64.infinityMagnitude := by
    simp only [Binary64.isNaN, Binary64.isInfinite, decide_eq_true_eq] at hnan hinfinite
    omega
  by_cases hnegative : x.isNegative
  · have hround := x.representable_units.round_mul_unitsPerOne (Binary64.units_lt_of_lt hmagnitude)
    have hsign := (Binary64.ofUnits_facts true hround.1).1
    simp [Binary64.round, Binary64.toNatSaturating, hnan, hinfinite, hnegative, hsign]
  · have hfinite : x.IsFinite := ⟨by simpa using hnegative, hmagnitude⟩
    obtain ⟨hround, hvalue⟩ := Binary64.round_spec hfinite
    rw [Binary64.toNatSaturating_eq hround, hvalue, Nat.floor_natCast]
    simp [hnan, hnegative, hinfinite]
    rfl

theorem roundedWord_lt (x : Binary64) : roundedWord x < 2 ^ 64 := by
  unfold roundedWord
  split
  · omega
  · split <;> omega

theorem SaysWord.lt {n : Nat} (h : SaysWord document n) : n < 2 ^ 64 := by
  cases h with
  | integer h => omega
  | large => exact roundedWord_lt _
  | float => exact roundedWord_lt _
  | bool truth => cases truth <;> decide
  | @truth text truth => cases truth <;> decide
  | number _ h => exact h.lt

theorem kept_of_lt {n : Int} (h : n < 2 ^ 63) : (Scalar.integer n).kept = .integer n := if_pos h

/-- A large whole number is kept as the number nearest to it. -/
theorem kept_of_le {n : Int} (h : 2 ^ 63 ≤ n) :
    ∃ x, (Scalar.integer n).kept = .float x ∧ x.IsNearest false n.natAbs := by
  have hsign : decide (n < 0) = false := by
    rw [decide_eq_false_iff_not]
    omega
  exact ⟨_, if_neg (not_lt.mpr h), hsign ▸ Binary64.isNearest_ofInt n⟩

/-- A whole number is negative, or small, or large. -/
theorem integer_cases (n : Int) :
    n < 0 ∨ (∃ k : Nat, k < 2 ^ 63 ∧ n = k) ∨ ∃ k : Nat, 2 ^ 63 ≤ k ∧ n = k := by
  rcases lt_or_ge n 0 with hneg | hpos
  · exact .inl hneg
  · obtain ⟨k, rfl⟩ := Int.eq_ofNat_of_zero_le hpos
    rcases Nat.lt_or_ge k (2 ^ 63) with hlt | hge
    · exact .inr (.inl ⟨k, hlt, rfl⟩)
    · exact .inr (.inr ⟨k, hge, rfl⟩)

theorem saysWord_of_toWord {n : Nat} (h : (Setting.ofDocument origin document).toWord = .ok n) :
    SaysWord document n := by
  cases document with
  | array items => cases h
  | table fields => cases h
  | scalar value =>
      rw [Setting.ofDocument] at h
      cases value with
      | unit => cases h
      | bool truth => cases truth <;> cases h <;> exact .bool _
      | float x =>
          cases h
          rw [toNatSaturating_round]
          exact .float x
      | text text =>
          simp only [Scalar.kept, Setting.toWord] at h
          split at h
          next truth htruth =>
            cases h
            cases truth <;> exact .truth (truthWord?_eq_some_iff.mp htruth)
          next hnone =>
            split at h
            next n hn =>
              cases h
              exact .number (truthWord?_eq_none_iff.mp hnone) (parseWord?_eq_some_iff.mp hn)
            · cases h
      | integer n =>
          rcases integer_cases n with hneg | ⟨k, hlt, rfl⟩ | ⟨k, hle, rfl⟩
          · rw [kept_of_lt (by omega), Setting.toWord, if_pos hneg] at h
            cases h
          · rw [kept_of_lt (by omega), Setting.toWord, if_neg (by omega)] at h
            cases h
            exact .integer hlt
          · obtain ⟨x, hkept, hx⟩ := kept_of_le (n := k) (by omega)
            rw [hkept, Setting.toWord, toNatSaturating_round] at h
            cases h
            exact .large hle hx

theorem SaysWord.toWord_eq {n : Nat} (h : SaysWord document n) :
    (Setting.ofDocument origin document).toWord = .ok n := by
  cases h with
  | @integer n h =>
      rw [Setting.ofDocument, kept_of_lt (by omega), Setting.toWord, if_neg (by omega)]
      rfl
  | @large n x h hx =>
      obtain ⟨y, hkept, hy⟩ := kept_of_le (n := n) (by omega)
      rw [Setting.ofDocument, hkept, Setting.toWord, toNatSaturating_round, hx.unique hy]
  | float x => exact congrArg Except.ok (toNatSaturating_round x)
  | bool truth => cases truth <;> rfl
  | @truth text truth h =>
      simp only [Setting.ofDocument, Scalar.kept, Setting.toWord, truthWord?_eq_some_iff.mpr h]
      cases truth <;> rfl
  | number hword h =>
      simp only [Setting.ofDocument, Scalar.kept, Setting.toWord,
        truthWord?_eq_none_iff.mpr hword, parseWord?_eq_some_iff.mpr h]

/-- A setting is converted to a number of 64 bits exactly as its document says. -/
theorem toUInt64_ofDocument_eq_ok_iff {word : UInt64} :
    (Setting.ofDocument origin document).toUInt64 = .ok word ↔ SaysWord document word.toNat := by
  unfold Setting.toUInt64
  constructor
  · intro h
    obtain ⟨n, hn, rfl⟩ := exists_of_map_eq_ok h
    have htold := saysWord_of_toWord hn
    rwa [UInt64.toNat_ofNat_of_lt' htold.lt]
  · intro h
    rw [h.toWord_eq]
    exact congrArg Except.ok UInt64.ofNat_toNat

/-! ## Floating-point numbers -/

theorem isNearest_truth (truth : Bool) :
    (Binary64.ofNat (if truth then 1 else 0)).IsNearest false truth.toNat := by
  have hnearest := Binary64.isNearest_ofQuotient false truth.toNat Nat.one_pos
  rw [Nat.cast_one, div_one] at hnearest
  cases truth <;> exact hnearest

/-- A setting is converted to a floating-point number exactly as its document says. -/
theorem toFloat_ofDocument_eq_ok_iff {x : Binary64} :
    (Setting.ofDocument origin document).toFloat = .ok x ↔ SaysFraction document x := by
  constructor
  · intro h
    cases document with
    | array items => cases h
    | table fields => cases h
    | scalar value =>
        rw [Setting.ofDocument] at h
        cases value with
        | unit => cases h
        | bool truth =>
            obtain rfl := Except.ok.inj h
            exact .bool (isNearest_truth truth)
        | float y =>
            obtain rfl := Except.ok.inj h
            exact .float y
        | text text =>
            simp only [Scalar.kept, Setting.toFloat] at h
            split at h
            next truth htruth =>
              obtain rfl := Except.ok.inj h
              exact .truth (truthWord?_eq_some_iff.mp htruth) (isNearest_truth truth)
            next hnone =>
              split at h
              next y hy =>
                obtain rfl := Except.ok.inj h
                exact .number (truthWord?_eq_none_iff.mp hnone)
                  (Binary64.parse?_eq_some_iff.mp hy)
              · cases h
        | integer n =>
            apply SaysFraction.integer
            by_cases hlt : n < 2 ^ 63
            · rw [kept_of_lt hlt] at h
              obtain rfl := Except.ok.inj h
              exact Binary64.isNearest_ofInt n
            · have hkept : (Scalar.integer n).kept = .float (.ofInt n) := if_neg hlt
              rw [hkept] at h
              obtain rfl := Except.ok.inj h
              exact Binary64.isNearest_ofInt n
  · intro h
    cases h with
    | float x => rfl
    | @integer n x hx =>
        rw [hx.unique (Binary64.isNearest_ofInt n), Setting.ofDocument, Scalar.kept]
        split <;> rfl
    | @bool truth x hx =>
        rw [hx.unique (isNearest_truth truth)]
        rfl
    | @truth text truth x h hx =>
        rw [hx.unique (isNearest_truth truth)]
        simp only [Setting.ofDocument, Scalar.kept, Setting.toFloat, truthWord?_eq_some_iff.mpr h]
    | number hword h =>
        simp only [Setting.ofDocument, Scalar.kept, Setting.toFloat,
          truthWord?_eq_none_iff.mpr hword, Binary64.parse?_eq_some_iff.mpr h]

/-! ## Texts -/

/-- A setting is converted to text exactly as its document says. -/
theorem toText_ofDocument_eq_ok_iff {text : String} :
    (Setting.ofDocument origin document).toText = .ok text ↔ SaysText document text := by
  constructor
  · intro h
    cases document with
    | array items => cases h
    | table fields => cases h
    | scalar value =>
        rw [Setting.ofDocument] at h
        cases value with
        | unit => cases h
        | bool truth => cases truth <;> cases h <;> exact .bool _
        | float x =>
            cases h
            exact .float (Binary64.writes_iff.mpr rfl)
        | text text =>
            cases h
            exact .text text
        | integer n =>
            by_cases hlt : n < 2 ^ 63
            · rw [kept_of_lt hlt] at h
              cases h
              exact .integer hlt
            · obtain ⟨x, hkept, hx⟩ := kept_of_le (not_lt.mp hlt)
              rw [hkept] at h
              cases h
              exact .large (not_lt.mp hlt) hx (Binary64.writes_iff.mpr rfl)
  · intro h
    cases h with
    | text text => rfl
    | bool truth => cases truth <;> rfl
    | float htext =>
        exact congrArg Except.ok (String.toList_inj.mp (Binary64.writes_iff.mp htext))
    | integer h =>
        rw [Setting.ofDocument, kept_of_lt h]
        rfl
    | large h hx htext =>
        obtain ⟨y, hkept, hy⟩ := kept_of_le h
        rw [Setting.ofDocument, hkept, ← hx.unique hy]
        exact congrArg Except.ok (String.toList_inj.mp (Binary64.writes_iff.mp htext))

end Settings

end BundledReading.Config

import BundledReading.Element
import BundledReading.Proofs.Utf8Forms

/-!
# The layout of the compact format

Values are put into the compact format by a serializer, which is a parameter here. What is relied on
is its documented layout (`Serializer.Documented`): what it writes for each kind of value, and
exactly from which bytes it reads which value. Why it refuses other bytes does not matter. The
serializer of the coders keeps the layout (`documented_standard`).
-/

namespace BundledReading

namespace Compact

/-- The formats that a serializer gives: those of plain values, and those of composite ones from the
formats of their parts. -/
structure Serializer where
  nat : Nat → Compact Nat
  bool : Compact Bool
  char : Compact Char
  text : Compact String
  unit : Compact Unit
  option {α : Type} : Compact α → Compact (Option α)
  list {α : Type} : Compact α → Compact (List α)
  pair {α β : Type} : Compact α → Compact β → Compact (α × β)
  choice {α β γ : Type} : Compact α → Compact β → Compact γ → Compact (α ⊕ β ⊕ γ)

/-- Values are read one after the other. -/
inductive ReadsAll {α : Type} (format : Compact α) : Bytes → List α → Bytes → Prop
  | nil (rest : Bytes) : ReadsAll format rest [] rest
  | cons {bytes more rest : Bytes} {v : α} {vs : List α}
      (hfirst : format.read bytes = .ok (v, more)) (hrest : ReadsAll format more vs rest) :
      ReadsAll format bytes (v :: vs) rest

/-- The documented layout: integers have a fixed width and begin with the lowest byte, truth values
are one byte, characters and texts are UTF-8, lengths stand in front in eight bytes, options begin
with a tag byte and variants with their number in four bytes, and parts follow each other. What
stands behind a value is left. -/
structure Serializer.Documented (s : Serializer) : Prop where
  write_nat : ∀ width n, (s.nat width).write n = Bytes.littleEndian width n
  read_nat : ∀ width bytes n rest, (s.nat width).read bytes = .ok (n, rest) ↔
    ∃ word, bytes = word ++ rest ∧ word.length = width ∧ n = Bytes.ofLittleEndian word
  write_bool : ∀ v, s.bool.write v = [if v then 1 else 0]
  read_bool : ∀ bytes v rest,
    s.bool.read bytes = .ok (v, rest) ↔ bytes = (if v then 1 else 0) :: rest
  write_char : ∀ c, s.char.write c = Text.Utf8.encodeChar c
  read_char : ∀ bytes c rest,
    s.char.read bytes = .ok (c, rest) ↔ bytes = Text.Utf8.encodeChar c ++ rest
  write_text : ∀ v, s.text.write v =
    (s.nat 8).write (Text.Utf8.encode v).length ++ Text.Utf8.encode v
  read_text : ∀ bytes v rest, s.text.read bytes = .ok (v, rest) ↔
    (s.nat 8).read bytes = .ok ((Text.Utf8.encode v).length, Text.Utf8.encode v ++ rest)
  write_unit : s.unit.write () = []
  read_unit : ∀ bytes v rest, s.unit.read bytes = .ok (v, rest) ↔ bytes = rest
  write_none : ∀ {α : Type} (format : Compact α), (s.option format).write none = [0]
  write_some : ∀ {α : Type} (format : Compact α) v,
    (s.option format).write (some v) = 1 :: format.write v
  read_none : ∀ {α : Type} (format : Compact α) bytes rest,
    (s.option format).read bytes = .ok (none, rest) ↔ bytes = 0 :: rest
  read_some : ∀ {α : Type} (format : Compact α) bytes v rest,
    (s.option format).read bytes = .ok (some v, rest) ↔
      ∃ tail, bytes = 1 :: tail ∧ format.read tail = .ok (v, rest)
  write_list : ∀ {α : Type} (format : Compact α) vs,
    (s.list format).write vs = (s.nat 8).write vs.length ++ vs.flatMap format.write
  read_list : ∀ {α : Type} (format : Compact α) bytes vs rest,
    (s.list format).read bytes = .ok (vs, rest) ↔
      ∃ more, (s.nat 8).read bytes = .ok (vs.length, more) ∧ ReadsAll format more vs rest
  write_pair : ∀ {α β : Type} (first : Compact α) (second : Compact β) v,
    (s.pair first second).write v = first.write v.1 ++ second.write v.2
  read_pair : ∀ {α β : Type} (first : Compact α) (second : Compact β) bytes v rest,
    (s.pair first second).read bytes = .ok (v, rest) ↔
      ∃ more, first.read bytes = .ok (v.1, more) ∧ second.read more = .ok (v.2, rest)
  write_first : ∀ {α β γ : Type} (first : Compact α) (second : Compact β) (third : Compact γ) v,
    (s.choice first second third).write (.inl v) = (s.nat 4).write 0 ++ first.write v
  write_second : ∀ {α β γ : Type} (first : Compact α) (second : Compact β) (third : Compact γ) v,
    (s.choice first second third).write (.inr (.inl v)) = (s.nat 4).write 1 ++ second.write v
  write_third : ∀ {α β γ : Type} (first : Compact α) (second : Compact β) (third : Compact γ) v,
    (s.choice first second third).write (.inr (.inr v)) = (s.nat 4).write 2 ++ third.write v
  read_first : ∀ {α β γ : Type} (first : Compact α) (second : Compact β) (third : Compact γ)
    bytes v rest, (s.choice first second third).read bytes = .ok (.inl v, rest) ↔
      ∃ more, (s.nat 4).read bytes = .ok (0, more) ∧ first.read more = .ok (v, rest)
  read_second : ∀ {α β γ : Type} (first : Compact α) (second : Compact β) (third : Compact γ)
    bytes v rest, (s.choice first second third).read bytes = .ok (.inr (.inl v), rest) ↔
      ∃ more, (s.nat 4).read bytes = .ok (1, more) ∧ second.read more = .ok (v, rest)
  read_third : ∀ {α β γ : Type} (first : Compact α) (second : Compact β) (third : Compact γ)
    bytes v rest, (s.choice first second third).read bytes = .ok (.inr (.inr v), rest) ↔
      ∃ more, (s.nat 4).read bytes = .ok (2, more) ∧ third.read more = .ok (v, rest)

/-! ## Element types -/

namespace Serializer

variable (s : Serializer)

/-- The formats of integers are those of natural numbers under other names. -/
def uint8 : Compact UInt8 := (s.nat 1).via UInt8.ofNat UInt8.toNat

def uint64 : Compact UInt64 := (s.nat 8).via UInt64.ofNat UInt64.toNat

def int32 : Compact Int32 :=
  (s.nat 4).via (fun n => (UInt32.ofNat n).toInt32) (fun v => v.toUInt32.toNat)

def int64 : Compact Int64 :=
  (s.nat 8).via (fun n => (UInt64.ofNat n).toInt64) (fun v => v.toUInt64.toNat)

def binary64 : Compact Numeric.Binary64 := s.uint64.via Numeric.Binary64.mk Numeric.Binary64.bits

/-- The formats of declared types are made of those of their parts, in order. -/
def point : Compact Point :=
  (s.pair s.int64 s.text).via (fun p => ⟨p.1, p.2⟩) fun p => (p.x, p.label)

def event : Compact Event :=
  (s.pair s.uint64 (s.list s.text)).via (fun p => ⟨p.1, p.2⟩) fun e => (e.id, e.tags)

def shape : Compact Shape :=
  (s.choice s.unit s.text (s.pair s.int32 (s.option s.uint8))).via
    (fun
      | .inl () => .empty
      | .inr (.inl name) => .named name
      | .inr (.inr (width, height)) => .rect width height)
    (fun
      | .empty => .inl ()
      | .named name => .inr (.inl name)
      | .rect width height => .inr (.inr (width, height)))

/-- The format that a serializer gives for an element type. -/
def ofType : (t : ElementType) → Compact t.Carrier
  | .int32 => s.int32
  | .int64 => s.int64
  | .text => s.text
  | .bytes => s.list s.uint8
  | .bool => s.bool
  | .char => s.char
  | .float => s.binary64
  | .optional inner => s.option (ofType inner)
  | .point _ => s.point
  | .event _ => s.event
  | .shape _ => s.shape

end Serializer

/-! ## The serializer of the coders -/

/-- The serializer that the coders use. -/
def standard : Serializer where
  nat := nat
  bool := bool
  char := char
  text := text
  unit := unit
  option := option
  list := list
  pair := pair
  choice := choice

theorem ofType_standard (t : ElementType) : standard.ofType t = t.compact := by
  induction t with
  | optional inner ih => exact congrArg option ih
  | _ => rfl

section Standard

variable {α β γ : Type} {bytes rest : Bytes}

/-- What is read in two steps is read by both. -/
theorem bind_eq_ok_iff {first : Except CompactError (α × Bytes)}
    {next : α × Bytes → Except CompactError (β × Bytes)} {b : β} :
    first >>= next = .ok (b, rest) ↔
      ∃ a more, first = .ok (a, more) ∧ next (a, more) = .ok (b, rest) := by
  cases first with
  | error cause => simp [bind, Except.bind]
  | ok found =>
      obtain ⟨a, more⟩ := found
      simp [bind, Except.bind]

theorem read_nat_iff {width n : Nat} :
    (nat width).read bytes = .ok (n, rest) ↔
      ∃ word, bytes = word ++ rest ∧ word.length = width ∧ n = Bytes.ofLittleEndian word := by
  simp only [nat, take]
  constructor
  · intro h
    split at h
    next hlength =>
      cases h
      exact ⟨bytes.take width, (List.take_append_drop width bytes).symm, hlength, rfl⟩
    next => cases h
  · rintro ⟨word, rfl, rfl, rfl⟩
    simp [bind, Except.bind, pure, Except.pure]

theorem read_nat_one_iff {n : Nat} :
    (nat 1).read bytes = .ok (n, rest) ↔ ∃ b : UInt8, bytes = b :: rest ∧ n = b.toNat := by
  rw [read_nat_iff]
  constructor
  · rintro ⟨word, rfl, hlength, rfl⟩
    obtain ⟨b, rfl⟩ := List.length_eq_one_iff.mp hlength
    exact ⟨b, rfl, by simp [Bytes.ofLittleEndian]⟩
  · rintro ⟨b, rfl, rfl⟩
    exact ⟨[b], rfl, rfl, by simp [Bytes.ofLittleEndian]⟩

theorem read_bool_iff {v : Bool} :
    bool.read bytes = .ok (v, rest) ↔ bytes = (if v then 1 else 0) :: rest := by
  simp only [bool, bind_eq_ok_iff, read_nat_one_iff]
  constructor
  · rintro ⟨-, more, ⟨b, rfl, rfl⟩, h⟩
    split at h
    next hzero =>
      cases h
      rw [UInt8.toNat_inj.mp (hzero.trans UInt8.toNat_zero.symm)]
      rfl
    · split at h
      next hone =>
        cases h
        rw [UInt8.toNat_inj.mp (hone.trans UInt8.toNat_one.symm)]
        rfl
      · cases h
  · rintro rfl
    cases v
    · exact ⟨0, rest, ⟨0, rfl, rfl⟩, rfl⟩
    · exact ⟨1, rest, ⟨1, rfl, rfl⟩, rfl⟩

theorem read_char_iff {c : Char} :
    char.read bytes = .ok (c, rest) ↔ bytes = Text.Utf8.encodeChar c ++ rest := by
  constructor
  · intro h
    cases bytes with
    | nil => cases h
    | cons b tail =>
        simp only [char] at h
        cases hchar : Text.Utf8.decodeChar b tail with
        | error flaw => simp [hchar, Except.mapError] at h
        | ok found =>
            obtain rfl : found = (c, rest) := by simpa [hchar, Except.mapError] using h
            exact Text.Utf8.cons_eq_of_decodeChar hchar
  · rintro rfl
    obtain ⟨b, tail, hcode, hspells⟩ := Text.Utf8.exists_form c
    simp only [char, hcode, List.cons_append, Text.Utf8.decodeChar_append hspells]
    rfl

theorem read_text_iff {v : String} :
    text.read bytes = .ok (v, rest) ↔
      (nat 8).read bytes = .ok ((Text.Utf8.encode v).length, Text.Utf8.encode v ++ rest) := by
  simp only [text, bind_eq_ok_iff]
  constructor
  · rintro ⟨length, more, hlength, h⟩
    split at h
    next => cases h
    next hlong =>
      cases hbody : Text.Utf8.decode (more.take length) with
      | error fault => simp [hbody, Except.mapError, bind, Except.bind] at h
      | ok found =>
          rw [hbody] at h
          cases h
          have hcode := Text.Utf8.encode_of_decode hbody
          rw [hlength, hcode, List.take_append_drop, List.length_take]
          congr 2
          omega
  · intro h
    refine ⟨_, _, h, ?_⟩
    simp [Text.Utf8.decode_encode, Except.mapError, bind, Except.bind, pure, Except.pure]

theorem read_option_iff (format : Compact α) {v : Option α} :
    format.option.read bytes = .ok (v, rest) ↔
      (v = none ∧ bytes = 0 :: rest) ∨
        ∃ w tail, v = some w ∧ bytes = 1 :: tail ∧ format.read tail = .ok (w, rest) := by
  simp only [option, bind_eq_ok_iff, read_nat_one_iff]
  constructor
  · rintro ⟨-, more, ⟨b, rfl, rfl⟩, h⟩
    split at h
    next hzero =>
      cases h
      exact .inl ⟨rfl, by rw [UInt8.toNat_inj.mp (hzero.trans UInt8.toNat_zero.symm)]⟩
    · split at h
      next hone =>
        obtain ⟨w, tail, hread, heq⟩ := bind_eq_ok_iff.mp h
        cases heq
        exact .inr ⟨w, more, rfl, by rw [UInt8.toNat_inj.mp (hone.trans UInt8.toNat_one.symm)], hread⟩
      · cases h
  · rintro (⟨rfl, rfl⟩ | ⟨w, tail, rfl, rfl, hread⟩)
    · exact ⟨0, rest, ⟨0, rfl, rfl⟩, rfl⟩
    · exact ⟨1, tail, ⟨1, rfl, rfl⟩, bind_eq_ok_iff.mpr ⟨w, rest, hread, rfl⟩⟩

theorem readMany_iff (format : Compact α) {count : Nat} {vs : List α} :
    readMany format count bytes = .ok (vs, rest) ↔
      vs.length = count ∧ ReadsAll format bytes vs rest := by
  induction count generalizing bytes vs with
  | zero =>
      constructor
      · intro h
        cases h
        exact ⟨rfl, .nil rest⟩
      · rintro ⟨hlength, hreads⟩
        obtain rfl := List.length_eq_zero_iff.mp hlength
        cases hreads
        rfl
  | succ count ih =>
      rw [readMany, bind_eq_ok_iff]
      constructor
      · rintro ⟨v, more, hfirst, h⟩
        obtain ⟨vs, last, hrest, heq⟩ := bind_eq_ok_iff.mp h
        cases heq
        obtain ⟨rfl, hreads⟩ := ih.mp hrest
        exact ⟨rfl, .cons hfirst hreads⟩
      · rintro ⟨hlength, hreads⟩
        cases hreads with
        | nil => simp at hlength
        | cons hfirst hrest =>
            refine ⟨_, _, hfirst, bind_eq_ok_iff.mpr ⟨_, _, ih.mpr ⟨?_, hrest⟩, rfl⟩⟩
            simpa using hlength

theorem read_list_iff (format : Compact α) {vs : List α} :
    format.list.read bytes = .ok (vs, rest) ↔
      ∃ more, (nat 8).read bytes = .ok (vs.length, more) ∧ ReadsAll format more vs rest := by
  simp only [list, bind_eq_ok_iff, readMany_iff]
  constructor
  · rintro ⟨_, more, hlength, rfl, hreads⟩
    exact ⟨more, hlength, hreads⟩
  · rintro ⟨more, hlength, hreads⟩
    exact ⟨_, more, hlength, rfl, hreads⟩

theorem read_pair_iff (first : Compact α) (second : Compact β) {v : α × β} :
    (first.pair second).read bytes = .ok (v, rest) ↔
      ∃ more, first.read bytes = .ok (v.1, more) ∧ second.read more = .ok (v.2, rest) := by
  simp only [pair, bind_eq_ok_iff]
  constructor
  · rintro ⟨a, more, hfirst, b, last, hsecond, heq⟩
    cases heq
    exact ⟨more, hfirst, hsecond⟩
  · rintro ⟨more, hfirst, hsecond⟩
    exact ⟨v.1, more, hfirst, v.2, rest, hsecond, rfl⟩

theorem read_choice_iff (first : Compact α) (second : Compact β) (third : Compact γ)
    {v : α ⊕ β ⊕ γ} :
    (first.choice second third).read bytes = .ok (v, rest) ↔
      (∃ a more, v = .inl a ∧ (nat 4).read bytes = .ok (0, more) ∧
          first.read more = .ok (a, rest)) ∨
        (∃ b more, v = .inr (.inl b) ∧ (nat 4).read bytes = .ok (1, more) ∧
          second.read more = .ok (b, rest)) ∨
        ∃ c more, v = .inr (.inr c) ∧ (nat 4).read bytes = .ok (2, more) ∧
          third.read more = .ok (c, rest) := by
  simp only [choice, bind_eq_ok_iff]
  constructor
  · rintro ⟨variant, more, hvariant, h⟩
    split at h
    next hzero =>
      obtain ⟨a, last, hread, heq⟩ := bind_eq_ok_iff.mp h
      cases heq
      exact .inl ⟨a, more, rfl, hzero ▸ hvariant, hread⟩
    · split at h
      next hone =>
        obtain ⟨b, last, hread, heq⟩ := bind_eq_ok_iff.mp h
        cases heq
        exact .inr (.inl ⟨b, more, rfl, hone ▸ hvariant, hread⟩)
      · split at h
        next htwo =>
          obtain ⟨c, last, hread, heq⟩ := bind_eq_ok_iff.mp h
          cases heq
          exact .inr (.inr ⟨c, more, rfl, htwo ▸ hvariant, hread⟩)
        · cases h
  · rintro (⟨a, more, rfl, hvariant, hread⟩ | ⟨b, more, rfl, hvariant, hread⟩ |
      ⟨c, more, rfl, hvariant, hread⟩)
    · exact ⟨0, more, hvariant, bind_eq_ok_iff.mpr ⟨a, rest, hread, rfl⟩⟩
    · exact ⟨1, more, hvariant, bind_eq_ok_iff.mpr ⟨b, rest, hread, rfl⟩⟩
    · exact ⟨2, more, hvariant, bind_eq_ok_iff.mpr ⟨c, rest, hread, rfl⟩⟩

end Standard

/-- The serializer of the coders keeps the documented layout. -/
theorem documented_standard : standard.Documented where
  write_nat := fun _ _ => rfl
  read_nat := fun _ _ _ _ => read_nat_iff
  write_bool := fun _ => rfl
  read_bool := fun _ _ _ => read_bool_iff
  write_char := fun _ => rfl
  read_char := fun _ _ _ => read_char_iff
  write_text := fun _ => rfl
  read_text := fun _ _ _ => read_text_iff
  write_unit := rfl
  read_unit := by simp [standard, unit]
  write_none := fun _ => rfl
  write_some := fun _ _ => rfl
  read_none := fun format bytes rest => by simp [standard, read_option_iff]
  read_some := fun format bytes v rest => by simp [standard, read_option_iff]
  write_list := fun _ _ => rfl
  read_list := fun format _ _ _ => read_list_iff format
  write_pair := fun _ _ _ => rfl
  read_pair := fun first second _ _ _ => read_pair_iff first second
  write_first := fun _ _ _ _ => rfl
  write_second := fun _ _ _ _ => rfl
  write_third := fun _ _ _ _ => rfl
  read_first := fun first second third bytes v rest => by simp [standard, read_choice_iff]
  read_second := fun first second third bytes v rest => by simp [standard, read_choice_iff]
  read_third := fun first second third bytes v rest => by simp [standard, read_choice_iff]

end Compact

end BundledReading

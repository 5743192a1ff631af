import BundledReading.Proofs.CompactLayout

/-!
# Codes that end themselves

A value of the compact format ends where its own bytes say. Two facts about a way of reading carry
this. `ReadsOff`: from a code with anything behind it the value is read, and what stands behind it
is left. `LooksNoFurther`: bytes behind those that were used change nothing but the rest. Both
follow for each format from the documented layout and from the same facts about its parts. A code
that is cut short cannot be read then: whatever was read from the front would be read from the whole
code too, and would leave the missing bytes behind it.

## Implementation notes

Lengths are written in eight bytes, and a greater length would lose its high bytes. So a value is
read back only if all its lengths fit, as those of all texts and lists in memory do. Each format
comes with the predicate that says so of its values.
-/

namespace BundledReading

namespace Compact

variable {α β γ : Type}

/-! ## Reading off the front -/

/-- A way to read a value off the front of a byte string. -/
abbrev FrontReader (α : Type) : Type := Bytes → Except CompactError (α × Bytes)

namespace FrontReader

variable {read : FrontReader α}

/-- The code is read as the value, and what stands behind it is left. -/
def ReadsOff (read : FrontReader α) (code : Bytes) (v : α) : Prop :=
  ∀ rest, read (code ++ rest) = .ok (v, rest)

/-- Bytes behind those that a value was read from are left. -/
def LooksNoFurther (read : FrontReader α) : Prop :=
  ∀ bytes v rest more, read bytes = .ok (v, rest) → read (bytes ++ more) = .ok (v, rest ++ more)

/-- From a code that is cut short nothing is read. -/
theorem LooksNoFurther.error_of_cut (h : read.LooksNoFurther) {front missing : Bytes} {v : α}
    (hcode : read.ReadsOff (front ++ missing) v) (hmissing : missing ≠ []) :
    ∃ cause, read front = .error cause := by
  cases hfront : read front with
  | error cause => exact ⟨cause, rfl⟩
  | ok found =>
      obtain ⟨w, rest⟩ := found
      have hwhole := hcode []
      rw [List.append_nil, h front w rest missing hfront] at hwhole
      obtain ⟨-, hrest⟩ := Prod.mk.inj (Except.ok.inj hwhole)
      exact absurd (List.append_eq_nil_iff.mp hrest).2 hmissing

end FrontReader

open FrontReader

/-! ## Formats -/

/-- A format reads what it writes off the front of whatever follows, for the values that `fits`
allows, and never looks at more than it reads. -/
structure Delimits (format : Compact α) (fits : α → Prop) : Prop where
  readsOff : ∀ v, fits v → ReadsOff format.read (format.write v) v
  looksNoFurther : LooksNoFurther format.read

/-- One more than the greatest length that can be written. -/
def lengthLimit : Nat := Nat.pow 256 8

/-- Whether the length of a text can be written. -/
def TextFits (v : String) : Prop := (Text.Utf8.encode v).length < lengthLimit

section Values

variable {format : Compact α} {fits : α → Prop}

theorem Delimits.narrow (h : format.Delimits fits) {narrower : α → Prop}
    (hnarrow : ∀ v, narrower v → fits v) : format.Delimits narrower where
  readsOff := fun v hv => h.readsOff v (hnarrow v hv)
  looksNoFurther := h.looksNoFurther

theorem Delimits.via (h : format.Delimits fits) {forth : α → β} {back : β → α}
    (hback : ∀ b, forth (back b) = b) :
    (format.via forth back).Delimits fun b => fits (back b) where
  readsOff := by
    intro b hb rest
    have hread := h.readsOff (back b) hb rest
    simp only [Compact.via, bind_eq_ok_iff]
    exact ⟨back b, rest, hread, by rw [hback]; rfl⟩
  looksNoFurther := by
    intro bytes b rest more hread
    simp only [Compact.via, bind_eq_ok_iff] at hread ⊢
    obtain ⟨a, behind, ha, heq⟩ := hread
    cases heq
    exact ⟨a, rest ++ more, h.looksNoFurther bytes a rest more ha, rfl⟩

/-- Values written one after the other are read one after the other. -/
theorem Delimits.readsAll (h : format.Delimits fits) {vs : List α} (hvs : ∀ v ∈ vs, fits v)
    (rest : Bytes) : ReadsAll format (vs.flatMap format.write ++ rest) vs rest := by
  induction vs with
  | nil => exact .nil rest
  | cons v vs ih =>
      obtain ⟨hv, hvs⟩ := List.forall_mem_cons.mp hvs
      rw [List.flatMap_cons, List.append_assoc]
      exact .cons (h.readsOff v hv _) (ih hvs)

theorem ReadsAll.append (h : LooksNoFurther format.read) {bytes rest : Bytes} {vs : List α}
    (hreads : ReadsAll format bytes vs rest) (more : Bytes) :
    ReadsAll format (bytes ++ more) vs (rest ++ more) := by
  induction hreads with
  | nil rest => exact .nil _
  | cons hfirst _ ih => exact .cons (h _ _ _ more hfirst) ih

end Values

/-! ## Documented formats -/

namespace Serializer.Documented

variable {s : Serializer} {format : Compact α} {fits : α → Prop}

theorem delimits_nat (hs : s.Documented) (width : Nat) :
    (s.nat width).Delimits (· < Nat.pow 256 width) where
  readsOff := by
    intro n hn rest
    refine (hs.read_nat width _ n rest).mpr ⟨Bytes.littleEndian width n, ?_, ?_, ?_⟩
    · rw [hs.write_nat]
    · exact Bytes.length_littleEndian width n
    · rw [Bytes.ofLittleEndian_littleEndian, Nat.mod_eq_of_lt hn]
  looksNoFurther := by
    intro bytes n rest more h
    obtain ⟨word, rfl, hword⟩ := (hs.read_nat width bytes n rest).mp h
    exact (hs.read_nat width _ n _).mpr ⟨word, List.append_assoc _ _ _, hword⟩

theorem delimits_bool (hs : s.Documented) : s.bool.Delimits fun _ => True where
  readsOff := fun v _ rest => (hs.read_bool _ v rest).mpr (by rw [hs.write_bool]; rfl)
  looksNoFurther := by
    intro bytes v rest more h
    rw [hs.read_bool] at h ⊢
    rw [h, List.cons_append]

theorem delimits_char (hs : s.Documented) : s.char.Delimits fun _ => True where
  readsOff := fun c _ rest => (hs.read_char _ c rest).mpr (by rw [hs.write_char])
  looksNoFurther := by
    intro bytes c rest more h
    rw [hs.read_char] at h ⊢
    rw [h, List.append_assoc]

theorem delimits_text (hs : s.Documented) : s.text.Delimits TextFits where
  readsOff := by
    intro v hv rest
    rw [hs.read_text, hs.write_text, List.append_assoc]
    exact (hs.delimits_nat 8).readsOff _ hv _
  looksNoFurther := by
    intro bytes v rest more h
    rw [hs.read_text] at h ⊢
    rw [← List.append_assoc]
    exact (hs.delimits_nat 8).looksNoFurther _ _ _ more h

theorem delimits_unit (hs : s.Documented) : s.unit.Delimits fun _ => True where
  readsOff := fun v _ rest => (hs.read_unit _ v rest).mpr (by rw [hs.write_unit, List.nil_append])
  looksNoFurther := by
    intro bytes v rest more h
    rw [hs.read_unit] at h ⊢
    rw [h]

theorem delimits_option (hs : s.Documented) (h : format.Delimits fits) :
    (s.option format).Delimits fun v => ∀ w ∈ v, fits w where
  readsOff := by
    rintro (_ | v) hv rest
    · rw [hs.write_none]
      exact (hs.read_none format _ rest).mpr rfl
    · rw [hs.write_some]
      exact (hs.read_some format _ v rest).mpr ⟨_, rfl, h.readsOff v (hv v rfl) rest⟩
  looksNoFurther := by
    rintro bytes (_ | v) rest more hread
    · rw [hs.read_none] at hread ⊢
      rw [hread, List.cons_append]
    · rw [hs.read_some] at hread ⊢
      obtain ⟨tail, rfl, htail⟩ := hread
      exact ⟨tail ++ more, rfl, h.looksNoFurther tail v rest more htail⟩

theorem delimits_list (hs : s.Documented) (h : format.Delimits fits) :
    (s.list format).Delimits fun vs => vs.length < lengthLimit ∧ ∀ v ∈ vs, fits v where
  readsOff := by
    rintro vs ⟨hlength, hvs⟩ rest
    rw [hs.read_list, hs.write_list, List.append_assoc]
    exact ⟨_, (hs.delimits_nat 8).readsOff _ hlength _, h.readsAll hvs rest⟩
  looksNoFurther := by
    intro bytes vs rest more hread
    rw [hs.read_list] at hread ⊢
    obtain ⟨behind, hlength, hreads⟩ := hread
    exact ⟨behind ++ more, (hs.delimits_nat 8).looksNoFurther _ _ _ more hlength,
      hreads.append h.looksNoFurther more⟩

theorem delimits_pair (hs : s.Documented) (h : format.Delimits fits) {second : Compact β}
    {fitsSecond : β → Prop} (hsecond : second.Delimits fitsSecond) :
    (s.pair format second).Delimits fun v => fits v.1 ∧ fitsSecond v.2 where
  readsOff := by
    rintro ⟨a, b⟩ ⟨ha, hb⟩ rest
    rw [hs.read_pair, hs.write_pair, List.append_assoc]
    exact ⟨_, h.readsOff a ha _, hsecond.readsOff b hb rest⟩
  looksNoFurther := by
    intro bytes v rest more hread
    rw [hs.read_pair] at hread ⊢
    obtain ⟨behind, ha, hb⟩ := hread
    exact ⟨behind ++ more, h.looksNoFurther _ _ _ more ha, hsecond.looksNoFurther _ _ _ more hb⟩

theorem delimits_choice (hs : s.Documented) (h : format.Delimits fits) {second : Compact β}
    {fitsSecond : β → Prop} (hsecond : second.Delimits fitsSecond) {third : Compact γ}
    {fitsThird : γ → Prop} (hthird : third.Delimits fitsThird) :
    (s.choice format second third).Delimits (Sum.elim fits (Sum.elim fitsSecond fitsThird)) where
  readsOff := by
    have hvariant (n : Nat) (hn : n < Nat.pow 256 4) := (hs.delimits_nat 4).readsOff n hn
    rintro (a | b | c) hv rest
    · rw [hs.read_first, hs.write_first, List.append_assoc]
      exact ⟨_, hvariant 0 (by decide) _, h.readsOff a hv rest⟩
    · rw [hs.read_second, hs.write_second, List.append_assoc]
      exact ⟨_, hvariant 1 (by decide) _, hsecond.readsOff b hv rest⟩
    · rw [hs.read_third, hs.write_third, List.append_assoc]
      exact ⟨_, hvariant 2 (by decide) _, hthird.readsOff c hv rest⟩
  looksNoFurther := by
    have hvariant := (hs.delimits_nat 4).looksNoFurther
    rintro bytes (a | b | c) rest more hread
    · rw [hs.read_first] at hread ⊢
      obtain ⟨behind, hfirst, ha⟩ := hread
      exact ⟨_, hvariant _ _ _ more hfirst, h.looksNoFurther _ _ _ more ha⟩
    · rw [hs.read_second] at hread ⊢
      obtain ⟨behind, hfirst, hb⟩ := hread
      exact ⟨_, hvariant _ _ _ more hfirst, hsecond.looksNoFurther _ _ _ more hb⟩
    · rw [hs.read_third] at hread ⊢
      obtain ⟨behind, hfirst, hc⟩ := hread
      exact ⟨_, hvariant _ _ _ more hfirst, hthird.looksNoFurther _ _ _ more hc⟩

end Serializer.Documented

/-- The formats that a serializer makes of numbers, truth values, characters and texts by options,
lists, records and variants, each with the predicate that the lengths in a value fit. -/
inductive Composed (s : Serializer) : {α : Type} → Compact α → (α → Prop) → Prop
  | nat (width : Nat) : Composed s (s.nat width) (· < Nat.pow 256 width)
  | bool : Composed s s.bool fun _ => True
  | char : Composed s s.char fun _ => True
  | text : Composed s s.text TextFits
  | unit : Composed s s.unit fun _ => True
  | via {α β : Type} {format : Compact α} {fits : α → Prop} {forth : α → β} {back : β → α}
      (h : Composed s format fits) (hback : ∀ b, forth (back b) = b) :
      Composed s (format.via forth back) fun b => fits (back b)
  | option {α : Type} {format : Compact α} {fits : α → Prop} (h : Composed s format fits) :
      Composed s (s.option format) fun v => ∀ w ∈ v, fits w
  | list {α : Type} {format : Compact α} {fits : α → Prop} (h : Composed s format fits) :
      Composed s (s.list format) fun vs => vs.length < lengthLimit ∧ ∀ v ∈ vs, fits v
  | pair {α β : Type} {first : Compact α} {second : Compact β} {fits : α → Prop}
      {fitsSecond : β → Prop} (h : Composed s first fits)
      (hsecond : Composed s second fitsSecond) :
      Composed s (s.pair first second) fun v => fits v.1 ∧ fitsSecond v.2
  | choice {α β γ : Type} {first : Compact α} {second : Compact β} {third : Compact γ}
      {fits : α → Prop} {fitsSecond : β → Prop} {fitsThird : γ → Prop} (h : Composed s first fits)
      (hsecond : Composed s second fitsSecond) (hthird : Composed s third fitsThird) :
      Composed s (s.choice first second third) (Sum.elim fits (Sum.elim fitsSecond fitsThird))
  | narrow {α : Type} {format : Compact α} {fits narrower : α → Prop} (h : Composed s format fits)
      (hnarrow : ∀ v, narrower v → fits v) : Composed s format narrower

theorem Composed.delimits {s : Serializer} (hs : s.Documented) {format : Compact α}
    {fits : α → Prop} (h : Composed s format fits) : format.Delimits fits := by
  induction h with
  | nat width => exact hs.delimits_nat width
  | bool => exact hs.delimits_bool
  | char => exact hs.delimits_char
  | text => exact hs.delimits_text
  | unit => exact hs.delimits_unit
  | via _ hback ih => exact ih.via hback
  | option _ ih => exact hs.delimits_option ih
  | list _ ih => exact hs.delimits_list ih
  | pair _ _ ih ihSecond => exact hs.delimits_pair ih ihSecond
  | choice _ _ _ ih ihSecond ihThird => exact hs.delimits_choice ih ihSecond ihThird
  | narrow _ hnarrow ih => exact ih.narrow hnarrow

end Compact

/-! ## Element types -/

namespace ElementType

open BundledReading.Compact (lengthLimit TextFits Composed Serializer)

/-- Whether all lengths in a value can be written. -/
def Fits : (t : ElementType) → t.Carrier → Prop
  | int32 => fun _ => True
  | int64 => fun _ => True
  | text => TextFits
  | bytes => fun (v : Bytes) => v.length < lengthLimit
  | bool => fun _ => True
  | char => fun _ => True
  | float => fun _ => True
  | optional inner => fun (v : Option inner.Carrier) => ∀ w ∈ v, inner.Fits w
  | point _ => fun (v : Point) => TextFits v.label
  | event _ => fun (v : Event) => v.tags.length < lengthLimit ∧ ∀ tag ∈ v.tags, TextFits tag
  | shape _ => fun (v : Shape) => ∀ name, v = .named name → TextFits name

section Composed

variable (s : Serializer)

theorem composed_int32 : Composed s s.int32 fun _ => True := by
  refine ((Composed.nat 4).via ?_).narrow ?_
  · intro v
    rw [UInt32.ofNat_toNat, Int32.toInt32_toUInt32]
  · intro v _
    exact v.toUInt32.toNat_lt

theorem composed_int64 : Composed s s.int64 fun _ => True := by
  refine ((Composed.nat 8).via ?_).narrow ?_
  · intro v
    rw [UInt64.ofNat_toNat, Int64.toInt64_toUInt64]
  · intro v _
    exact v.toUInt64.toNat_lt

theorem composed_uint8 : Composed s s.uint8 fun _ => True := by
  refine ((Composed.nat 1).via ?_).narrow ?_
  · intro v
    exact UInt8.ofNat_toNat
  · intro v _
    exact v.toNat_lt

theorem composed_uint64 : Composed s s.uint64 fun _ => True := by
  refine ((Composed.nat 8).via ?_).narrow ?_
  · intro v
    exact UInt64.ofNat_toNat
  · intro v _
    exact v.toNat_lt

theorem composed_point (path : String) : Composed s s.point (point path).Fits := by
  refine (((composed_int64 s).pair .text).via ?_).narrow ?_
  · intro v
    rfl
  · intro v hv
    exact ⟨trivial, hv⟩

theorem composed_event (path : String) : Composed s s.event (event path).Fits := by
  refine (((composed_uint64 s).pair Composed.text.list).via ?_).narrow ?_
  · intro v
    rfl
  · intro v hv
    exact ⟨trivial, hv⟩

theorem composed_shape (path : String) : Composed s s.shape (shape path).Fits := by
  refine ((Composed.unit.choice .text
    ((composed_int32 s).pair (composed_uint8 s).option)).via ?_).narrow ?_
  · rintro (_ | name | ⟨width, height⟩)
    · rfl
    · rfl
    · rfl
  · rintro (_ | name | ⟨width, height⟩) hv
    · exact trivial
    · exact hv name rfl
    · exact ⟨trivial, fun _ _ => trivial⟩

theorem composed_ofType (t : ElementType) : Composed s (s.ofType t) t.Fits := by
  induction t with
  | int32 => exact composed_int32 s
  | int64 => exact composed_int64 s
  | text => exact .text
  | bytes => exact (composed_uint8 s).list.narrow fun v hv => ⟨hv, fun _ _ => trivial⟩
  | bool => exact .bool
  | char => exact .char
  | float => exact (composed_uint64 s).via fun _ => rfl
  | optional inner ih => exact ih.option
  | point path => exact composed_point s path
  | event path => exact composed_event s path
  | shape path => exact composed_shape s path

end Composed

end ElementType

namespace Coder

variable {α : Type}

/-- A coder whose codes end themselves, for the values that `fits` allows: each is written, and read
back whatever stands behind its code, and from a code that is cut short nothing is read. So no code
begins another. -/
structure EndsCodes (coder : Coder α) (fits : α → Prop) : Prop where
  writes : ∀ v, fits v → ∃ code, coder.encode v = .ok code
  reads_back : ∀ v code, fits v → coder.encode v = .ok code → coder.decode code = .ok v
  reads_more : ∀ v code more, fits v → coder.encode v = .ok code →
    coder.decode (code ++ more) = .ok v
  refuses_less : ∀ v code front, fits v → coder.encode v = .ok code → front <+: code →
    front ≠ code → ∃ cause, coder.decode front = .error cause
  begins_no_other : ∀ v w code other, fits v → fits w → coder.encode v = .ok code →
    coder.encode w = .ok other → code <+: other → code = other

theorem compact_decode_of_ok {typeName : String} {format : Compact α} {bytes rest : Bytes} {v : α}
    (h : format.read bytes = .ok (v, rest)) : (compact typeName format).decode bytes = .ok v := by
  simp only [compact, h]
  rfl

theorem compact_decode_of_error {typeName : String} {format : Compact α} {bytes : Bytes}
    {cause : CompactError} (h : format.read bytes = .error cause) :
    (compact typeName format).decode bytes = .error (.compact cause) := by
  simp only [compact, h]
  rfl

theorem endsCodes_compact {format : Compact α} {fits : α → Prop} (h : format.Delimits fits)
    (typeName : String) : (compact typeName format).EndsCodes fits := by
  have hmore : ∀ v code more, fits v → (compact typeName format).encode v = .ok code →
      (compact typeName format).decode (code ++ more) = .ok v := by
    rintro v code more hv hcode
    obtain rfl := Except.ok.inj hcode
    exact compact_decode_of_ok (h.readsOff v hv more)
  have hback : ∀ v code, fits v → (compact typeName format).encode v = .ok code →
      (compact typeName format).decode code = .ok v := by
    intro v code hv hcode
    simpa using hmore v code [] hv hcode
  have hless : ∀ v code front, fits v → (compact typeName format).encode v = .ok code →
      front <+: code → front ≠ code →
      ∃ cause, (compact typeName format).decode front = .error cause := by
    rintro v code front hv hcode ⟨missing, rfl⟩ hne
    have hread := h.readsOff v hv
    rw [Except.ok.inj hcode] at hread
    have hmissing : missing ≠ [] := by
      rintro rfl
      exact hne (List.append_nil front).symm
    obtain ⟨cause, hcause⟩ := h.looksNoFurther.error_of_cut hread hmissing
    exact ⟨_, compact_decode_of_error hcause⟩
  refine ⟨fun v _ => ⟨_, rfl⟩, hback, hmore, hless, ?_⟩
  intro v w code other hv hw hcode hother hbegins
  by_contra hne
  obtain ⟨cause, hcause⟩ := hless w other code hw hother hbegins hne
  rw [hback v code hv hcode] at hcause
  cases hcause

/-- The code of the event number seven with the tags `a` and `é`. -/
def twoTagsCode : Bytes :=
  [7, 0, 0, 0, 0, 0, 0, 0, 2, 0, 0, 0, 0, 0, 0, 0, 1, 0, 0, 0, 0, 0, 0, 0, 97,
    2, 0, 0, 0, 0, 0, 0, 0, 195, 169]

/-- The codes of whatever serializer keeps the documented layout end themselves: those of every
element type, options of any depth included, and those of every format that it composes. The coders
of element types use such a serializer. -/
theorem compact_codes_end_themselves :
    (∀ t : ElementType, (compact t.name t.compact).EndsCodes t.Fits) ∧
      (∀ s : Compact.Serializer, s.Documented →
        (∀ t : ElementType, (compact t.name (s.ofType t)).EndsCodes t.Fits) ∧
          ∀ (α : Type) (format : Compact α) (fits : α → Prop), Compact.Composed s format fits →
            ∀ typeName, (compact typeName format).EndsCodes fits) ∧
      Compact.standard.Documented ∧ ∀ t, Compact.standard.ofType t = t.compact := by
  have hdocumented : ∀ s : Compact.Serializer, s.Documented → ∀ t : ElementType,
      (compact t.name (s.ofType t)).EndsCodes t.Fits := by
    intro s hs t
    exact endsCodes_compact ((t.composed_ofType s).delimits hs) t.name
  refine ⟨fun t => ?_, fun s hs => ⟨hdocumented s hs, ?_⟩, Compact.documented_standard,
    Compact.ofType_standard⟩
  · rw [← Compact.ofType_standard t]
    exact hdocumented _ Compact.documented_standard t
  · intro α format fits h typeName
    exact endsCodes_compact (h.delimits hs) typeName

/-- The event is read back from its code with a byte behind it, and refused where the code is cut
inside the last character. What holds of element types holds of lists of characters that may be
absent. -/
theorem compact_codes_end_themselves_twoTags :
    (ElementType.event "Event").Fits (⟨7, ["a", "é"]⟩ : Event) ∧
      (compact "Event" Compact.event).encode ⟨7, ["a", "é"]⟩ = .ok twoTagsCode ∧
      (compact "Event" Compact.event).decode (twoTagsCode ++ [255]) = .ok ⟨7, ["a", "é"]⟩ ∧
      (∃ cause, (compact "Event" Compact.event).decode (twoTagsCode.take 34) = .error cause) ∧
      Compact.Composed Compact.standard Compact.char.option.list
        (fun vs => vs.length < Compact.lengthLimit ∧ ∀ v ∈ vs, ∀ c ∈ v, True) ∧
      (compact "" Compact.char.option.list).decode [2, 0, 0, 0, 0, 0, 0, 0, 0, 1, 195, 169, 5] =
        .ok [none, some 'é'] := by
  have hfits : (ElementType.event "Event").Fits (⟨7, ["a", "é"]⟩ : Event) := by
    simp only [ElementType.Fits, Compact.TextFits]
    decide
  have hcode : (compact "Event" Compact.event).encode ⟨7, ["a", "é"]⟩ = .ok twoTagsCode := rfl
  have hcomposed : Compact.Composed Compact.standard Compact.char.option.list _ :=
    Compact.Composed.char.option.list
  have hlist : (compact "" Compact.char.option.list).encode [none, some 'é'] =
      .ok [2, 0, 0, 0, 0, 0, 0, 0, 0, 1, 195, 169] := rfl
  obtain ⟨htypes, hformats, hstandard, -⟩ := compact_codes_end_themselves
  refine ⟨hfits, hcode, (htypes (.event "Event")).reads_more _ _ [255] hfits hcode, ?_, hcomposed,
    ?_⟩
  · refine (htypes (.event "Event")).refuses_less _ _ _ hfits hcode
      (List.take_prefix 34 twoTagsCode) ?_
    decide
  · refine ((hformats _ hstandard).2 _ _ _ hcomposed "").reads_more _ _ [5] ⟨by decide, ?_⟩ hlist
    exact fun _ _ _ _ => trivial

end Coder

end BundledReading

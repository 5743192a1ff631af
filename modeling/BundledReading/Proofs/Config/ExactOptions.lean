import BundledReading.Config.Strict
import BundledReading.Proofs.Config.FieldByField

/-!
# Options that are given exactly

A document gives options exactly if every field that it has is of its type. Which options these are
is told field by field, whatever the order in which the fields are visited. Loading a file that
gives options exactly gives these options too, as long as its whole numbers are below `2 ^ 63`.
-/

namespace BundledReading.Config

open Numeric
open Document (field? setField sortFields optionKeys)

/-! ## What documents are -/

/-- A document that is a number of 64 bits. -/
inductive IsWord : Document → Nat → Prop
  | intro {n : Nat} (h : n < 2 ^ 64) : IsWord (.scalar (.integer n)) n

/-- A document that is a number, and the floating-point number nearest to it. -/
inductive IsFraction : Document → Binary64 → Prop
  | float (x : Binary64) : IsFraction (.scalar (.float x)) x
  | integer {n : Int} {x : Binary64} (hx : x.IsNearest (n < 0) n.natAbs) :
      IsFraction (.scalar (.integer n)) x

/-- A document that is a text. -/
def IsText (document : Document) (text : String) : Prop := document = .scalar (.text text)

/-- A field that is a text, and the label that it is. -/
def IsLabel (field : String × Document) (label : String × String) : Prop :=
  field.1 = label.1 ∧ IsText field.2 label.2

/-- A document that is a table of texts. -/
inductive IsLabels : Document → List (String × String) → Prop
  | intro {fields : List (String × Document)} {labels : List (String × String)}
      (hordered : Options.Ordered labels)
      (h : ∀ label, Option.Rel IsText (field? label fields) (labels.lookup label)) :
      IsLabels (.table fields) labels

/-- The options that fields give: each is what its field is, or else the default. -/
structure GivesExactly (fields : List (String × Document)) (options : Options) : Prop where
  desiredBundleBytes : Settles IsWord (· = 65536)
    (field? "desired_bundle_size_bytes" fields) options.desiredBundleBytes.toNat
  maxParallelism : Settles IsWord (· = 4) (field? "max_parallelism" fields)
    options.maxParallelism.toNat
  splitFraction : Settles IsFraction (·.IsNearest false (1 / 2))
    (field? "dynamic_split_fraction" fields) options.splitFraction
  rebalanceMillis : Settles IsWord (· = 10) (field? "rebalance_interval_ms" fields)
    options.rebalanceMillis.toNat
  labels : Settles IsLabels (· = []) (field? "labels" fields) options.labels

/-! ## Fields with different names -/

section Fields

variable {fields others : List (String × Document)} {key : String} {document : Document}

theorem field?_eq_some_iff (hnodup : (fields.map Prod.fst).Nodup) :
    field? key fields = some document ↔ (key, document) ∈ fields := by
  unfold Document.field?
  constructor
  · intro h
    obtain ⟨⟨found, value⟩, hfind, rfl⟩ := Option.map_eq_some_iff.mp h
    obtain rfl : found = key := by simpa using List.find?_some hfind
    exact List.mem_of_find?_eq_some hfind
  · intro h
    obtain ⟨before, after, rfl⟩ := List.append_of_mem h
    rw [List.map_append, List.map_cons, List.nodup_append] at hnodup
    have hfirst : ∀ field ∈ before, field.1 ≠ key := fun field hfield =>
      hnodup.2.2 _ (List.mem_map_of_mem hfield) _ List.mem_cons_self
    rw [List.find?_append, List.find?_eq_none.mpr (by simpa using hfirst)]
    simp

/-- Fields with different names are found whatever their order. -/
theorem field?_perm (hnodup : (fields.map Prod.fst).Nodup) (h : others.Perm fields) (key : String) :
    field? key others = field? key fields := by
  refine Option.ext fun document => ?_
  have hothers : (others.map Prod.fst).Nodup := (h.map Prod.fst).nodup_iff.mpr hnodup
  rw [field?_eq_some_iff hnodup, field?_eq_some_iff hothers, h.mem_iff]

theorem sortFields_perm (fields : List (String × Document)) : (sortFields fields).Perm fields :=
  List.mergeSort_perm _ _

end Fields

/-! ## Types -/

section Types

variable {document : Document} {name : String}

theorem toWord_eq_ok_iff {word : UInt64} :
    document.toWord name = .ok word ↔ IsWord document word.toNat := by
  have hmax : wordMax = 2 ^ 64 - 1 := rfl
  constructor
  · intro h
    cases document with
    | array items => cases h
    | table fields => cases h
    | scalar value =>
        cases value with
        | integer n =>
            rw [Document.toWord] at h
            split at h
            next hbounds =>
              obtain ⟨k, rfl⟩ := Int.eq_ofNat_of_zero_le hbounds.1
              have hlt : k < 2 ^ 64 := by omega
              cases h
              rw [Int.toNat_natCast, UInt64.toNat_ofNat_of_lt' hlt]
              exact .intro hlt
            · cases h
        | _ => cases h
  · rintro ⟨hlt⟩
    have hword := word.toNat_lt
    rw [Document.toWord, if_pos (by omega), Int.toNat_natCast, UInt64.ofNat_toNat]

theorem toFloat_eq_ok_iff {x : Binary64} : document.toFloat = .ok x ↔ IsFraction document x := by
  constructor
  · intro h
    cases document with
    | array items => cases h
    | table fields => cases h
    | scalar value =>
        cases value with
        | integer n => exact Except.ok.inj h ▸ .integer (Binary64.isNearest_ofInt n)
        | float y => exact Except.ok.inj h ▸ .float y
        | _ => cases h
  · rintro (x | hx)
    · rfl
    · exact congrArg Except.ok ((Binary64.isNearest_ofInt _).unique hx)

theorem toText_eq_ok_iff {text : String} : document.toText = .ok text ↔ IsText document text := by
  constructor
  · intro h
    cases document with
    | array items => cases h
    | table fields => cases h
    | scalar value =>
        cases value with
        | text other => exact congrArg (fun text => Document.scalar (.text text)) (Except.ok.inj h)
        | _ => cases h
  · rintro rfl
    rfl

/-- Fields that are all texts become labels, each under its name. -/
theorem mapM_toText_eq_ok_iff {fields : List (String × Document)}
    {labels : List (String × String)} :
    fields.mapM (fun field => (field.1, ·) <$> field.2.toText) = .ok labels ↔
      List.Forall₂ IsLabel fields labels := by
  induction fields generalizing labels with
  | nil => simp [pure, Except.pure, eq_comm]
  | cons field rest ih =>
      rw [List.mapM_cons]
      constructor
      · intro h
        obtain ⟨label, hlabel, h⟩ := exists_of_bind_eq_ok h
        obtain ⟨more, hmore, h⟩ := exists_of_bind_eq_ok h
        obtain ⟨text, htext, rfl⟩ := exists_of_map_eq_ok hlabel
        cases h
        exact .cons ⟨rfl, toText_eq_ok_iff.mp htext⟩ (ih.mp hmore)
      · rintro (_ | ⟨⟨hname, htext⟩, hrest⟩)
        rw [toText_eq_ok_iff.mpr htext, ih.mpr hrest, hname]
        rfl

theorem rel_lookup_of_forall₂ {fields : List (String × Document)} {labels : List (String × String)}
    (h : List.Forall₂ IsLabel fields labels)
    (name : String) : Option.Rel IsText (field? name fields) (labels.lookup name) := by
  unfold Document.field?
  induction h with
  | nil => exact .none
  | @cons field label fields labels hfirst hrest ih =>
      obtain ⟨name', document⟩ := field
      obtain ⟨first, text⟩ := label
      obtain ⟨rfl, htext⟩ := hfirst
      rw [Options.lookup_cons_eq_ite]
      by_cases hname : name' = name
      · simpa [hname] using Option.Rel.some htext
      · simpa [hname, Ne.symm hname] using ih

theorem exists_texts {fields : List (String × Document)}
    (h : ∀ field ∈ fields, ∃ text, IsText field.2 text) :
    ∃ labels : List (String × String), List.Forall₂ IsLabel fields labels := by
  induction fields with
  | nil => exact ⟨[], .nil⟩
  | cons field rest ih =>
      obtain ⟨⟨text, htext⟩, hrest⟩ := List.forall_mem_cons.mp h
      obtain ⟨labels, hlabels⟩ := ih hrest
      exact ⟨(field.1, text) :: labels, .cons ⟨rfl, htext⟩ hlabels⟩

/-- Fields in the order of their names, each name once. -/
theorem pairwise_sortFields {fields : List (String × Document)}
    (hnodup : (fields.map Prod.fst).Nodup) : (sortFields fields).Pairwise fun a b => a.1 < b.1 := by
  have hsorted : (sortFields fields).Pairwise fun a b => (!(b.1 < a.1)) = true :=
    List.pairwise_mergeSort (fun a b c hab hbc => by
      simp only [Bool.not_eq_true', decide_eq_false_iff_not, String.not_lt] at *
      exact String.le_trans hab hbc) (fun a b => by
      simp only [Bool.or_eq_true, Bool.not_eq_true', decide_eq_false_iff_not, String.not_lt]
      exact String.le_total _ _) fields
  have hne : (sortFields fields).Pairwise fun a b => a.1 ≠ b.1 :=
    List.pairwise_map.mp (((sortFields_perm fields).map Prod.fst).nodup_iff.mpr hnodup)
  refine (hsorted.and hne).imp ?_
  rintro a b ⟨hle, hne⟩
  simp only [Bool.not_eq_true', decide_eq_false_iff_not, String.not_lt] at hle
  by_contra hlt
  exact hne (String.le_antisymm hle (String.not_lt.mp hlt))

theorem keys_eq_of_forall₂ {fields : List (String × Document)} {labels : List (String × String)}
    (h : List.Forall₂ IsLabel fields labels) :
    fields.map Prod.fst = labels.map Prod.fst := by
  induction h with
  | nil => rfl
  | cons hfirst _ ih => rw [List.map_cons, List.map_cons, hfirst.1, ih]

/-- Fields with different names are read as labels exactly if they are a table of texts. -/
theorem toLabels_eq_ok_iff_of_nodup {fields : List (String × Document)}
    {labels : List (String × String)} (hnodup : (fields.map Prod.fst).Nodup) :
    (Document.table fields).toLabels = .ok labels ↔ IsLabels (.table fields) labels := by
  have hlabels {labels : List (String × String)}
      (h : List.Forall₂ IsLabel (sortFields fields) labels) :
      Options.Ordered labels ∧
        ∀ name, Option.Rel IsText (field? name fields) (labels.lookup name) := by
    constructor
    · have hpairs := List.pairwise_map.mpr (pairwise_sortFields hnodup)
      rw [keys_eq_of_forall₂ h] at hpairs
      exact List.pairwise_map.mp hpairs
    · intro name
      rw [← field?_perm hnodup (sortFields_perm fields)]
      exact rel_lookup_of_forall₂ h name
  rw [Document.toLabels, mapM_toText_eq_ok_iff]
  constructor
  · intro h
    exact ⟨(hlabels h).1, (hlabels h).2⟩
  · rintro ⟨hordered, hlookup⟩
    have htexts : ∀ field ∈ sortFields fields, ∃ text, IsText field.2 text := by
      intro field hfield
      have hfound := hlookup field.1
      rw [(field?_eq_some_iff hnodup).mpr ((sortFields_perm fields).mem_iff.mp hfield)] at hfound
      generalize labels.lookup field.1 = text? at hfound
      cases hfound with
      | some htext => exact ⟨_, htext⟩
    obtain ⟨others, hothers⟩ := exists_texts htexts
    obtain ⟨hothersOrdered, hothersLookup⟩ := hlabels hothers
    have hsame : labels = others := by
      refine hordered.eq_of_lookup hothersOrdered fun name => ?_
      have hleft := hlookup name
      have hright := hothersLookup name
      generalize labels.lookup name = text? at hleft
      generalize others.lookup name = other? at hright
      generalize field? name fields = found at hleft hright
      cases hleft with
      | none =>
          cases hright
          rfl
      | some htext =>
          obtain ⟨hother⟩ := hright
          cases htext.symm.trans hother
          rfl
    rw [hsame]
    exact hothers

end Types

/-! ## Field after field -/

section Fold

variable {start mid options : Options} {fields : List (String × Document)} {key : String}
  {document : Document}

/-- A value is what is said, read, or else it is left as it was. -/
inductive Takes {β : Type} (read : Document → Except StrictError β) (start : β) :
    Option Document → β → Prop
  | said {document : Document} {value : β} (h : read document = .ok value) :
      Takes read start (some document) value
  | unsaid : Takes read start none start

/-- What fields make of options. -/
structure Updates (fields : List (String × Document)) (start options : Options) : Prop where
  desiredBundleBytes : Takes (Document.toWord "u64") start.desiredBundleBytes
    (field? bundleSizeKey fields) options.desiredBundleBytes
  maxParallelism : Takes (Document.toWord "usize") start.maxParallelism
    (field? parallelismKey fields) options.maxParallelism
  splitFraction : Takes Document.toFloat start.splitFraction (field? fractionKey fields)
    options.splitFraction
  rebalanceMillis : Takes (Document.toWord "u64") start.rebalanceMillis
    (field? intervalKey fields) options.rebalanceMillis
  labels : Takes Document.toLabels start.labels (field? labelsKey fields) options.labels

theorem takes_single_iff {β : Type} {read : Document → Except StrictError β} {start value : β}
    {name : String} :
    Takes read start (field? name [(key, document)]) value ↔
      if key = name then read document = .ok value else value = start := by
  unfold Document.field?
  by_cases hname : key = name
  · simp only [hname, decide_true, List.find?_cons_of_pos, Option.map_some, if_true]
    exact ⟨fun | .said h => h, .said⟩
  · simp only [hname, decide_false, Bool.false_eq_true, not_false_eq_true, List.find?_cons_of_neg,
      List.find?_nil, Option.map_none, if_false]
    exact ⟨fun | .unsaid => rfl, fun h => h ▸ .unsaid⟩

/-- One field updates what its key names. -/
theorem setField_eq_ok_iff :
    setField start key document = .ok options ↔ Updates [(key, document)] start options := by
  have hupdates : Updates [(key, document)] start options ↔ _ ∧ _ ∧ _ ∧ _ ∧ _ :=
    ⟨fun ⟨h₁, h₂, h₃, h₄, h₅⟩ => ⟨h₁, h₂, h₃, h₄, h₅⟩,
      fun ⟨h₁, h₂, h₃, h₄, h₅⟩ => ⟨h₁, h₂, h₃, h₄, h₅⟩⟩
  have hmap {β : Type} {result : Except StrictError β} {f : β → Options} :
      result.map f = .ok options ↔ ∃ value, result = .ok value ∧ f value = options := by
    cases result <;> simp [Except.map]
  obtain ⟨bytes, parallelism, fraction, millis, labels⟩ := options
  rw [hupdates]
  simp only [takes_single_iff]
  unfold Document.setField
  rcases Decidable.em (key ∈ optionKeys) with hkey | hkey
  · simp only [optionKeys, List.mem_cons, List.not_mem_nil, or_false] at hkey
    rcases hkey with rfl | rfl | rfl | rfl | rfl
    all_goals
      simp [hmap, bundleSizeKey, parallelismKey, fractionKey, intervalKey, labelsKey, eq_comm,
        and_assoc, and_comm, and_left_comm]
  · simp only [optionKeys, List.mem_cons, List.not_mem_nil, or_false, not_or] at hkey
    obtain ⟨h₁, h₂, h₃, h₄, h₅⟩ := hkey
    obtain ⟨_, _, _, _, _⟩ := start
    simp [h₁, h₂, h₃, h₄, h₅, eq_comm]

theorem Takes.trans_iff {β : Type} {read : Document → Except StrictError β} {before after : β}
    {name : String} (hnew : key ∉ fields.map Prod.fst) :
    (∃ mid, Takes read before (field? name [(key, document)]) mid ∧
        Takes read mid (field? name fields) after) ↔
      Takes read before (field? name ((key, document) :: fields)) after := by
  simp only [takes_single_iff]
  unfold Document.field?
  by_cases hname : key = name
  · subst hname
    have hnone : fields.find? (fun field => field.1 = key) = none := by
      refine List.find?_eq_none.mpr fun field hfield heq => hnew ?_
      exact List.mem_map.mpr ⟨field, hfield, of_decide_eq_true heq⟩
    simp only [if_true, hnone, Option.map_none, decide_true, List.find?_cons_of_pos,
      Option.map_some]
    constructor
    · rintro ⟨mid, hread, ⟨⟩⟩
      exact .said hread
    · rintro (hread | _)
      exact ⟨after, hread, .unsaid⟩
  · simp [hname]

/-- Fields with different names update options one after the other. -/
theorem foldlM_setField_eq_ok_iff (hnodup : (fields.map Prod.fst).Nodup) :
    fields.foldlM (fun options field => setField options field.1 field.2) start = .ok options ↔
      Updates fields start options := by
  induction fields generalizing start with
  | nil =>
      constructor
      · intro h
        cases h
        exact ⟨.unsaid, .unsaid, .unsaid, .unsaid, .unsaid⟩
      · rintro ⟨h₁, h₂, h₃, h₄, h₅⟩
        obtain ⟨_, _, _, _, _⟩ := options
        cases start
        cases h₁
        cases h₂
        cases h₃
        cases h₄
        cases h₅
        rfl
  | cons field rest ih =>
      obtain ⟨key, document⟩ := field
      obtain ⟨hnew, hrest⟩ := List.nodup_cons.mp hnodup
      rw [List.foldlM_cons]
      constructor
      · intro h
        obtain ⟨mid, hmid, h⟩ := exists_of_bind_eq_ok h
        obtain ⟨f₁, f₂, f₃, f₄, f₅⟩ := setField_eq_ok_iff.mp hmid
        obtain ⟨r₁, r₂, r₃, r₄, r₅⟩ := (ih hrest).mp h
        exact ⟨(Takes.trans_iff hnew).mp ⟨_, f₁, r₁⟩, (Takes.trans_iff hnew).mp ⟨_, f₂, r₂⟩,
          (Takes.trans_iff hnew).mp ⟨_, f₃, r₃⟩, (Takes.trans_iff hnew).mp ⟨_, f₄, r₄⟩,
          (Takes.trans_iff hnew).mp ⟨_, f₅, r₅⟩⟩
      · rintro ⟨h₁, h₂, h₃, h₄, h₅⟩
        obtain ⟨bytes, f₁, r₁⟩ := (Takes.trans_iff hnew).mpr h₁
        obtain ⟨parallelism, f₂, r₂⟩ := (Takes.trans_iff hnew).mpr h₂
        obtain ⟨fraction, f₃, r₃⟩ := (Takes.trans_iff hnew).mpr h₃
        obtain ⟨millis, f₄, r₄⟩ := (Takes.trans_iff hnew).mpr h₄
        obtain ⟨labels, f₅, r₅⟩ := (Takes.trans_iff hnew).mpr h₅
        have hmid : setField start key document =
            .ok ⟨bytes, parallelism, fraction, millis, labels⟩ :=
          setField_eq_ok_iff.mpr ⟨f₁, f₂, f₃, f₄, f₅⟩
        rw [hmid]
        exact (ih hrest).mpr ⟨r₁, r₂, r₃, r₄, r₅⟩

end Fold

/-! ## Documents -/

section Documents

variable {fields : List (String × Document)} {items : List Document} {options : Options}

theorem takes_iff_settles {β γ : Type} {read : Document → Except StrictError β} {default value : β}
    {reads : Document → γ → Prop} {isDefault : γ → Prop} {said : Option Document} (view : β → γ)
    (hread : ∀ document, said = some document →
      (read document = .ok value ↔ reads document (view value)))
    (hdefault : default = value ↔ isDefault (view value)) :
    Takes read default said value ↔ Settles reads isDefault said (view value) := by
  cases said with
  | none =>
      refine Iff.trans ?_ (hdefault.trans ⟨.unsaid, fun | .unsaid h => h⟩)
      exact ⟨fun | .unsaid => rfl, fun h => h ▸ .unsaid⟩
  | some document =>
      refine Iff.trans ?_ ((hread document rfl).trans ⟨.said, fun | .said h => h⟩)
      exact ⟨fun | .said h => h, .said⟩

theorem takes_toWord_iff {name : String} {default value : UInt64} {said : Option Document} :
    Takes (Document.toWord name) default said value ↔
      Settles IsWord (· = default.toNat) said value.toNat :=
  takes_iff_settles UInt64.toNat (fun _ _ => toWord_eq_ok_iff) (by rw [eq_comm, UInt64.toNat_inj])

/-- Labels are read from a document exactly if it is a table of texts. -/
theorem toLabels_document_eq_ok_iff {document : Document} (h : document.Unambiguous)
    {labels : List (String × String)} :
    document.toLabels = .ok labels ↔ IsLabels document labels := by
  cases h with
  | table hnodup _ => exact toLabels_eq_ok_iff_of_nodup hnodup
  | _ => exact ⟨nofun, nofun⟩

/-- Fields with different names, set one after the other, give options as each of them is. -/
theorem foldlM_default_eq_ok_iff (hclear : Clear Document.Unambiguous fields) :
    fields.foldlM (fun options field => setField options field.1 field.2) {} = .ok options ↔
      GivesExactly fields options := by
  have hfraction : Takes Document.toFloat ({} : Options).splitFraction (field? fractionKey fields)
      options.splitFraction ↔ Settles IsFraction (·.IsNearest false (1 / 2))
        (field? fractionKey fields) options.splitFraction :=
    takes_iff_settles id (fun _ _ => toFloat_eq_ok_iff)
      ⟨fun h => h ▸ isNearest_splitFraction, isNearest_splitFraction.unique⟩
  have hlabels : Takes Document.toLabels [] (field? labelsKey fields) options.labels ↔
      Settles IsLabels (· = []) (field? labelsKey fields) options.labels := by
    refine takes_iff_settles id (fun document hsaid => ?_) eq_comm
    have hfield := (field?_eq_some_iff hclear.nodup).mp hsaid
    exact toLabels_document_eq_ok_iff (hclear.each _ hfield)
  rw [foldlM_setField_eq_ok_iff hclear.nodup]
  constructor
  · rintro ⟨h₁, h₂, h₃, h₄, h₅⟩
    exact ⟨takes_toWord_iff.mp h₁, takes_toWord_iff.mp h₂, hfraction.mp h₃, takes_toWord_iff.mp h₄,
      hlabels.mp h₅⟩
  · rintro ⟨h₁, h₂, h₃, h₄, h₅⟩
    exact ⟨takes_toWord_iff.mpr h₁, takes_toWord_iff.mpr h₂, hfraction.mpr h₃,
      takes_toWord_iff.mpr h₄, hlabels.mpr h₅⟩

/-- Which options are given is told by what is found under the keys. -/
theorem GivesExactly.of_field?_eq {others : List (String × Document)}
    (h : GivesExactly fields options) (heq : ∀ key, field? key others = field? key fields) :
    GivesExactly others options := by
  obtain ⟨h₁, h₂, h₃, h₄, h₅⟩ := h
  simp only [← heq] at h₁ h₂ h₃ h₄ h₅
  exact ⟨h₁, h₂, h₃, h₄, h₅⟩

/-- A table gives options exactly if each field of theirs is of its type, and no others. -/
theorem table_toOptions_eq_ok_iff (hclear : Clear Document.Unambiguous fields) :
    (Document.table fields).toOptions = .ok options ↔ GivesExactly fields options := by
  have hperm := sortFields_perm fields
  have hsorted : Clear Document.Unambiguous (sortFields fields) :=
    ⟨(hperm.map Prod.fst).nodup_iff.mpr hclear.nodup,
      fun field hfield => hclear.each field (hperm.mem_iff.mp hfield)⟩
  have hfields := field?_perm hclear.nodup hperm
  rw [Document.toOptions, foldlM_default_eq_ok_iff hsorted]
  constructor
  · exact fun h => h.of_field?_eq fun key => (hfields key).symm
  · exact fun h => h.of_field?_eq hfields

/-- An array gives options exactly as the table of its items under the keys of the options does. -/
theorem array_toOptions_eq_ok_iff (heach : ∀ item ∈ items, item.Unambiguous) :
    (Document.array items).toOptions = .ok options ↔
      items.length ≤ optionKeys.length ∧ GivesExactly (optionKeys.zip items) options := by
  have hclear : Clear Document.Unambiguous (optionKeys.zip items) := by
    refine ⟨?_, fun field hfield => heach _ (List.of_mem_zip hfield).2⟩
    rw [List.zip_eq_zip_take_min, List.map_fst_zip (by simp only [List.length_take]; omega)]
    exact (by decide : optionKeys.Nodup).sublist (List.take_sublist _ _)
  rw [← foldlM_default_eq_ok_iff hclear]
  constructor
  · intro h
    obtain ⟨found, hfound, h⟩ := exists_of_bind_eq_ok h
    by_cases hlong : optionKeys.length < items.length
    · rw [if_pos hlong] at h
      cases h
    · rw [if_neg hlong] at h
      cases h
      exact ⟨not_lt.mp hlong, hfound⟩
  · rintro ⟨hle, h⟩
    rw [Document.toOptions, h]
    dsimp only [bind, Except.bind]
    rw [if_neg (not_lt.mpr hle)]
    rfl

end Documents

/-! ## Loading -/

section Loading

variable {files : Files} {formats : List Format} {name : String}
  {fields : List (String × Document)} {options : Options}

theorem Settles.mono {β : Type} {reads others : Document → β → Prop} {isDefault : β → Prop}
    {said : Option Document} {value : β} (h : Settles reads isDefault said value)
    (hreads : ∀ document, said = some document → reads document value → others document value) :
    Settles others isDefault said value := by
  cases h with
  | said h => exact .said (hreads _ rfl h)
  | unsaid h => exact .unsaid h

theorem IsFraction.says {document : Document} {x : Binary64} (h : IsFraction document x) :
    SaysFraction document x := by
  cases h with
  | float => exact .float x
  | integer hx => exact .integer hx

theorem IsWord.says {document : Document} {n : Nat} (h : IsWord document n)
    (hsmall : ∀ k : Int, document = .scalar (.integer k) → k < 2 ^ 63) : SaysWord document n := by
  cases h with
  | intro h =>
      have hlt := hsmall n rfl
      exact .integer (by omega)

/-- Labels that are given exactly are what their texts say. -/
theorem IsLabels.rel_lookup {labels : List (String × String)}
    (h : Settles IsLabels (· = []) (field? "labels" fields) labels) (label : String) :
    Option.Rel SaysText (field? label (fileLabels fields)) (labels.lookup label) := by
  unfold fileLabels
  generalize field? "labels" fields = found at h
  cases h with
  | unsaid h =>
      subst h
      exact .none
  | said h =>
      obtain ⟨-, hlookup⟩ := h
      have hlabel := hlookup label
      dsimp only
      generalize field? label _ = said at hlabel
      generalize labels.lookup label = text? at hlabel
      cases hlabel with
      | none => exact .none
      | some htext =>
          obtain rfl := htext
          exact .some (.text _)

/-- Options that are given exactly are what fields without large whole numbers say. -/
theorem GivesExactly.layered (h : GivesExactly fields options)
    (hsmall : ∀ field ∈ fields, ∀ n, field.2 = .scalar (.integer n) → n < 2 ^ 63) :
    Layered fields [] options := by
  have hword (key : String) (document : Document) (hsaid : field? key fields = some document)
      {n : Nat} (hn : IsWord document n) : SaysWord document n := by
    obtain ⟨field, hfield, rfl⟩ := Option.map_eq_some_iff.mp hsaid
    exact hn.says (hsmall field (List.mem_of_find?_eq_some hfield))
  have hsaid (key : String) : said? fields [] key = field? key fields := Option.none_or
  have hlabelSaid (label : String) :
      saidOfLabel? fields [] label = field? label (fileLabels fields) := by
    unfold saidOfLabel? Environment.labelOverride?
    split <;> rfl
  refine ⟨?_, ?_, ?_, ?_, ?_, ?_, ?_⟩
  · rw [hsaid]
    exact h.desiredBundleBytes.mono fun document hfound => hword _ document hfound
  · rw [hsaid]
    exact h.maxParallelism.mono fun document hfound => hword _ document hfound
  · rw [hsaid]
    exact h.splitFraction.mono fun document _ => IsFraction.says
  · rw [hsaid]
    exact h.rebalanceMillis.mono fun document hfound => hword _ document hfound
  · intro label
    rw [hlabelSaid]
    exact IsLabels.rel_lookup h.labels label
  · have hlabels := h.labels
    generalize field? "labels" fields = found at hlabels
    generalize options.labels = labels at hlabels
    cases hlabels with
    | unsaid hnone => exact hnone ▸ List.Pairwise.nil
    | said hlabels =>
        obtain ⟨hordered, -⟩ := hlabels
        exact hordered
  · right
    intro document hfound
    have hlabels := h.labels
    rw [hfound] at hlabels
    cases hlabels with
    | said hlabels =>
        cases hlabels with
        | intro => exact ⟨_, rfl⟩

/-- A file without large whole numbers that gives options exactly is loaded as these options. -/
theorem load_of_givesExactly (hformats : ∀ format ∈ formats, format.Distinct)
    (hfile : ∀ fields, FileSays files formats (some name) fields → PlainFile fields)
    (hfields : FileSays files formats (some name) fields)
    (hsmall : ∀ field ∈ fields, ∀ n, field.2 = .scalar (.integer n) → n < 2 ^ 63)
    (h : GivesExactly fields options) : load formats files [] (some name) = .ok options :=
  (load_eq_ok_iff hformats (Environment.plain_iff.mpr (by simp)) hfile).mpr
    ⟨fields, hfields, h.layered hsmall⟩

end Loading

end BundledReading.Config

import BundledReading.Proofs.CommandLine.Outcomes
import BundledReading.Proofs.Config.Json.Values
import BundledReading.Proofs.Config.OrderedLabels
import BundledReading.Proofs.Config.Variables

/-!
# Options, field by field

Options are laid over one another field by field: every field, and every label, is what its variable
says, or else what the file says, or else the default, whatever is said of the others. The arguments
of the program override their own fields of that. What documents and texts say as a number or as
text is told in `SaysWord`, `SaysFraction` and `SaysText`.
-/

namespace BundledReading.Config

open Numeric
open Setting (find? laidOut toUInt64 toFloat toText)

/-! ## What is said of a field -/

/-- The fields of the file that a path names say something, or nothing if none is named. -/
inductive FileSays (files : Files) (formats : List Format) :
    Option String → List (String × Document) → Prop
  | none : FileSays files formats none []
  | some {name : String} {fields : List (String × Document)} (h : files.Says formats name fields) :
      FileSays files formats (some name) fields

/-- The labels of a file: the fields of the table under their key. -/
def fileLabels (fields : List (String × Document)) : List (String × Document) :=
  match Document.field? "labels" fields with
  | some (.table labels) => labels
  | _ => []

/-- A file whose keys are plain, and those of its labels too. -/
structure PlainFile (fields : List (String × Document)) : Prop where
  keys : ∀ field ∈ fields, IsPlain field.1
  labels : ∀ label ∈ fileLabels fields, IsPlain label.1

instance (fields : List (String × Document)) : Decidable (PlainFile fields) :=
  decidable_of_iff ((∀ field ∈ fields, IsPlain field.1) ∧
      ∀ label ∈ fileLabels fields, IsPlain label.1)
    ⟨fun h => ⟨h.1, h.2⟩, fun h => ⟨h.keys, h.labels⟩⟩

/-- What is said under a key: the text of the variable, or else the file's field. -/
def said? (fields : List (String × Document)) (environment : Environment) (key : String) :
    Option Document :=
  ((environment.override? key).map fun text => .scalar (.text text)).or
    (Document.field? key fields)

/-- What is said of a label: the text of its variable, or else the file's label. -/
def saidOfLabel? (fields : List (String × Document)) (environment : Environment)
    (label : String) : Option Document :=
  ((environment.labelOverride? label).map fun text => .scalar (.text text)).or
    (Document.field? label (fileLabels fields))

/-- A value is what is said, or else the default. -/
inductive Settles {β : Type} (reads : Document → β → Prop) (isDefault : β → Prop) :
    Option Document → β → Prop
  | said {document : Document} {value : β} (h : reads document value) :
      Settles reads isDefault (some document) value
  | unsaid {value : β} (h : isDefault value) : Settles reads isDefault none value

/-- Options of which every field, and every label, is what is said of it, or else the default. -/
structure Layered (fields : List (String × Document)) (environment : Environment)
    (options : Options) : Prop where
  desiredBundleBytes : Settles SaysWord (· = 65536)
    (said? fields environment "desired_bundle_size_bytes") options.desiredBundleBytes.toNat
  maxParallelism : Settles SaysWord (· = 4)
    (said? fields environment "max_parallelism") options.maxParallelism.toNat
  splitFraction : Settles SaysFraction (·.IsNearest false (1 / 2))
    (said? fields environment "dynamic_split_fraction") options.splitFraction
  rebalanceMillis : Settles SaysWord (· = 10)
    (said? fields environment "rebalance_interval_ms") options.rebalanceMillis.toNat
  labels : ∀ label,
    Option.Rel SaysText (saidOfLabel? fields environment label) (options.labels.lookup label)
  ordered : Options.Ordered options.labels
  /-- Labels of the file that are no table are given up for the first label that a variable sets. -/
  labelsFit : (∃ label, (environment.labelOverride? label).isSome) ∨
    ∀ document, Document.field? "labels" fields = some document →
      ∃ labels, document = .table labels

/-! ## Options of settings -/

section ToOptions

variable {root : Setting} {options : Options} {labels : List (String × String)}

/-- A setting is what a document says, laid out anew. -/
def Tells (document : Document) (setting : Setting) : Prop :=
  ∃ origin, setting = laidOut (Setting.ofDocument origin document)

/-- What is found in settings tells what is said. -/
abbrev FoundAs : Option Document → Option Setting → Prop := Option.Rel Tells

/-- A field settles to what is said of it, where its conversion reads what documents say. -/
theorem FoundAs.field_eq_ok_iff {β γ : Type} {said : Option Document} {key : String}
    {convert : Setting → Except Mismatch β} {reads : Document → γ → Prop} {isDefault : γ → Prop}
    {default value : β} (view : β → γ) (h : FoundAs said (find? key root.entries))
    (hconvert : ∀ {origin document},
      convert (laidOut (Setting.ofDocument origin document)) = .ok value ↔
        reads document (view value))
    (hdefault : default = value ↔ isDefault (view value)) :
    root.field key convert default = .ok value ↔ Settles reads isDefault said (view value) := by
  unfold Setting.field
  generalize find? key root.entries = found at h
  cases h with
  | none =>
      rw [Except.ok.injEq, hdefault]
      exact ⟨.unsaid, fun | .unsaid hvalue => hvalue⟩
  | some htells =>
      obtain ⟨origin, rfl⟩ := htells
      rw [mapError_eq_ok_iff, hconvert]
      exact ⟨.said, fun | .said hvalue => hvalue⟩

theorem FoundAs.field_toUInt64_eq_ok_iff {said : Option Document} {key : String}
    {default value : UInt64} (h : FoundAs said (find? key root.entries)) :
    root.field key toUInt64 default = .ok value ↔
      Settles SaysWord (· = default.toNat) said value.toNat := by
  refine h.field_eq_ok_iff UInt64.toNat ?_ ?_
  · intro origin document
    rw [Setting.toUInt64_laidOut]
    exact toUInt64_ofDocument_eq_ok_iff
  · rw [eq_comm, UInt64.toNat_inj]

theorem FoundAs.field_toFloat_eq_ok_iff {said : Option Document} {key : String}
    {default value : Binary64} {q : ℚ} (h : FoundAs said (find? key root.entries))
    (hdefault : default.IsNearest false q) :
    root.field key toFloat default = .ok value ↔
      Settles SaysFraction (·.IsNearest false q) said value := by
  refine h.field_eq_ok_iff id ?_ ?_
  · intro origin document
    rw [Setting.toFloat_laidOut]
    exact toFloat_ofDocument_eq_ok_iff
  · exact ⟨fun heq => heq ▸ hdefault, hdefault.unique⟩

/-- Entries with different keys are read as labels exactly if each of them can. -/
theorem toLabels_eq_ok_iff (table : String) {entries : List (String × Setting)}
    (hnodup : (entries.map Prod.fst).Nodup) :
    Setting.toLabels table entries = .ok labels ↔
      Options.Ordered labels ∧
        ∀ label, (labels.lookup label).map .ok = (find? label entries).map toText := by
  refine ⟨Setting.toLabels_eq_ok, ?_⟩
  rintro ⟨hordered, hlookup⟩
  have heach : ∀ entry ∈ entries, ∃ value, toText entry.2 = .ok value := by
    rintro ⟨key, setting⟩ hentry
    have hkey := hlookup key
    rw [Setting.find?_of_mem hnodup hentry] at hkey
    obtain ⟨value, -, hvalue⟩ := Option.map_eq_some_iff.mp hkey
    exact ⟨value, hvalue.symm⟩
  obtain ⟨others, hothers⟩ := Setting.exists_toLabels heach
  obtain ⟨hothersOrdered, hothersLookup⟩ := Setting.toLabels_eq_ok hothers
  rw [hothers, hordered.eq_of_lookup hothersOrdered]
  intro label
  have hsame := (hlookup label).trans (hothersLookup label).symm
  exact Option.map_injective (f := Except.ok) (fun _ _ => Except.ok.inj) hsame

/-- Labels can be read exactly if they stand in a table or nowhere, and each of them can. -/
theorem labelsField_eq_ok_iff (hnodup : (root.labels.map Prod.fst).Nodup) :
    root.labelsField = .ok labels ↔
      root.LabelsFit ∧ Options.Ordered labels ∧
        ∀ label, (labels.lookup label).map .ok = (find? label root.labels).map toText := by
  rw [← toLabels_eq_ok_iff labelsKey hnodup]
  unfold Setting.labelsField Setting.LabelsFit Setting.labels
  cases find? labelsKey root.entries with
  | none => simp [Setting.unset, Setting.entries, Setting.toLabels]
  | some setting =>
      cases setting with
      | table entries => simp [Setting.entries]
      | _ => simp

theorem toOptions_eq_ok_iff :
    root.toOptions = .ok options ↔
      root.field bundleSizeKey toUInt64 ({} : Options).desiredBundleBytes =
          .ok options.desiredBundleBytes ∧
        root.field parallelismKey toUInt64 ({} : Options).maxParallelism =
          .ok options.maxParallelism ∧
        root.field fractionKey toFloat ({} : Options).splitFraction = .ok options.splitFraction ∧
        root.field intervalKey toUInt64 ({} : Options).rebalanceMillis =
          .ok options.rebalanceMillis ∧
        root.labelsField = .ok options.labels := by
  constructor
  · intro h
    obtain ⟨bytes, hbytes, h⟩ := exists_of_bind_eq_ok h
    obtain ⟨parallelism, hparallelism, h⟩ := exists_of_bind_eq_ok h
    obtain ⟨fraction, hfraction, h⟩ := exists_of_bind_eq_ok h
    obtain ⟨interval, hinterval, h⟩ := exists_of_bind_eq_ok h
    obtain ⟨labels, hlabels, h⟩ := exists_of_bind_eq_ok h
    cases h
    exact ⟨hbytes, hparallelism, hfraction, hinterval, hlabels⟩
  · rintro ⟨hbytes, hparallelism, hfraction, hinterval, hlabels⟩
    dsimp only [Setting.toOptions]
    rw [hbytes, hparallelism, hfraction, hinterval, hlabels]
    rfl

end ToOptions

/-! ## Settings of a file -/

section FileRoot

variable {origin : Option String} {fields : List (String × Document)} {key : String}

theorem find?_entriesOfFields (key : String) :
    find? key (Setting.entriesOfFields origin fields) =
      (Document.field? key fields).map (Setting.ofDocument origin) := by
  unfold Document.field?
  induction fields with
  | nil => rfl
  | cons field rest ih =>
      rw [Setting.entriesOfFields, find?, List.find?_cons]
      by_cases hkey : field.1 = key
      · simp [hkey]
      · simp [hkey, ih]

theorem isPlain_entriesOfFields (h : ∀ field ∈ fields, IsPlain field.1) :
    ∀ entry ∈ Setting.entriesOfFields origin fields, IsPlain entry.1 := by
  rw [Setting.entriesOfFields_eq_map]
  intro entry hentry
  obtain ⟨field, hfield, rfl⟩ := List.mem_map.mp hentry
  exact h field hfield

theorem clear_entriesOfFields (h : Clear Document.Unambiguous fields) :
    Clear Setting.Unambiguous (Setting.entriesOfFields origin fields) := by
  have hroot : (Setting.ofDocument origin (.table fields)).Unambiguous :=
    Setting.unambiguous_ofDocument (Document.unambiguous_table_iff.mpr h)
  rw [Setting.ofDocument] at hroot
  exact Setting.unambiguous_table_iff.mp hroot


/-- The settings of a file, laid over nothing. -/
def fileRoot (origin : Option String) (fields : List (String × Document)) : Setting :=
  Setting.assignAll (Setting.entriesOfFields origin fields) Setting.empty

theorem find?_fileRoot (hclear : Clear Document.Unambiguous fields)
    (hplain : ∀ field ∈ fields, IsPlain field.1) (key : String) :
    find? key (fileRoot origin fields).entries =
      (Document.field? key fields).map (laidOut ∘ Setting.ofDocument origin) := by
  have hlower : ∀ entry ∈ Setting.entriesOfFields origin fields,
      Text.LowerCase.toLower entry.1 = entry.1 :=
    fun entry hentry => (isPlain_entriesOfFields hplain entry hentry).toLower_eq
  rw [fileRoot, Setting.find?_assignAll hlower (clear_entriesOfFields hclear).nodup
    (fun _ _ => rfl), find?_entriesOfFields, Option.map_map]
  exact Option.or_none

/-- What is found in the settings of fields is what they say. -/
theorem foundAs_fileRoot (hclear : Clear Document.Unambiguous fields)
    (hplain : ∀ field ∈ fields, IsPlain field.1) (key : String) :
    FoundAs (Document.field? key fields) (find? key (fileRoot origin fields).entries) := by
  rw [find?_fileRoot hclear hplain]
  cases Document.field? key fields with
  | none => exact .none
  | some document => exact .some ⟨origin, rfl⟩

theorem clear_fileLabels (h : Clear Document.Unambiguous fields) :
    Clear Document.Unambiguous (fileLabels fields) := by
  unfold fileLabels
  split
  next labels hfield =>
    obtain ⟨field, hfound, hlabels⟩ := Option.map_eq_some_iff.mp hfield
    have heach := h.each field (List.mem_of_find?_eq_some hfound)
    rw [hlabels] at heach
    exact Document.unambiguous_table_iff.mp heach
  · exact clear_nil

/-- The labels among the settings of a file are the settings of its labels. -/
theorem labels_fileRoot (hclear : Clear Document.Unambiguous fields) (hfile : PlainFile fields) :
    (fileRoot origin fields).labels = (fileRoot origin (fileLabels fields)).entries := by
  unfold Setting.labels fileLabels
  rw [find?_fileRoot hclear hfile.keys, labelsKey]
  cases Document.field? "labels" fields with
  | none => rfl
  | some document => cases document <;> rfl

theorem nodup_labels_fileRoot (hclear : Clear Document.Unambiguous fields)
    (hfile : PlainFile fields) : ((fileRoot origin fields).labels.map Prod.fst).Nodup := by
  rw [labels_fileRoot hclear hfile]
  exact Setting.nodup_assignAll _ List.nodup_nil

theorem labelsFit_fileRoot_iff (hclear : Clear Document.Unambiguous fields)
    (hfile : PlainFile fields) :
    (fileRoot origin fields).LabelsFit ↔
      ∀ document, Document.field? "labels" fields = some document →
        ∃ labels, document = .table labels := by
  unfold Setting.LabelsFit
  rw [find?_fileRoot hclear hfile.keys, labelsKey]
  cases Document.field? "labels" fields with
  | none => simp
  | some document =>
      cases document with
      | table labels =>
          obtain ⟨next, hnext⟩ :=
            Setting.exists_laidOut_table (Setting.entriesOfFields origin labels)
          simp [Setting.ofDocument, hnext]
      | _ => simp [Setting.ofDocument, laidOut]

/-- No key of the settings of a file spells a path. -/
theorem spellsPath_fileRoot (hplain : ∀ field ∈ fields, IsPlain field.1) :
    ∀ entry ∈ (fileRoot origin fields).entries, Setting.spellsPath entry.1 = false := by
  refine Setting.forall_mem_assignAll (p := fun key => Setting.spellsPath key = false) ?_
    fun _ hentry => absurd hentry List.not_mem_nil
  intro entry hentry
  have hkey := isPlain_entriesOfFields hplain entry hentry
  rw [hkey.toLower_eq]
  exact Setting.spellsPath_of_isPlain hkey

end FileRoot

/-! ## Layers -/

section Layers

variable {origin : Option String} {fields : List (String × Document)} {environment : Environment}
  {root : Setting} {options : Options}

/-- The settings of which options are read, told by what is said under each key. -/
structure Stands (fields : List (String × Document)) (environment : Environment)
    (root : Setting) : Prop where
  scalar : ∀ key ∈ scalarKeys, FoundAs (said? fields environment key) (find? key root.entries)
  label : ∀ label, FoundAs (saidOfLabel? fields environment label) (find? label root.labels)
  nodup : (root.labels.map Prod.fst).Nodup
  labelsFit : root.LabelsFit ↔ (∃ label, (environment.labelOverride? label).isSome) ∨
    ∀ document, Document.field? "labels" fields = some document →
      ∃ labels, document = .table labels

/-- A variable tells its text, and what stands below it counts where it is not set. -/
theorem FoundAs.under {said : Option Document} {found : Option Setting} (h : FoundAs said found)
    (text? : Option String) :
    FoundAs ((text?.map fun text => .scalar (.text text)).or said)
      ((text?.map Environment.ofVariable).or found) := by
  cases text? with
  | none => exact h
  | some text => exact .some ⟨some Environment.origin, rfl⟩

/-- A layer of variables says of a label what its variable says. -/
theorem layerLabel?_settings (henv : environment.Plain) (label : String) :
    layerLabel? label environment.settings =
      (environment.labelOverride? label).map Environment.ofVariable := by
  unfold layerLabel? Environment.labelOverride?
  split
  · rfl
  · exact henv.find?_label label

/-- A file and an environment make up settings in which everything stands as they say. -/
theorem exists_layers (origin : Option String) (hclear : Clear Document.Unambiguous fields)
    (hfile : PlainFile fields)
    (henv : environment.Plain) :
    ∃ root, layers (Setting.entriesOfFields origin fields) environment.settings = .ok root ∧
      Stands fields environment root := by
  obtain ⟨root, hroot, hcovers⟩ := henv.exists_layer (fileRoot origin fields)
  obtain ⟨next, rfl⟩ := hcovers.table (Setting.exists_assignAll_eq _ [])
  refine ⟨.table next, ?_, ?_⟩
  · -- No key spells a path, so nothing is left to follow once all layers are laid.
    rw [layers, Setting.layer_of_isPlain (isPlain_entriesOfFields hfile.keys)]
    dsimp only [bind, Except.bind]
    rw [← fileRoot, hroot]
    exact Setting.followPaths_eq_self (hcovers.paths (spellsPath_fileRoot hfile.keys))
  · refine ⟨?_, ?_, hcovers.nodup (nodup_labels_fileRoot hclear hfile), ?_⟩
    · intro key hkey
      rw [hcovers.scalar key hkey, henv.find?_scalar hkey]
      exact (foundAs_fileRoot hclear hfile.keys key).under _
    · intro label
      rw [hcovers.label, layerLabel?_settings henv, labels_fileRoot hclear hfile]
      exact (foundAs_fileRoot (clear_fileLabels hclear) hfile.labels label).under _
    · simp only [hcovers.labelsFit, layerLabel?_settings henv,
        labelsFit_fileRoot_iff hclear hfile, Option.isSome_map]

/-- Labels are the texts of the settings in which they are found exactly if they are what is said of
them. -/
theorem FoundAs.map_ok_eq_iff {said : Option Document} {found : Option Setting}
    (h : FoundAs said found) {text? : Option String} :
    text?.map .ok = found.map toText ↔ Option.Rel SaysText said text? := by
  cases h with
  | none => cases text? <;> simp [Option.rel_none_none] 
  | some htells =>
      obtain ⟨origin, rfl⟩ := htells
      cases text? with
      | none => simp
      | some text =>
          simp only [Option.map_some, Option.some.injEq, Setting.toText_laidOut,
            Option.rel_some_some]
          rw [eq_comm]
          exact toText_ofDocument_eq_ok_iff

theorem isNearest_splitFraction : ({} : Options).splitFraction.IsNearest false (1 / 2) := by
  have hhalf : Binary64.ofQuotient false 1 2 = ({} : Options).splitFraction := by decide +kernel
  have hnearest := Binary64.isNearest_ofQuotient false 1 Nat.two_pos
  rw [hhalf, Nat.cast_one, Nat.cast_ofNat] at hnearest
  exact hnearest

/-- The options of settings in which everything stands as a file and an environment say. -/
theorem Stands.toOptions_eq_ok_iff (h : Stands fields environment root) :
    root.toOptions = .ok options ↔ Layered fields environment options := by
  rw [Config.toOptions_eq_ok_iff,
    (h.scalar bundleSizeKey (by decide)).field_toUInt64_eq_ok_iff,
    (h.scalar parallelismKey (by decide)).field_toUInt64_eq_ok_iff,
    (h.scalar fractionKey (by decide)).field_toFloat_eq_ok_iff isNearest_splitFraction,
    (h.scalar intervalKey (by decide)).field_toUInt64_eq_ok_iff,
    labelsField_eq_ok_iff h.nodup, h.labelsFit]
  simp only [(h.label _).map_ok_eq_iff]
  constructor
  · rintro ⟨hbytes, hparallelism, hfraction, hinterval, hfit, hordered, hlabels⟩
    exact ⟨hbytes, hparallelism, hfraction, hinterval, hlabels, hordered, hfit⟩
  · rintro ⟨hbytes, hparallelism, hfraction, hinterval, hlabels, hordered, hfit⟩
    exact ⟨hbytes, hparallelism, hfraction, hinterval, hfit, hordered, hlabels⟩

end Layers

/-! ## Loading -/

section Load

variable {files : Files} {formats : List Format} {path : Option String}
  {fields : List (String × Document)} {environment : Environment} {options : Options}

theorem fileSays_some_iff {name : String} :
    FileSays files formats (some name) fields ↔ files.Says formats name fields :=
  ⟨fun | .some h => h, .some⟩

theorem FileSays.clear (hformats : ∀ format ∈ formats, format.Distinct)
    (h : FileSays files formats path fields) : Clear Document.Unambiguous fields := by
  cases h with
  | none => exact clear_nil
  | some htold => exact htold.clear hformats

/-- Options are loaded exactly if they are what the file and the environment say, field by field. -/
theorem load_eq_ok_iff (hformats : ∀ format ∈ formats, format.Distinct) (henv : environment.Plain)
    (hfile : ∀ fields, FileSays files formats path fields → PlainFile fields) :
    load formats files environment path = .ok options ↔
      ∃ fields, FileSays files formats path fields ∧ Layered fields environment options := by
  have hlayered (origin : Option String) {fields : List (String × Document)}
      (htold : FileSays files formats path fields) : (do
        let root ← (layers (Setting.entriesOfFields origin fields) environment.settings).mapError
          fun (fault : IndexFault) => Error.index fault
        root.toOptions) = .ok options ↔ Layered fields environment options := by
    obtain ⟨root, hroot, hstands⟩ :=
      exists_layers origin (htold.clear hformats) (hfile fields htold) henv
    rw [hroot]
    exact hstands.toOptions_eq_ok_iff
  cases path with
  | none =>
      constructor
      · intro h
        exact ⟨[], .none, (hlayered none .none).mp h⟩
      · rintro ⟨fields, ⟨⟩, h⟩
        exact (hlayered none .none).mpr h
  | some name =>
      constructor
      · intro h
        obtain ⟨fromFile, hread, h⟩ := exists_of_bind_eq_ok h
        obtain ⟨file, hfound, rfl⟩ := exists_of_map_eq_ok hread
        have htold := fileSays_some_iff.mpr (Files.exists_readFile_iff.mp ⟨file.origin, hfound⟩)
        exact ⟨file.fields, htold, (hlayered _ htold).mp h⟩
      · rintro ⟨fields, htold, h⟩
        obtain ⟨origin, hread⟩ := Files.exists_readFile_iff.mpr (fileSays_some_iff.mp htold)
        dsimp only [load]
        rw [hread]
        exact (hlayered _ htold).mpr h

end Load

/-! ## What is not read -/

section Known

variable {fields : List (String × Document)} {environment : Environment} {options : Options}

/-- Whether an option is read from what a variable sets. -/
def Environment.isKnown (name : String) : Bool :=
  let lower := Text.LowerCase.toLower name
  scalarKeys.any (fun key => lower = "igloo__" ++ key) ||
    "igloo__labels__".toList.isPrefixOf lower.toList

/-- The variables from which options are read. -/
def Environment.known (environment : Environment) : Environment :=
  environment.filter fun entry => Environment.isKnown entry.1

/-- The fields of a file from which options are read. -/
def knownFields (fields : List (String × Document)) : List (String × Document) :=
  fields.filter fun field => field.1 ∈ labelsKey :: scalarKeys

theorem field?_knownFields {key : String} (hkey : key ∈ labelsKey :: scalarKeys) :
    Document.field? key (knownFields fields) = Document.field? key fields := by
  unfold Document.field? knownFields
  rw [List.find?_filter]
  refine congrArg (Option.map Prod.snd) (List.find?_congr fun field _ => ?_)
  by_cases heq : field.1 = key
  · simp [heq, hkey]
  · simp [heq]

theorem override?_known {name : String}
    (hname : ∀ entry ∈ environment, Text.LowerCase.toLower entry.1 = "igloo__" ++ name →
      Environment.isKnown entry.1 = true) :
    environment.known.override? name = environment.override? name := by
  unfold Environment.known Environment.override?
  rw [← List.filter_reverse, List.find?_filter]
  refine congrArg (Option.map Prod.snd) (List.find?_congr fun entry hentry => ?_)
  have hknown := hname entry (List.mem_reverse.mp hentry)
  by_cases heq : Text.LowerCase.toLower entry.1 = "igloo__" ++ name
  · simp [heq, hknown heq]
  · simp [heq]

theorem said?_known {key : String} (hkey : key ∈ scalarKeys) :
    said? (knownFields fields) environment.known key = said? fields environment key := by
  unfold said?
  rw [field?_knownFields (List.mem_cons_of_mem _ hkey), override?_known]
  intro entry _ hname
  simp only [Environment.isKnown, Bool.or_eq_true, List.any_eq_true, decide_eq_true_eq]
  exact .inl ⟨key, hkey, hname⟩

theorem labelOverride?_known (label : String) :
    environment.known.labelOverride? label = environment.labelOverride? label := by
  unfold Environment.labelOverride?
  rw [override?_known]
  intro entry _ hname
  have hfront : "igloo__labels__".toList <+: (Text.LowerCase.toLower entry.1).toList := by
    rw [hname, Environment.marked_label, String.toList_append]
    exact List.prefix_append _ _
  simp only [Environment.isKnown, Bool.or_eq_true]
  exact .inr (List.isPrefixOf_iff_prefix.mpr hfront)

theorem field?_labels_knownFields :
    Document.field? "labels" (knownFields fields) = Document.field? "labels" fields :=
  field?_knownFields List.mem_cons_self

theorem saidOfLabel?_known (label : String) :
    saidOfLabel? (knownFields fields) environment.known label =
      saidOfLabel? fields environment label := by
  unfold saidOfLabel? fileLabels
  rw [labelOverride?_known, field?_labels_knownFields]

/-- Other fields of the file and other variables change nothing. -/
theorem layered_known_iff (fields : List (String × Document)) (environment : Environment)
    (options : Options) :
    Layered (knownFields fields) environment.known options ↔
      Layered fields environment options := by
  have hscalar {key : String} (hkey : key ∈ scalarKeys) :
      said? (knownFields fields) environment.known key = said? fields environment key :=
    said?_known hkey
  constructor
  · rintro ⟨hbytes, hparallelism, hfraction, hinterval, hlabels, hordered, hlabelsFit⟩
    rw [hscalar (by decide)] at hbytes hparallelism hfraction hinterval
    simp only [saidOfLabel?_known] at hlabels
    simp only [labelOverride?_known, field?_labels_knownFields] at hlabelsFit
    exact ⟨hbytes, hparallelism, hfraction, hinterval, hlabels, hordered, hlabelsFit⟩
  · rintro ⟨hbytes, hparallelism, hfraction, hinterval, hlabels, hordered, hlabelsFit⟩
    refine ⟨?_, ?_, ?_, ?_, ?_, hordered, ?_⟩
    · rwa [hscalar (by decide)]
    · rwa [hscalar (by decide)]
    · rwa [hscalar (by decide)]
    · rwa [hscalar (by decide)]
    · simpa only [saidOfLabel?_known] using hlabels
    · simpa only [labelOverride?_known, field?_labels_knownFields] using hlabelsFit

example : Environment.isKnown Environment.pathVariable = false := by decide +kernel

end Known

/-! ## The program -/

/-- Options are loaded exactly if each field, and each label, is what its variable says, or else
what the file says, or else the default. Nothing else of a file or of the environment is read. The
program runs its source under the options that its configuration loads, of which its arguments
override two fields only. -/
theorem options_are_layered {formats : List Format} {files : Files} {environment : Environment}
    {path : Option String} (hformats : ∀ format ∈ formats, format.Distinct)
    (henv : environment.Plain)
    (hfile : ∀ fields, FileSays files formats path fields → PlainFile fields) :
    (∀ options, load formats files environment path = .ok options ↔
      ∃ fields, FileSays files formats path fields ∧ Layered fields environment options) ∧
    (∀ fields options, Layered (knownFields fields) environment.known options ↔
      Layered fields environment options) ∧
    ∀ (way : CommandLine.Execution) (world : CommandLine.World)
      (arguments : CommandLine.Arguments), CommandLine.Gives world.arguments arguments →
      (∀ options, CommandLine.options world arguments = .ok options ↔
        ∃ loaded, load world.formats world.files world.environment
            (arguments.config.or (world.environment.value? "IGLOO_CONFIG_PATH")) = .ok loaded ∧
          options = { loaded with
            desiredBundleBytes := arguments.bundleSize.getD loaded.desiredBundleBytes
            maxParallelism := arguments.parallelism.getD loaded.maxParallelism }) ∧
      ∀ options values source, CommandLine.options world arguments = .ok options →
        CommandLine.values world arguments = .ok values →
        CommandLine.source values = .ok source →
        ∃ events, CommandLine.runBy way world =
          CommandLine.conclude (world.log events) (way options source).result := by
  refine ⟨fun options => load_eq_ok_iff hformats henv hfile, ?_, ?_⟩
  · exact fun fields options => layered_known_iff fields environment options
  · intro way world arguments harguments
    refine ⟨fun options => ?_, fun options values source hoptions hvalues hsource => ?_⟩
    · have hname : CommandLine.configName? arguments world.environment =
          arguments.config.or (world.environment.value? "IGLOO_CONFIG_PATH") := by
        unfold CommandLine.configName?
        cases arguments.config <;> rfl
      rw [← hname]
      exact CommandLine.options_eq_ok_iff
    · exact CommandLine.exists_runBy_eq way harguments hoptions hvalues hsource

/-- The only file there is, of a name and a text. -/
def Files.only (name text : String) : Files :=
  ⟨id, fun path => if path = name then some (Text.Utf8.encode text) else none, id⟩

theorem Files.only_finds {name text : String} {formats after : List Format} {format : Format}
    (ending : String) (before : List Format) (hending : Path.ending? name = some ending)
    (hformats : formats = before ++ format :: after) (hformat : ending ∈ format.endings)
    (hbefore : ∀ other ∈ before, ending ∉ other.endings) :
    (Files.only name text).Finds formats name ⟨name, format, Text.Utf8.encode text⟩ :=
  .exact (if_pos rfl) hending hformats hformat hbefore

/-- A file sets a number and two labels, and the environment one of these labels and an interval,
among what no option is read from. The arguments set the number anew. -/
theorem options_are_layered_twoLabels :
    let document :=
      "max_parallelism = 2\nother = [1]\n[labels]\na = \"x\"\nb = \"y\"\n"
    let files := Files.only "run.toml" document
    let environment : Environment :=
      [("IGLOO__LABELS__B", "z"), ("IGLOO_CONFIG_PATH", "no.json"),
        ("Igloo__Rebalance_Interval_Ms", "7"), ("IGLOO__OTHER__DEEP", "1")]
    let world : CommandLine.World :=
      ⟨["--config", "run.toml", "-p", "3", "spam"], environment, files, standardFormats, [],
        fun _ => ""⟩
    let arguments : CommandLine.Arguments :=
      { config := some "run.toml", parallelism := some 3, values := ["spam"] }
    (∀ format ∈ standardFormats, format.Distinct) ∧ environment.Plain ∧
      (∀ fields, FileSays files standardFormats (some "run.toml") fields → PlainFile fields) ∧
      CommandLine.Gives world.arguments arguments ∧
      ∃ fields loaded options, FileSays files standardFormats (some "run.toml") fields ∧
        Layered fields environment loaded ∧ loaded.maxParallelism = 2 ∧
        loaded.rebalanceMillis = 7 ∧ loaded.labels = [("a", "x"), ("b", "z")] ∧
        CommandLine.options world arguments = .ok options ∧
        options = { loaded with maxParallelism := 3 } := by
  intro document files environment world arguments
  have henv : environment.Plain := by decide +kernel
  have hfinds : files.Finds standardFormats "run.toml" ⟨"run.toml", Toml.format, _⟩ :=
    Files.only_finds "toml" [] (by decide +kernel) rfl (by decide) (by simp)
  have hplain : (Toml.format.read document).toOption.all fun root =>
      ((rootFields "" root).toOption.all fun fields => PlainFile fields) := by decide +kernel
  have hfile : ∀ fields, FileSays files standardFormats (some "run.toml") fields →
      PlainFile fields := by
    intro fields htold
    rw [hfinds.says_iff.mp (fileSays_some_iff.mp htold)] at hplain
    exact of_decide_eq_true hplain
  have harguments : CommandLine.Gives world.arguments arguments :=
    CommandLine.parse_eq_run_iff.mp (by decide +kernel)
  have hread : ((load standardFormats files environment
      (some "run.toml")).toOption.any fun loaded =>
      loaded.maxParallelism = 2 ∧ loaded.rebalanceMillis = 7 ∧
        loaded.labels = [("a", "x"), ("b", "z")]) = true := by
    dsimp only [load]
    rw [hfinds.readFile_eq]
    decide +kernel
  obtain ⟨loaded, hload, hchecks⟩ := exists_of_any_toOption hread
  obtain ⟨hlayered, -, hprogram⟩ := options_are_layered distinct_standardFormats henv hfile
  obtain ⟨fields, htold, hfields⟩ := (hlayered loaded).mp hload
  obtain ⟨hmax, hinterval, hlabels⟩ := of_decide_eq_true hchecks
  refine ⟨distinct_standardFormats, henv, hfile, harguments, fields, loaded, _, htold, hfields,
    hmax, hinterval, hlabels, ?_, rfl⟩
  exact ((hprogram CommandLine.execute world arguments harguments).1 _).mpr ⟨loaded, hload, rfl⟩

/-- A file of plain keys sets the size of bundles to a number of 64 bits, and options are loaded
from it, but their size of bundles is another number. -/
theorem options_round_large_numbers :
    let document := "\x7b\"desired_bundle_size_bytes\": 9223372036854775809\x7d"
    let files := Files.only "run.json" document
    let fields : List (String × Document) :=
      [("desired_bundle_size_bytes", .scalar (.integer 9223372036854775809))]
    (9223372036854775809 : Nat) < 2 ^ 64 ∧ Environment.Plain [] ∧ PlainFile fields ∧
      FileSays files standardFormats (some "run.json") fields ∧
      ∃ options, load standardFormats files [] (some "run.json") = .ok options ∧
        options.desiredBundleBytes.toNat = 9223372036854775808 := by
  intro document files fields
  have hfinds : files.Finds standardFormats "run.json" ⟨"run.json", Json.format, _⟩ :=
    Files.only_finds "json" [Toml.format] (by decide +kernel) rfl (by decide) (by decide)
  have hread : Json.format.read document = .ok (.table fields) := by
    have hnone : Json.Blanks [] := by simp [Json.Blanks]
    have hkey : Json.KeyText _ (String.ofList "desired_bundle_size_bytes".toList) :=
      .intro hnone (Json.quoted_self (by decide +kernel)) hnone
    have hdigits : Nat.ofDigitChars 10 "9223372036854775809".toList 0 = 9223372036854775809 := by
      decide +kernel
    have hnumber : Json.NumberText false ("9223372036854775809".toList ++ ([] ++ []))
        (.scalar (.integer (Nat.ofDigitChars 10 "9223372036854775809".toList 0))) := by
      refine .intro ⟨by decide, List.all_eq_true.mp (by decide +kernel), by decide⟩ .absent .absent
        (.whole (.natural ?_))
      rw [hdigits]
      decide
    rw [hdigits, Nat.cast_ofNat] at hnumber
    have hvalue : Json.Spells 127 ([' '] ++ (_ ++ [])) (.padded _) :=
      .padded (by simp [Json.Blanks]) (.natural hnumber) hnone
    have hobject : Json.Spells 128 _ (.padded _) :=
      .padded hnone (.object (by decide) (.lastField hkey hvalue)) hnone
    have hspells : Json.Spells 128 document.toList (.padded (.table fields)) := by
      simpa [Json.keepLast, document] using hobject
    exact congrArg (Except.mapError _) (Json.parse_eq_ok_iff.mpr hspells)
  have hloads : ((load standardFormats files [] (some "run.json")).toOption.any fun options =>
      options.desiredBundleBytes.toNat = 9223372036854775808) = true := by
    dsimp only [load]
    rw [hfinds.readFile_eq]
    decide +kernel
  obtain ⟨options, hload, hrounded⟩ := exists_of_any_toOption hloads
  exact ⟨by decide, by decide +kernel, by decide +kernel,
    fileSays_some_iff.mpr (hfinds.says_iff.mpr hread), options, hload,
    of_decide_eq_true hrounded⟩

end BundledReading.Config

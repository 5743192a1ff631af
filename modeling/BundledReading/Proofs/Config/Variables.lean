import BundledReading.Proofs.Config.Layers
import Mathlib.Data.List.Find

/-!
# Variables

Every variable of a plain environment that is a setting leads to a scalar option, to one label, or
to what no option is read from (`Environment.Plain.leads`). What it leads to tells what setting it
changes (`Leads.covers`), and a layer of variables changes what each of them does
(`Environment.Plain.exists_layer`).
-/

namespace BundledReading.Config

open Setting (find? put Segment segments spellsPath)

/-- The keys of the options that are numbers. -/
def scalarKeys : List String := [bundleSizeKey, parallelismKey, fractionKey, intervalKey]

theorem isPlain_of_scalar : ∀ key ∈ scalarKeys, IsPlain key := by decide

theorem isPlain_labelsKey : IsPlain labelsKey := by decide

/-- A plain key does not lead to a label. -/
theorem IsPlain.ne_label {key : String} (h : IsPlain key) (label : String) :
    key ≠ "labels." ++ label := by
  rintro rfl
  have hpoint : '.' ∈ ("labels." ++ label).toList := by simp
  exact ne_point_of_isPlainCharacter (h.plain '.' hpoint) rfl

/-! ## Characters of names -/

section Characters

variable {c : Char}

theorem lt_of_isNameCharacter (h : c.isAlphanum || c = '_') : c.toNat < 128 := by
  rcases Bool.or_eq_true_iff.mp h with halphanum | hunderscore
  · exact lt_of_isAlphanum halphanum
  · rw [of_decide_eq_true hunderscore]
    decide

/-- The names of variables are plain in lower case. -/
theorem isPlainCharacter_toLower (h : c.isAlphanum || c = '_') :
    isPlainCharacter c.toLower = true := by
  have hall := of_forall_ascii
    (p := fun c => !(c.isAlphanum || c = '_') || isPlainCharacter c.toLower)
    (by decide +kernel) (lt_of_isNameCharacter h)
  simpa [h] using hall

end Characters

namespace Environment

/-- What a variable sets. -/
def ofVariable (value : String) : Setting := .leaf (.text value) (some origin)

/-- The value of the variable of a name, after the marker and in lower case. Of several the last
counts. -/
def override? (environment : Environment) (name : String) : Option String :=
  (environment.reverse.find? fun entry =>
    Text.LowerCase.toLower entry.1 = "igloo__" ++ name).map Prod.snd

/-- The value of the variable of a label. A label has a name. -/
def labelOverride? (environment : Environment) (label : String) : Option String :=
  if label = "" then none else environment.override? ("labels__" ++ label)

/-- Variables that are named by letters, digits and underscores, none of them below a scalar option
or in the place of all labels, and no label with two underscores side by side. -/
structure Plain (environment : Environment) : Prop where
  named : ∀ entry ∈ environment, ∀ c ∈ entry.1.toList, c.isAlphanum || c = '_'
  scalars : ∀ entry ∈ environment, ∀ key ∈ scalarKeys, ∀ below,
    Text.LowerCase.toLower entry.1 ≠ "igloo__" ++ key ++ "__" ++ below
  labels : ∀ entry ∈ environment, Text.LowerCase.toLower entry.1 ≠ "igloo__labels"
  labelNames : ∀ entry ∈ environment, ∀ label,
    Text.LowerCase.toLower entry.1 = "igloo__labels__" ++ label → ¬['_', '_'] <:+: label.toList

/-- Whether an environment is plain can be seen from what the names begin with. -/
theorem plain_iff {environment : Environment} :
    environment.Plain ↔ ∀ entry ∈ environment,
      (entry.1.toList.all fun c => c.isAlphanum || c = '_') ∧
      (∀ key ∈ scalarKeys,
        ¬("igloo__" ++ key ++ "__").toList <+: (Text.LowerCase.toLower entry.1).toList) ∧
      Text.LowerCase.toLower entry.1 ≠ "igloo__labels" ∧
      ("igloo__labels__".toList <+: (Text.LowerCase.toLower entry.1).toList →
        ¬['_', '_'] <:+: (Text.LowerCase.toLower entry.1).toList.drop 15) := by
  have hbegins (front name : String) :
      front.toList <+: name.toList ↔ ∃ below, name = front ++ below := by
    constructor
    · rintro ⟨below, hbelow⟩
      exact ⟨String.ofList below, String.toList_inj.mp (by simp [hbelow])⟩
    · rintro ⟨below, rfl⟩
      exact ⟨below.toList, (String.toList_append).symm⟩
  constructor
  · intro h entry hentry
    refine ⟨List.all_eq_true.mpr (h.named entry hentry), ?_, h.labels entry hentry, ?_⟩
    · intro key hkey hfront
      obtain ⟨below, hbelow⟩ := (hbegins _ _).mp hfront
      exact h.scalars entry hentry key hkey below hbelow
    · intro hfront
      obtain ⟨label, hlabel⟩ := (hbegins _ _).mp hfront
      have hdrop := h.labelNames entry hentry label hlabel
      rwa [hlabel, String.toList_append, List.drop_left' (by decide)]
  · intro h
    refine ⟨fun entry hentry => List.all_eq_true.mp (h entry hentry).1, ?_,
      fun entry hentry => (h entry hentry).2.2.1, ?_⟩
    · intro entry hentry key hkey below hbelow
      exact (h entry hentry).2.1 key hkey ((hbegins _ _).mpr ⟨below, hbelow⟩)
    · intro entry hentry label hlabel
      have hdrop := (h entry hentry).2.2.2 ((hbegins _ _).mpr ⟨label, hlabel⟩)
      rwa [hlabel, String.toList_append, List.drop_left' (by decide)] at hdrop

instance (environment : Environment) : Decidable environment.Plain :=
  decidable_of_iff _ plain_iff.symm

/-! ## Settings of variables -/

section Settings

variable {environment : Environment} {entry : String × String} {key name : String}

theorem key?_eq_some_iff :
    key? name = some key ↔
      ∃ rest, Text.LowerCase.toLower name = "igloo__" ++ rest ∧ joined rest = key := by
  have hmarker : "igloo__".toList = marker := by decide
  unfold key?
  dsimp only
  constructor
  · intro h
    split at h
    next hprefix =>
      obtain ⟨after, hafter⟩ := List.isPrefixOf_iff_prefix.mp hprefix
      refine ⟨String.ofList after, String.toList_inj.mp ?_, ?_⟩
      · rw [String.toList_append, hmarker, String.toList_ofList, hafter]
      · rw [← hafter, List.drop_left] at h
        rw [joined, String.toList_ofList]
        exact Option.some.inj h
    · cases h
  · rintro ⟨rest, hlower, rfl⟩
    rw [hlower, String.toList_append, hmarker,
      if_pos (List.isPrefixOf_iff_prefix.mpr (List.prefix_append _ _)), List.drop_left]
    rfl

theorem settings_concat (environment : Environment) (entry : String × String) :
    settings (environment ++ [entry]) =
      match key? entry.1 with
      | none => settings environment
      | some key => put key (ofVariable entry.2) (settings environment) :=
  List.foldl_concat _ _ _ _

theorem nodup_settings (environment : Environment) :
    ((settings environment).map Prod.fst).Nodup := by
  induction environment using List.reverseRecOn with
  | nil => exact List.nodup_nil
  | append_singleton environment entry ih =>
      rw [settings_concat]
      split
      · exact ih
      · exact Setting.nodup_put ih _ _

theorem exists_of_mem_settings {entry : String × Setting} (h : entry ∈ settings environment) :
    ∃ source ∈ environment, key? source.1 = some entry.1 ∧ entry.2 = ofVariable source.2 := by
  induction environment using List.reverseRecOn with
  | nil => cases h
  | append_singleton environment last ih =>
      rw [settings_concat] at h
      have hbefore (hmem : entry ∈ settings environment) :
          ∃ source ∈ environment ++ [last],
            key? source.1 = some entry.1 ∧ entry.2 = ofVariable source.2 := by
        obtain ⟨source, hsource, heq⟩ := ih hmem
        exact ⟨source, List.mem_append_left _ hsource, heq⟩
      split at h
      · exact hbefore h
      next key hkey =>
        rcases Setting.eq_or_mem_of_mem_put h with rfl | h
        · exact ⟨last, by simp, hkey, rfl⟩
        · exact hbefore h

/-- The last variable of a key sets it. -/
theorem find?_settings (environment : Environment) (key : String) :
    find? key (settings environment) =
      (environment.reverse.find? fun entry => key? entry.1 = some key).map
        fun entry => ofVariable entry.2 := by
  induction environment using List.reverseRecOn with
  | nil => rfl
  | append_singleton environment last ih =>
      rw [settings_concat, List.reverse_concat, List.find?_cons]
      cases hlast : key? last.1 with
      | none => simpa using ih
      | some other =>
          by_cases hkey : other = key
          · simp [hkey, Setting.find?_put_self]
          · simpa [hkey, Setting.find?_put_of_ne hkey] using ih

/-- A key that exactly the variables of one name set has the value of that variable. -/
theorem find?_settings_of_iff
    (h : ∀ entry ∈ environment,
      key? entry.1 = some key ↔ Text.LowerCase.toLower entry.1 = "igloo__" ++ name) :
    find? key (settings environment) = (environment.override? name).map ofVariable := by
  have hsame : (environment.reverse.find? fun entry => key? entry.1 = some key) =
      environment.reverse.find? fun entry =>
        Text.LowerCase.toLower entry.1 = "igloo__" ++ name := by
    refine List.find?_congr fun entry hentry => ?_
    simp [h entry (List.mem_reverse.mp hentry)]
  rw [find?_settings, override?, Option.map_map, hsame]
  rfl

end Settings

/-! ## Names of variables -/

theorem marked_label (label : String) :
    "igloo__" ++ ("labels__" ++ label) = "igloo__labels__" ++ label := by
  rw [← String.append_assoc]
  rfl

namespace Plain

variable {environment : Environment} {entry : String × String} {key label rest : String}

/-- What follows the marker in a name is plain. -/
theorem isPlainCharacter_rest (h : Plain environment) (hentry : entry ∈ environment)
    (hlower : Text.LowerCase.toLower entry.1 = "igloo__" ++ rest) :
    ∀ c ∈ rest.toList, isPlainCharacter c = true := by
  have hascii : ∀ c ∈ entry.1.toList, c.toNat < 128 := fun c hc =>
    lt_of_isNameCharacter (h.named entry hentry c hc)
  have hmapped : entry.1.toList.map Char.toLower = "igloo__".toList ++ rest.toList := by
    rw [← String.toList_append, ← hlower, Text.LowerCase.toLower, String.toList_ofList,
      toLowerAfter_eq_map [] hascii]
  intro c hc
  have hmem : c ∈ entry.1.toList.map Char.toLower := by
    rw [hmapped]
    exact List.mem_append_right _ hc
  obtain ⟨d, hd, rfl⟩ := List.mem_map.mp hmem
  exact isPlainCharacter_toLower (h.named entry hentry d hd)

/-- A scalar option is set by the variable of its name. -/
theorem key?_eq_scalar_iff (h : Plain environment) (hentry : entry ∈ environment)
    (hkey : key ∈ scalarKeys) :
    key? entry.1 = some key ↔ Text.LowerCase.toLower entry.1 = "igloo__" ++ key := by
  have hself : joined key = key := by
    have hall : ∀ key ∈ scalarKeys, joined key = key := by decide
    exact hall key hkey
  rw [key?_eq_some_iff]
  constructor
  · rintro ⟨rest, hlower, hrest⟩
    have hsplit := splitLevels_joined (h.isPlainCharacter_rest hentry hlower)
    rw [hrest, splitLevels_of_isPlain (isPlain_of_scalar key hkey)] at hsplit
    rw [hlower, String.toList_inj.mp hsplit]
  · exact fun hlower => ⟨key, hlower, hself⟩

/-- A label is set by the variable of its name. -/
theorem key?_eq_label_iff (h : Plain environment) (hentry : entry ∈ environment) :
    key? entry.1 = some ("labels." ++ label) ↔
      Text.LowerCase.toLower entry.1 = "igloo__" ++ ("labels__" ++ label) := by
  rw [key?_eq_some_iff]
  constructor
  · rintro ⟨rest, hlower, hrest⟩
    have hsplit := splitLevels_joined (h.isPlainCharacter_rest hentry hlower)
    have hname : rest = "labels__" ++ String.ofList (splitLevels label.toList) := by
      refine String.toList_inj.mp (hsplit.symm.trans ?_)
      have hfront : splitLevels "labels.".toList = "labels__".toList := by decide
      rw [hrest, String.toList_append, splitLevels_append, hfront, String.toList_append,
        String.toList_ofList (l := splitLevels label.toList)]
    -- A point in the label could only come from two underscores in its name.
    have hlabel : '.' ∉ label.toList := by
      intro hpoint
      refine h.labelNames entry hentry (String.ofList (splitLevels label.toList)) ?_ ?_
      · rw [hlower, hname, marked_label]
      · rw [String.toList_ofList]
        exact infix_splitLevels hpoint
    rw [hlower, hname, splitLevels_eq_self hlabel, String.ofList_toList]
  · intro hlower
    have hlabel := h.labelNames entry hentry label (hlower.trans (marked_label label))
    refine ⟨"labels__" ++ label, hlower, String.toList_inj.mp ?_⟩
    rw [joined, String.toList_ofList, String.toList_append, String.toList_append]
    have hlevels : joinLevels ("labels__".toList ++ label.toList) =
        "labels.".toList ++ joinLevels label.toList := by
      simp [joinLevels]
    rw [hlevels, joinLevels_eq_self hlabel]

theorem find?_scalar (h : Plain environment) (hkey : key ∈ scalarKeys) :
    find? key (settings environment) = (environment.override? key).map ofVariable :=
  find?_settings_of_iff fun _ hentry => h.key?_eq_scalar_iff hentry hkey

theorem find?_label (h : Plain environment) (label : String) :
    find? ("labels." ++ label) (settings environment) =
      (environment.override? ("labels__" ++ label)).map ofVariable :=
  find?_settings_of_iff fun _ hentry => h.key?_eq_label_iff hentry

end Plain

end Environment

/-! ## Where keys lead -/

/-- The entries of the table of labels, if there is one. -/
def Setting.labels (root : Setting) : List (String × Setting) :=
  ((find? labelsKey root.entries).getD unset).entries

/-- Where the key of a variable leads: to a scalar option, to a label, or to what no option is read
from. -/
inductive Leads (key : String) : Prop
  | scalar (hkey : key ∈ scalarKeys)
  | label (label : String) (hlabel : IsPlain label) (hkey : key = "labels." ++ label)
  | other (first : String) (steps : List Segment)
      (hsegments : segments key = .key first :: steps)
      (hsettled : ∀ step ∈ .key first :: steps, step.Settled)
      (hpath : spellsPath first = false)
      (hscalar : first ∉ scalarKeys) (hlabels : first ≠ labelsKey)
      (hkey : key ∉ scalarKeys)
      (hlabel : ∀ label, label ≠ "" → key ≠ "labels." ++ label)

theorem Environment.Plain.leads {environment : Environment} {entry : String × String}
    {key : String} (h : environment.Plain) (hentry : entry ∈ environment)
    (hkey : Environment.key? entry.1 = some key) : Leads key := by
  by_cases hscalar : key ∈ scalarKeys
  · exact .scalar hscalar
  by_cases hlabel : ∃ label, label ≠ "" ∧ key = "labels." ++ label
  · obtain ⟨label, hne, rfl⟩ := hlabel
    have hlower := (h.key?_eq_label_iff hentry).mp hkey
    have hplain := h.isPlainCharacter_rest hentry hlower
    refine .label label ⟨by simpa using hne, fun c hc => hplain c ?_⟩ rfl
    rw [String.toList_append]
    exact List.mem_append_right _ hc
  obtain ⟨rest, hlower, rfl⟩ := Environment.key?_eq_some_iff.mp hkey
  have hrest := h.isPlainCharacter_rest hentry hlower
  have hsplit := Environment.splitLevels_joined hrest
  have hlabel : ∀ label, label ≠ "" → Environment.joined rest ≠ "labels." ++ label :=
    fun label hne heq => hlabel ⟨label, hne, heq⟩
  have hcharacters := Environment.isKeyCharacter_joined hrest
  rcases Setting.segments_cases hcharacters with
    hwhole | ⟨first, below, steps, hfirst, hjoined, hbelow, hpath, hsettled⟩
  · refine .other _ [] hwhole ?_ (by simp [spellsPath, hwhole]) hscalar ?_ hscalar hlabel
    · simpa [Segment.Settled] using toLower_eq_self hcharacters
    · intro heq
      have hself := Environment.splitLevels_of_isPlain isPlain_labelsKey
      rw [heq, hself] at hsplit
      exact h.labels entry hentry (by rw [hlower, ← String.toList_inj.mp hsplit]; rfl)
  · refine .other first steps hpath ?_ (Setting.spellsPath_of_isPlain hfirst) ?_ ?_ hscalar hlabel
    · exact List.forall_mem_cons.mpr ⟨hfirst.toLower_eq, hsettled⟩
    · -- A path that begins with a scalar option is spelt by a name below that option.
      intro hmem
      have hself := Environment.splitLevels_of_isPlain hfirst
      refine h.scalars entry hentry first hmem (String.ofList (Environment.splitLevels below)) ?_
      rw [hlower]
      refine String.toList_inj.mp ?_
      rw [String.toList_append, ← hsplit, hjoined, Environment.splitLevels_append,
        Environment.splitLevels_cons, hself]
      simp
    · rintro rfl
      refine hlabel (String.ofList below) (by simpa using hbelow) (String.toList_inj.mp ?_)
      rw [hjoined, String.toList_append, String.toList_ofList (l := below)]
      rfl

/-! ## Layers of variables -/

/-- What a layer says of a label. -/
def layerLabel? (label : String) (layer : List (String × Setting)) : Option Setting :=
  if label = "" then none else find? ("labels." ++ label) layer

/-- Labels stand in a table, or nowhere. -/
def Setting.LabelsFit (root : Setting) : Prop :=
  ∀ setting, find? labelsKey root.entries = some setting → ∃ entries, setting = .table entries

/-- What a layer of variables makes of the settings before: each scalar option and each label is
what the layer says of it, or else what it was. -/
structure Covers (layer : List (String × Setting)) (root next : Setting) : Prop where
  table : (∃ entries, root = .table entries) → ∃ entries, next = .table entries
  paths : (∀ entry ∈ root.entries, spellsPath entry.1 = false) →
    ∀ entry ∈ next.entries, spellsPath entry.1 = false
  scalar : ∀ key ∈ scalarKeys,
    find? key next.entries = (find? key layer).or (find? key root.entries)
  label : ∀ label, find? label next.labels = (layerLabel? label layer).or (find? label root.labels)
  nodup : (root.labels.map Prod.fst).Nodup → (next.labels.map Prod.fst).Nodup
  labelsFit : next.LabelsFit ↔ (∃ label, (layerLabel? label layer).isSome) ∨ root.LabelsFit

section Covers

variable {key first : String} {root mid next setting : Setting} {entry : String × Setting}
  {rest : List (String × Setting)}

theorem covers_nil (root : Setting) : Covers [] root root where
  table := id
  paths := id
  scalar := fun _ _ => rfl
  label := by simp [layerLabel?, find?]
  nodup := id
  labelsFit := by simp [layerLabel?, find?]

/-- Keys that differ are found in what follows, or else in front. -/
theorem find?_cons_of_not_mem (h : entry.1 ∉ rest.map Prod.fst) (key : String) :
    find? key (entry :: rest) = (find? key rest).or (find? key [entry]) := by
  simp only [find?]
  split
  next heq => rw [Setting.find?_eq_none (heq ▸ h), Option.none_or]
  · rw [Option.or_none]

theorem layerLabel?_cons (h : entry.1 ∉ rest.map Prod.fst) (label : String) :
    layerLabel? label (entry :: rest) = (layerLabel? label rest).or (layerLabel? label [entry]) := by
  unfold layerLabel?
  split
  · rfl
  · exact find?_cons_of_not_mem h _

/-- What comes last covers what comes before. -/
theorem Covers.cons (hnew : entry.1 ∉ rest.map Prod.fst) (hfirst : Covers [entry] root mid)
    (hrest : Covers rest mid next) : Covers (entry :: rest) root next where
  table := fun h => hrest.table (hfirst.table h)
  paths := fun h => hrest.paths (hfirst.paths h)
  scalar := by
    intro key hkey
    rw [hrest.scalar key hkey, hfirst.scalar key hkey, find?_cons_of_not_mem hnew, Option.or_assoc]
  label := by
    intro label
    rw [hrest.label, hfirst.label, layerLabel?_cons hnew, Option.or_assoc]
  nodup := fun h => hrest.nodup (hfirst.nodup h)
  labelsFit := by
    simp only [hrest.labelsFit, hfirst.labelsFit, layerLabel?_cons hnew, Option.isSome_or,
      Bool.or_eq_true, exists_or, or_assoc]

theorem paths_put (hfirst : spellsPath first = false)
    (h : ∀ entry ∈ root.entries, spellsPath entry.1 = false) :
    ∀ entry ∈ put first setting root.entries, spellsPath entry.1 = false := by
  intro entry hentry
  rcases Setting.eq_or_mem_of_mem_put hentry with rfl | hentry
  · exact hfirst
  · exact h entry hentry

theorem layerLabel?_singleton (key label : String) (setting : Setting) :
    layerLabel? label [(key, setting)] =
      if label ≠ "" ∧ key = "labels." ++ label then some setting else none := by
  by_cases hlabel : label = "" <;> simp [layerLabel?, hlabel, find?]

/-- What is set beside the labels covers a scalar option or nothing. -/
theorem covers_of_ne {inner : Setting} (hfirst : first ≠ labelsKey)
    (hpath : spellsPath first = false) (hlabel : ∀ label, label ≠ "" → key ≠ "labels." ++ label)
    (hscalar : ∀ other ∈ scalarKeys, find? other (put first inner root.entries) =
      (find? other [(key, setting)]).or (find? other root.entries)) :
    Covers [(key, setting)] root (.table (put first inner root.entries)) := by
  have hlabels : Setting.labels (.table (put first inner root.entries)) = root.labels := by
    simp [Setting.labels, Setting.entries, Setting.find?_put_of_ne hfirst]
  have hnone (label : String) : layerLabel? label [(key, setting)] = none := by
    rw [layerLabel?_singleton, if_neg fun h => hlabel label h.1 h.2]
  exact
    { table := fun _ => ⟨_, rfl⟩
      paths := paths_put hpath
      scalar := hscalar
      label := fun label => by rw [hlabels, hnone, Option.none_or]
      nodup := fun h => by rwa [hlabels]
      labelsFit := by
        simp [Setting.LabelsFit, Setting.entries, Setting.find?_put_of_ne hfirst, hnone] }

/-- What is set among the labels covers one of them. -/
theorem covers_of_label {label : String} (hlabel : label ≠ "") :
    Covers [("labels." ++ label, setting)] root
      (.table (put labelsKey (.table (put label setting root.labels)) root.entries)) where
  table := fun _ => ⟨_, rfl⟩
  paths := paths_put (Setting.spellsPath_of_isPlain isPlain_labelsKey)
  scalar := by
    intro other hother
    have hkey : labelsKey ≠ other := by
      rintro rfl
      exact absurd hother (by decide)
    have hlonger : "labels." ++ label ≠ other :=
      ((isPlain_of_scalar other hother).ne_label label).symm
    simp [Setting.entries, Setting.find?_put_of_ne hkey, find?, hlonger]
  label := by
    intro other
    rw [layerLabel?_singleton]
    simp only [Setting.labels, Setting.entries, Setting.find?_put_self, Option.getD_some]
    by_cases hother : label = other
    · subst hother
      simp [hlabel, Setting.find?_put_self]
    · rw [Setting.find?_put_of_ne hother, if_neg, Option.none_or]
      exact fun h => hother (by simpa using h.2)
  nodup := by
    intro h
    simpa [Setting.labels, Setting.entries, Setting.find?_put_self] using
      Setting.nodup_put h label setting
  labelsFit := by
    have hcovered : (layerLabel? label [("labels." ++ label, setting)]).isSome := by
      rw [layerLabel?_singleton, if_pos ⟨hlabel, rfl⟩]
      rfl
    refine iff_of_true (fun found hfound => ?_) (.inl ⟨label, hcovered⟩)
    rw [Setting.entries, Setting.find?_put_self] at hfound
    exact ⟨_, (Option.some.inj hfound).symm⟩

end Covers

section Leads

variable {key : String}

/-- Setting the key of a variable covers what a layer of this variable says. -/
theorem Leads.covers (h : Leads key) (value : String) (root : Setting) :
    ∃ next, Setting.assignKey key (Environment.ofVariable value) root = .ok next ∧
      Covers [(key, Environment.ofVariable value)] root next := by
  cases h with
  | scalar hkey =>
      have hplain := isPlain_of_scalar key hkey
      refine ⟨.table (put key (Environment.ofVariable value) root.entries), ?_, ?_⟩
      · rw [Setting.assignKey, Setting.segments_of_isPlain hplain, Setting.assignAt,
          Environment.ofVariable, Setting.assign_leaf, hplain.toLower_eq]
      · refine covers_of_ne ?_ (Setting.spellsPath_of_isPlain hplain) ?_ ?_
        · rintro rfl
          exact absurd hkey (by decide)
        · exact fun label _ => hplain.ne_label label
        · intro other _
          by_cases hother : key = other
          · subst hother
            simp [Setting.find?_put_self, find?]
          · simp [Setting.find?_put_of_ne hother, find?, hother]
  | label label hlabel hkey =>
      subst hkey
      refine ⟨.table (put labelsKey (.table (put label (Environment.ofVariable value) root.labels))
        root.entries), ?_, covers_of_label (by simpa using hlabel.nonempty)⟩
      have hsegments : segments ("labels." ++ label) = [.key labelsKey, .key label] := by
        rw [← Setting.segments_of_isPlain_pair isPlain_labelsKey hlabel]
        rfl
      rw [Setting.assignKey, hsegments, Setting.assignAt, Setting.assignAt,
        Environment.ofVariable, Setting.assign_leaf, hlabel.toLower_eq]
      · rfl
      · simp
  | other first steps hsegments hsettled hpath hscalar hlabels hkey hlabel =>
      obtain ⟨inner, hinner⟩ :=
        Setting.exists_assignAt hsettled (Environment.ofVariable value) root
      refine ⟨_, by rw [Setting.assignKey, hsegments, hinner],
        covers_of_ne hlabels hpath hlabel ?_⟩
      intro other hother
      have hfirst : first ≠ other := fun heq => hscalar (heq ▸ hother)
      have hne : key ≠ other := fun heq => hkey (heq ▸ hother)
      simp [Setting.find?_put_of_ne hfirst, find?, hne]

/-- A layer of variables covers what it says. -/
theorem exists_layer_of_leads {layer : List (String × Setting)} (root : Setting)
    (hnodup : (layer.map Prod.fst).Nodup)
    (h : ∀ entry ∈ layer, Leads entry.1 ∧ ∃ value, entry.2 = Environment.ofVariable value) :
    ∃ next, root.layer layer = .ok next ∧ Covers layer root next := by
  induction layer generalizing root with
  | nil => exact ⟨root, rfl, covers_nil root⟩
  | cons entry rest ih =>
      obtain ⟨key, setting⟩ := entry
      obtain ⟨hnew, hrest⟩ := List.nodup_cons.mp hnodup
      obtain ⟨⟨hleads, value, rfl⟩, hothers⟩ := List.forall_mem_cons.mp h
      obtain ⟨mid, hmid, hfirst⟩ := hleads.covers value root
      obtain ⟨next, hnext, hcovers⟩ := ih mid hrest hothers
      refine ⟨next, ?_, hfirst.cons hnew hcovers⟩
      rw [Setting.layer, List.foldlM_cons]
      dsimp only
      rw [hmid]
      exact hnext

theorem Environment.Plain.exists_layer {environment : Environment} (h : environment.Plain)
    (root : Setting) :
    ∃ next, root.layer environment.settings = .ok next ∧
      Covers environment.settings root next := by
  refine exists_layer_of_leads root (Environment.nodup_settings environment) fun entry hentry => ?_
  obtain ⟨source, hsource, hkey, hvalue⟩ := Environment.exists_of_mem_settings hentry
  exact ⟨h.leads hsource hkey, source.2, hvalue⟩

end Leads

end BundledReading.Config

import BundledReading.Proofs.Config.DistinctKeys
import BundledReading.Proofs.Config.KeyPaths
import Mathlib.Data.List.Induction

/-!
# Laying settings over settings

A layer sets one key after the other. The entries of a file have plain keys, each once, and laid
over nothing they are found as they are, but that tables have been laid out anew
(`find?_assignAll`), and no conversion can tell. A key that spells a path changes nothing beside the
first key of that path (`exists_assignAt`).
-/

namespace BundledReading.Config.Setting

variable {key : String} {setting root next : Setting} {entries : List (String × Setting)}

/-! ## Entries -/

theorem put_eq_putEntry (key : String) (setting : Setting) (entries : List (String × Setting)) :
    put key setting entries = putEntry key setting entries := by
  induction entries with
  | nil => rfl
  | cons entry rest ih => rw [put, putEntry, ih]

/-- Keys stay different from one another when one is put. -/
theorem nodup_put (h : (entries.map Prod.fst).Nodup) (key : String) (setting : Setting) :
    ((put key setting entries).map Prod.fst).Nodup := by
  rw [put_eq_putEntry]
  exact (Clear.putEntry (p := fun _ => True) ⟨h, fun _ _ => trivial⟩ key trivial).nodup

theorem eq_or_mem_of_mem_put {entry : String × Setting} (h : entry ∈ put key setting entries) :
    entry = (key, setting) ∨ entry ∈ entries := by
  rw [put_eq_putEntry] at h
  exact eq_or_mem_of_mem_putEntry h

theorem find?_eq_none (h : key ∉ entries.map Prod.fst) : find? key entries = none := by
  induction entries with
  | nil => rfl
  | cons entry rest ih =>
      obtain ⟨hne, hrest⟩ := not_or.mp (mt List.mem_cons.mpr h)
      rw [find?, if_neg (Ne.symm hne), ih hrest]

theorem find?_of_mem (hnodup : (entries.map Prod.fst).Nodup) (h : (key, setting) ∈ entries) :
    find? key entries = some setting := by
  induction entries with
  | nil => cases h
  | cons entry rest ih =>
      obtain ⟨hnew, hrest⟩ := List.nodup_cons.mp hnodup
      rcases List.mem_cons.mp h with rfl | h
      · rw [find?, if_pos rfl]
      · have hne : entry.1 ≠ key := by
          intro heq
          exact hnew (List.mem_map.mpr ⟨_, h, heq.symm⟩)
        rw [find?, if_neg hne, ih hrest h]

theorem mem_of_find? (h : find? key entries = some setting) : (key, setting) ∈ entries := by
  induction entries with
  | nil => cases h
  | cons entry rest ih =>
      rw [find?] at h
      split at h
      next hkey =>
        cases h
        exact hkey ▸ List.mem_cons_self
      · exact List.mem_cons_of_mem _ (ih h)

/-! ## Setting one key -/

/-- What is found of a setting once it has been set where nothing was: a table is laid out anew. -/
def laidOut : Setting → Setting
  | .table entries => assignAll entries empty
  | setting => setting

/-- Setting a key puts something under it in lower case. -/
theorem exists_assign_eq (key : String) (setting root : Setting) :
    ∃ inner, assign key setting root =
      .table (put (Text.LowerCase.toLower key) inner root.entries) := by
  cases setting <;> exact ⟨_, rfl⟩

theorem assign_leaf {value : Scalar} {origin : Option String} (key : String) (root : Setting) :
    assign key (.leaf value origin) root =
      .table (put (Text.LowerCase.toLower key) (.leaf value origin) root.entries) := rfl

/-- Setting a new key puts the setting under it. -/
theorem assign_eq_of_new (hkey : Text.LowerCase.toLower key = key) (setting : Setting)
    (hnew : find? key root.entries = none) :
    assign key setting root = .table (put key setting.laidOut root.entries) := by
  cases setting with
  | table incoming => simp only [assign, hkey, hnew, Option.getD_none, laidOut]
  | leaf value origin => simp only [assign, hkey, laidOut]
  | array items origin => simp only [assign, hkey, laidOut]

theorem exists_assignAll_eq (incoming entries : List (String × Setting)) :
    ∃ next, assignAll incoming (.table entries) = .table next := by
  induction incoming generalizing entries with
  | nil => exact ⟨entries, rfl⟩
  | cons entry rest ih =>
      obtain ⟨inner, hinner⟩ := exists_assign_eq entry.1 entry.2 (.table entries)
      rw [assignAll, hinner]
      exact ih _

theorem nodup_assignAll (incoming : List (String × Setting))
    (h : (root.entries.map Prod.fst).Nodup) :
    ((assignAll incoming root).entries.map Prod.fst).Nodup := by
  induction incoming generalizing root with
  | nil => exact h
  | cons entry rest ih =>
      obtain ⟨inner, hinner⟩ := exists_assign_eq entry.1 entry.2 root
      rw [assignAll, hinner]
      exact ih (nodup_put h _ _)

/-- New keys that differ are found as they were set. -/
theorem find?_assignAll (hlower : ∀ entry ∈ entries, Text.LowerCase.toLower entry.1 = entry.1)
    (hnodup : (entries.map Prod.fst).Nodup)
    (hnew : ∀ entry ∈ entries, find? entry.1 root.entries = none) (key : String) :
    find? key (assignAll entries root).entries =
      ((find? key entries).map laidOut).or (find? key root.entries) := by
  induction entries generalizing root with
  | nil => rfl
  | cons entry rest ih =>
      obtain ⟨first, setting⟩ := entry
      obtain ⟨hother, hrest⟩ := List.nodup_cons.mp hnodup
      obtain ⟨hfirstLower, hrestLower⟩ := List.forall_mem_cons.mp hlower
      obtain ⟨hfirstNew, hrestNew⟩ := List.forall_mem_cons.mp hnew
      have hstill : ∀ entry ∈ rest,
          find? entry.1 (Setting.table (put first setting.laidOut root.entries)).entries = none := by
        intro other hmem
        have hne : first ≠ other.1 :=
          fun heq => hother (List.mem_map.mpr ⟨_, hmem, heq.symm⟩)
        rw [Setting.entries, find?_put_of_ne hne]
        exact hrestNew other hmem
      rw [assignAll, assign_eq_of_new hfirstLower setting hfirstNew,
        ih hrestLower hrest hstill, find?]
      by_cases hkey : first = key
      · subst hkey
        simp [entries, find?_put_self, find?_eq_none hother]
      · simp [entries, hkey, find?_put_of_ne hkey]

/-- What holds of the keys that are set, and of those that are there, holds of all. -/
theorem forall_mem_assignAll {p : String → Prop}
    (hentries : ∀ entry ∈ entries, p (Text.LowerCase.toLower entry.1))
    (hroot : ∀ entry ∈ root.entries, p entry.1) :
    ∀ entry ∈ (assignAll entries root).entries, p entry.1 := by
  induction entries generalizing root with
  | nil => exact hroot
  | cons entry rest ih =>
      obtain ⟨hfirst, hrest⟩ := List.forall_mem_cons.mp hentries
      obtain ⟨inner, hinner⟩ := exists_assign_eq entry.1 entry.2 root
      rw [assignAll, hinner]
      refine ih hrest fun other hother => ?_
      rcases eq_or_mem_of_mem_put hother with rfl | hother
      · exact hfirst
      · exact hroot other hother

/-! ## Conversions -/

theorem exists_laidOut_table (entries : List (String × Setting)) :
    ∃ next, laidOut (.table entries) = .table next := exists_assignAll_eq entries []

/-- A conversion that does not read what a table holds may be given one that is laid out anew. -/
theorem convert_laidOut {β : Type} {convert : Setting → β}
    (h : ∀ entries next, convert (.table entries) = convert (.table next)) (setting : Setting) :
    convert setting.laidOut = convert setting := by
  cases setting with
  | table entries =>
      obtain ⟨next, hnext⟩ := exists_laidOut_table entries
      rw [hnext, h next entries]
  | _ => rfl

theorem toUInt64_laidOut (setting : Setting) : toUInt64 setting.laidOut = toUInt64 setting :=
  convert_laidOut (fun _ _ => rfl) setting

theorem toFloat_laidOut (setting : Setting) : toFloat setting.laidOut = toFloat setting :=
  convert_laidOut (fun _ _ => rfl) setting

theorem toText_laidOut (setting : Setting) : toText setting.laidOut = toText setting :=
  convert_laidOut (fun _ _ => rfl) setting

/-! ## Layers -/

/-- Setting what a path of keys leads to changes nothing beside its first key. -/
theorem exists_assignAt {name : String} {steps : List Segment}
    (hsettled : ∀ step ∈ .key name :: steps, Segment.Settled step) (setting root : Setting) :
    ∃ inner, assignAt (.key name :: steps) setting root =
      .ok (.table (put name inner root.entries)) := by
  induction steps generalizing name root with
  | nil =>
      obtain ⟨inner, hinner⟩ := exists_assign_eq name setting root
      have hname : Text.LowerCase.toLower name = name := hsettled _ List.mem_cons_self
      exact ⟨inner, by rw [assignAt, hinner, hname]⟩
  | cons step rest ih =>
      obtain ⟨-, hrest⟩ := List.forall_mem_cons.mp hsettled
      cases step with
      | index index => exact absurd (hrest _ List.mem_cons_self) id
      | key below =>
          obtain ⟨inner, hinner⟩ := ih hrest ((find? name root.entries).getD unset)
          refine ⟨.table (put below inner ((find? name root.entries).getD unset).entries), ?_⟩
          rw [assignAt, hinner]
          · rfl
          · simp

/-- A layer of plain keys sets them one after the other. -/
theorem layer_of_isPlain (h : ∀ entry ∈ entries, IsPlain entry.1) :
    layer root entries = .ok (assignAll entries root) := by
  induction entries generalizing root with
  | nil => rfl
  | cons entry rest ih =>
      obtain ⟨hfirst, hrest⟩ := List.forall_mem_cons.mp h
      rw [assignAll, ← ih hrest, layer, List.foldlM_cons, assignKey,
        segments_of_isPlain hfirst]
      rfl

/-- No path is followed if no key spells one. -/
theorem followPaths_eq_self (h : ∀ entry ∈ entries, spellsPath entry.1 = false) :
    followPaths (.table entries) = .ok (.table entries) := by
  have hpaths : entries.filter (fun entry => spellsPath entry.1) = [] :=
    List.filter_eq_nil_iff.mpr fun entry hentry => by simp [h entry hentry]
  have hothers : entries.filter (fun entry => !spellsPath entry.1) = entries :=
    List.filter_eq_self.mpr fun entry hentry => by simp [h entry hentry]
  rw [followPaths, List.partition_eq_filter_filter]
  simp only [Setting.entries, hpaths, Function.comp_def, hothers]
  rfl

theorem spellsPath_of_isPlain (h : IsPlain key) : spellsPath key = false := by
  simp [spellsPath, segments_of_isPlain h]

end BundledReading.Config.Setting

import BundledReading.Config.Load
import Mathlib.Data.List.Nodup

/-!
# Files without ambiguity

A format has distinct keys if what it reads says at most one thing under a key (`Format.Distinct`).
The formats that are read here do (`distinct_standardFormats`): JSON keeps the last of several
fields of one name, and TOML refuses to define anything a second time. So wherever a table stands in
what a file says, but for the items of arrays, none of its keys stands there twice
(`Files.clear_readFile`).

## Implementation notes

Nothing is asked of the items of arrays: no option is read from them, and both readers of files go
into a list of tables only to put it back as a list.
-/

namespace BundledReading.Config

section Except

variable {ε α β : Type} {x : Except ε α} {b : β}

theorem exists_of_bind_eq_ok {f : α → Except ε β} (h : x >>= f = .ok b) :
    ∃ a, x = .ok a ∧ f a = .ok b := by
  cases x with
  | error fault => cases h
  | ok a => exact ⟨a, rfl, h⟩

theorem exists_of_map_eq_ok {f : α → β} (h : f <$> x = .ok b) : ∃ a, x = .ok a ∧ f a = b := by
  cases x with
  | error fault => cases h
  | ok a => exact ⟨a, rfl, Except.ok.inj h⟩

end Except

/-! ## Entries -/

/-- Entries of which no two have one key, each with a value as `p` says. -/
structure Clear {β : Type} (p : β → Prop) (entries : List (String × β)) : Prop where
  nodup : (entries.map Prod.fst).Nodup
  each : ∀ entry ∈ entries, p entry.2

section Clear

variable {β : Type} {p : β → Prop} {entries : List (String × β)} {key : String} {value : β}

theorem clear_nil : Clear p [] := ⟨List.nodup_nil, by simp⟩

/-- Another entry may come last if its key is new. -/
theorem Clear.concat (h : Clear p entries) (hkey : key ∉ entries.map Prod.fst) (hvalue : p value) :
    Clear p (entries ++ [(key, value)]) where
  nodup := by
    rw [List.map_append]
    refine List.nodup_append.mpr ⟨h.nodup, List.nodup_singleton _, ?_⟩
    intro k hk other hother heq
    rw [List.map_singleton, List.mem_singleton] at hother
    subst heq hother
    exact hkey hk
  each := by
    intro entry hentry
    rcases List.mem_append.mp hentry with hentry | hentry
    · exact h.each entry hentry
    · rw [List.mem_singleton.mp hentry]
      exact hvalue

theorem Clear.filter (h : Clear p entries) (keep : String × β → Bool) :
    Clear p (entries.filter keep) where
  nodup := h.nodup.sublist ((List.filter_sublist).map Prod.fst)
  each := fun entry hentry => h.each entry (List.mem_of_mem_filter hentry)

/-- Puts a value under a key, in the place of an older one. -/
def putEntry (key : String) (value : β) : List (String × β) → List (String × β)
  | [] => [(key, value)]
  | (k, old) :: rest =>
    if k = key then (k, value) :: rest else (k, old) :: putEntry key value rest

theorem keys_putEntry (key : String) (value : β) (entries : List (String × β)) :
    (putEntry key value entries).map Prod.fst =
      if key ∈ entries.map Prod.fst then entries.map Prod.fst
      else entries.map Prod.fst ++ [key] := by
  induction entries with
  | nil => rfl
  | cons entry rest ih =>
      obtain ⟨k, old⟩ := entry
      by_cases hkey : k = key
      · simp [putEntry, hkey]
      · simp only [putEntry, hkey, if_false, List.map_cons, ih, List.mem_cons, Ne.symm hkey,
          false_or]
        split <;> rfl

theorem eq_or_mem_of_mem_putEntry {entry : String × β} (h : entry ∈ putEntry key value entries) :
    entry = (key, value) ∨ entry ∈ entries := by
  induction entries with
  | nil => exact .inl (List.mem_singleton.mp h)
  | cons head rest ih =>
      obtain ⟨k, old⟩ := head
      rw [putEntry] at h
      split at h
      next hkey =>
        rcases List.mem_cons.mp h with rfl | hrest
        · exact .inl (hkey ▸ rfl)
        · exact .inr (List.mem_cons_of_mem _ hrest)
      · rcases List.mem_cons.mp h with rfl | hrest
        · exact .inr List.mem_cons_self
        · exact (ih hrest).imp_right (List.mem_cons_of_mem _)

theorem Clear.putEntry (h : Clear p entries) (key : String) (hvalue : p value) :
    Clear p (putEntry key value entries) where
  nodup := by
    rw [keys_putEntry]
    split
    · exact h.nodup
    next hnew => simpa using (h.concat hnew hvalue).nodup
  each := by
    intro entry hentry
    rcases eq_or_mem_of_mem_putEntry hentry with rfl | hentry
    · exact hvalue
    · exact h.each entry hentry

end Clear

/-! ## Documents -/

/-- No table outside of arrays has a key twice. -/
inductive Document.Unambiguous : Document → Prop
  | scalar (value : Scalar) : Unambiguous (.scalar value)
  | array (items : List Document) : Unambiguous (.array items)
  | table {fields : List (String × Document)} (hnodup : (fields.map Prod.fst).Nodup)
      (heach : ∀ field ∈ fields, field.2.Unambiguous) : Unambiguous (.table fields)

theorem Document.unambiguous_table_iff {fields : List (String × Document)} :
    (Document.table fields).Unambiguous ↔ Clear Unambiguous fields := by
  constructor
  · rintro (_ | _ | ⟨hnodup, heach⟩)
    exact ⟨hnodup, heach⟩
  · rintro ⟨hnodup, heach⟩
    exact .table hnodup heach

/-- What the format reads says at most one thing under a key. -/
def Format.Distinct (format : Format) : Prop :=
  ∀ text root, format.read text = .ok root → root.Unambiguous

/-! ## JSON -/

namespace Json

theorem keepLast_sublist (fields : List (String × Document)) : (keepLast fields).Sublist fields := by
  induction fields with
  | nil => exact .slnil
  | cons field rest ih =>
      rw [keepLast]
      split
      · exact ih.cons field
      · exact ih.cons_cons field

/-- A field is kept where no later one has its name. -/
theorem mem_keepLast_iff {fields : List (String × Document)} {field : String × Document} :
    field ∈ keepLast fields ↔
      ∃ before after, fields = before ++ field :: after ∧ ∀ later ∈ after, later.1 ≠ field.1 := by
  induction fields with
  | nil => simp [keepLast]
  | cons first rest ih =>
      rw [keepLast]
      split
      next hlater =>
        obtain ⟨later, hmem, hname⟩ := List.any_eq_true.mp hlater
        rw [ih]
        constructor
        · rintro ⟨before, after, rfl, hlast⟩
          exact ⟨first :: before, after, rfl, hlast⟩
        · rintro ⟨_ | ⟨_, before⟩, after, hfields, hlast⟩ <;> cases hfields
          · exact absurd (of_decide_eq_true hname) (hlast later hmem)
          · exact ⟨before, after, rfl, hlast⟩
      next hlast =>
        rw [List.mem_cons, ih]
        constructor
        · rintro (rfl | ⟨before, after, rfl, hafter⟩)
          · refine ⟨[], rest, rfl, fun later hmem hname => hlast ?_⟩
            exact List.any_eq_true.mpr ⟨later, hmem, decide_eq_true hname⟩
          · exact ⟨first :: before, after, rfl, hafter⟩
        · rintro ⟨_ | ⟨_, before⟩, after, hfields, hafter⟩ <;> cases hfields
          · exact .inl rfl
          · exact .inr ⟨before, after, rfl, hafter⟩

/-- Of fields of one name the last is kept. -/
theorem clear_keepLast {p : Document → Prop} {fields : List (String × Document)}
    (h : ∀ field ∈ fields, p field.2) : Clear p (keepLast fields) where
  nodup := by
    induction fields with
    | nil => exact List.nodup_nil
    | cons field rest ih =>
        have hrest := ih fun later hlater => h later (List.mem_cons_of_mem field hlater)
        rw [keepLast]
        split
        · exact hrest
        next hlast =>
          refine List.nodup_cons.mpr ⟨?_, hrest⟩
          intro hmem
          obtain ⟨later, hlater, hname⟩ := List.mem_map.mp hmem
          apply hlast
          exact List.any_eq_true.mpr
            ⟨later, (keepLast_sublist rest).subset hlater, by simpa using hname⟩
  each := fun field hfield => h field ((keepLast_sublist fields).subset hfield)

section Numbers

variable {negative : Bool} {cs whole rest : List Char} {fraction : Option (List Char)}
  {exponent : Option (Bool × List Char)} {value : Document}

theorem unambiguous_of_scale? {significand : Nat} {power : Int}
    (h : scale? negative significand power = some value) : value.Unambiguous := by
  obtain ⟨y, -, rfl⟩ := Option.map_eq_some_iff.mp h
  exact .scalar _

theorem unambiguous_of_numberOfParts
    (h : numberOfParts negative whole fraction exponent rest = .ok value) :
    value.Unambiguous := by
  unfold numberOfParts at h
  dsimp only at h
  split at h
  · split at h
    · cases h
      exact .scalar _
    · split at h <;> cases h
      · exact .scalar _
      · exact .scalar _
  · split at h
    · split at h
      next hscale => exact Except.ok.inj h ▸ unambiguous_of_scale? hscale
      · cases h
    · split at h
      · split at h
        next hscale => exact Except.ok.inj h ▸ unambiguous_of_scale? hscale
        · cases h
      · split at h <;> cases h
        exact .scalar _

/-- What a number spells has no fields. -/
theorem unambiguous_of_number (h : number negative cs = .ok (value, rest)) :
    value.Unambiguous := by
  unfold number at h
  split at h
  · cases h
  · cases h
  · cases h
  · simp only [bind, Except.bind] at h
    split at h
    · cases h
    · split at h
      · cases h
      · split at h
        · cases h
        next hparts =>
          cases h
          exact unambiguous_of_numberOfParts hparts

end Numbers

/-- A value is unambiguous if its fields are. -/
theorem unambiguous_of_value_succ {fuel depth : Nat} {cs rest : List Char} {found : Document}
    (hfields : ∀ depth cs found rest, fields fuel depth cs = .ok (found, rest) →
      ∀ field ∈ found, field.2.Unambiguous)
    (h : value (fuel + 1) depth cs = .ok (found, rest)) : found.Unambiguous := by
  rw [value] at h
  split at h
  · cases h
  · obtain ⟨after, -, heq⟩ := exists_of_map_eq_ok h
    cases heq
    exact .scalar _
  · obtain ⟨after, -, heq⟩ := exists_of_map_eq_ok h
    cases heq
    exact .scalar _
  · obtain ⟨after, -, heq⟩ := exists_of_map_eq_ok h
    cases heq
    exact .scalar _
  · obtain ⟨⟨text, after⟩, -, heq⟩ := exists_of_bind_eq_ok h
    cases heq
    exact .scalar _
  · split at h
    · cases h
    · split at h
      · cases h
      · cases h
        exact .array _
      · obtain ⟨⟨items, after⟩, -, heq⟩ := exists_of_bind_eq_ok h
        cases heq
        exact .array _
  · split at h
    · cases h
    · split at h
      · cases h
      · cases h
        exact .table List.nodup_nil (by simp)
      · obtain ⟨⟨found, after⟩, hfound, heq⟩ := exists_of_bind_eq_ok h
        cases heq
        have hclear := clear_keepLast (hfields _ _ _ _ hfound)
        exact .table hclear.nodup hclear.each
  · exact unambiguous_of_number h
  · split at h
    · exact unambiguous_of_number h
    · cases h

/-- Fields are unambiguous if the value of the first and those of all others are. -/
theorem unambiguous_of_fields_succ {fuel depth : Nat} {cs rest : List Char}
    {found : List (String × Document)}
    (hvalue : ∀ depth cs found rest, value fuel depth cs = .ok (found, rest) → found.Unambiguous)
    (hfields : ∀ depth cs found rest, fields fuel depth cs = .ok (found, rest) →
      ∀ field ∈ found, field.2.Unambiguous)
    (h : fields (fuel + 1) depth cs = .ok (found, rest)) :
    ∀ field ∈ found, field.2.Unambiguous := by
  rw [fields] at h
  split at h
  · cases h
  · obtain ⟨⟨key, afterKey⟩, -, h⟩ := exists_of_bind_eq_ok h
    dsimp only at h
    split at h
    · cases h
    · obtain ⟨⟨value, afterValue⟩, hfound, h⟩ := exists_of_bind_eq_ok h
      have hfirst := hvalue _ _ _ _ hfound
      dsimp only at h
      split at h
      · cases h
      · obtain ⟨⟨more, afterMore⟩, hmore, heq⟩ := exists_of_bind_eq_ok h
        cases heq
        exact List.forall_mem_cons.mpr ⟨hfirst, hfields _ _ _ _ hmore⟩
      · cases h
        exact List.forall_mem_cons.mpr ⟨hfirst, by simp⟩
      · cases h
    · cases h
  · cases h
  · cases h

/-- Values are unambiguous, and so are those of fields. -/
theorem unambiguous_of_value (fuel : Nat) :
    (∀ depth cs found rest, value fuel depth cs = .ok (found, rest) → found.Unambiguous) ∧
      ∀ depth cs found rest, fields fuel depth cs = .ok (found, rest) →
        ∀ field ∈ found, field.2.Unambiguous := by
  induction fuel with
  | zero => simp [value, fields]
  | succ fuel ih =>
      obtain ⟨hvalue, hfields⟩ := ih
      exact ⟨fun _ _ _ _ h => unambiguous_of_value_succ hfields h,
        fun _ _ _ _ h => unambiguous_of_fields_succ hvalue hfields h⟩

theorem unambiguous_of_parse {document : String} {found : Document}
    (h : parse document = .ok found) : found.Unambiguous := by
  obtain ⟨⟨value, rest⟩, hvalue, h⟩ := exists_of_bind_eq_ok h
  dsimp only at h
  split at h
  · cases h
    exact (unambiguous_of_value _).1 _ _ _ _ hvalue
  · cases h

end Json

/-! ## TOML -/

namespace Toml.Node

/-- No table outside of arrays has a key twice. -/
inductive Unambiguous : Node → Prop
  | leaf (value : Scalar) : Unambiguous (.leaf value)
  | moment (written : String) : Unambiguous (.moment written)
  | array (items : List Node) : Unambiguous (.array items)
  | table {mark : TableMark} {entries : Entries} (hnodup : (entries.map Prod.fst).Nodup)
      (heach : ∀ entry ∈ entries, entry.2.Unambiguous) : Unambiguous (.table mark entries)
  | tables (items : List Entries) : Unambiguous (.tables items)

variable {mark : TableMark} {entries next : Entries} {key : String} {node value : Node}

theorem unambiguous_table_iff :
    (Node.table mark entries).Unambiguous ↔ Clear Unambiguous entries := by
  constructor
  · rintro (_ | _ | _ | ⟨hnodup, heach⟩)
    exact ⟨hnodup, heach⟩
  · rintro ⟨hnodup, heach⟩
    exact .table hnodup heach

theorem mem_of_find? (h : find? key entries = some node) : (key, node) ∈ entries := by
  induction entries with
  | nil => cases h
  | cons entry rest ih =>
      obtain ⟨k, other⟩ := entry
      rw [find?] at h
      split at h
      next hkey =>
        cases h
        exact hkey ▸ List.mem_cons_self
      · exact List.mem_cons_of_mem _ (ih h)

theorem put_eq_putEntry (key : String) (node : Node) (entries : Entries) :
    put key node entries = putEntry key node entries := by
  induction entries with
  | nil => rfl
  | cons entry rest ih => rw [put, putEntry, ih]

theorem clear_put (h : Clear Unambiguous entries) (hnode : node.Unambiguous) :
    Clear Unambiguous (put key node entries) := by
  rw [put_eq_putEntry]
  exact h.putEntry key hnode

/-- A table that stands in a table without ambiguity has none. -/
theorem clear_of_find? (h : Clear Unambiguous entries)
    (hfind : find? key entries = some (.table mark next)) : Clear Unambiguous next :=
  unambiguous_table_iff.mp (h.each _ (mem_of_find? hfind))

/-- Adding a value defines nothing twice. -/
theorem clear_of_insert {path : List String} {mayAdd : Bool} (hvalue : value.Unambiguous)
    (h : Clear Unambiguous entries) (hinsert : insert value mayAdd path entries = some next) :
    Clear Unambiguous next := by
  induction path generalizing entries next mayAdd with
  | nil => cases hinsert
  | cons key path ih =>
      cases path with
      | nil =>
          rw [insert] at hinsert
          split at hinsert
          · split at hinsert <;> cases hinsert
            exact clear_put h hvalue
          · cases hinsert
      | cons second path =>
          rw [insert] at hinsert
          · split at hinsert
            · obtain ⟨inner, hinner, heq⟩ := Option.bind_eq_some_iff.mp hinsert
              cases heq
              exact clear_put h (unambiguous_table_iff.mpr (ih clear_nil hinner))
            next hfind =>
              obtain ⟨inner, hinner, heq⟩ := Option.bind_eq_some_iff.mp hinsert
              cases heq
              exact clear_put h (unambiguous_table_iff.mpr (ih (clear_of_find? h hfind) hinner))
            next hfind =>
              obtain ⟨inner, hinner, heq⟩ := Option.bind_eq_some_iff.mp hinsert
              cases heq
              exact clear_put h (unambiguous_table_iff.mpr (ih (clear_of_find? h hfind) hinner))
            · obtain ⟨last, -, heq⟩ := Option.bind_eq_some_iff.mp hinsert
              cases heq
              exact clear_put h (.tables _)
            · cases hinsert
          · simp

/-- A change that defines nothing twice may be made in any table. -/
theorem clear_of_reach {change : Entries → Option Entries}
    (hchange : ∀ entries next, Clear Unambiguous entries → change entries = some next →
      Clear Unambiguous next)
    {path : List String} (h : Clear Unambiguous entries)
    (hreach : reach change path entries = some next) : Clear Unambiguous next := by
  induction path generalizing entries next with
  | nil => exact hchange entries next h hreach
  | cons key path ih =>
      rw [reach] at hreach
      split at hreach
      · obtain ⟨inner, hinner, heq⟩ := Option.bind_eq_some_iff.mp hreach
        cases heq
        exact clear_put h (unambiguous_table_iff.mpr (ih clear_nil hinner))
      · cases hreach
      next hfind =>
        obtain ⟨inner, hinner, heq⟩ := Option.bind_eq_some_iff.mp hreach
        cases heq
        exact clear_put h (unambiguous_table_iff.mpr (ih (clear_of_find? h hfind) hinner))
      · obtain ⟨last, -, heq⟩ := Option.bind_eq_some_iff.mp hreach
        cases heq
        exact clear_put h (.tables _)
      · cases hreach

theorem clear_of_openTable (h : Clear Unambiguous entries)
    (hopen : openTable key entries = some next) : Clear Unambiguous next := by
  have hothers := h.filter fun entry => entry.1 ≠ key
  have hnew : key ∉ (entries.filter fun entry => entry.1 ≠ key).map Prod.fst := by simp
  unfold openTable at hopen
  dsimp only at hopen
  split at hopen
  · cases hopen
    exact hothers.concat hnew (unambiguous_table_iff.mpr clear_nil)
  next hfind =>
    cases hopen
    exact hothers.concat hnew (unambiguous_table_iff.mpr (clear_of_find? h hfind))
  · cases hopen

theorem clear_of_openListed (h : Clear Unambiguous entries)
    (hopen : openListed key entries = some next) : Clear Unambiguous next := by
  unfold openListed at hopen
  split at hopen <;> cases hopen <;> exact clear_put h (.tables _)

end Toml.Node

namespace Toml

open Node (Unambiguous)

theorem unambiguous_of_plainValue? {cs rest : List Char} {found : Node}
    (h : plainValue? cs = some (found, rest)) : found.Unambiguous := by
  unfold plainValue? at h
  split at h
  · cases h
    exact .moment _
  · split at h
    · cases h
      exact .leaf _
    · obtain ⟨⟨n, after⟩, -, heq⟩ := Option.map_eq_some_iff.mp h
      cases heq
      exact .leaf _

/-- A value is unambiguous if the pairs of tables in it are. -/
theorem unambiguous_of_value?_succ {fuel depth : Nat} {cs rest : List Char} {found : Node}
    (hpairs : ∀ depth entries cs next rest, Clear Unambiguous entries →
      pairs? fuel depth entries cs = some (next, rest) → Clear Unambiguous next)
    (h : value? (fuel + 1) depth cs = some (found, rest)) : found.Unambiguous := by
  rw [value?.eq_def] at h
  dsimp only at h
  split at h
  · obtain ⟨⟨text, after⟩, -, heq⟩ := Option.map_eq_some_iff.mp h
    cases heq
    exact .leaf _
  · obtain ⟨⟨text, after⟩, -, heq⟩ := Option.map_eq_some_iff.mp h
    cases heq
    exact .leaf _
  · split at h
    · cases h
    · obtain ⟨⟨items, after⟩, -, heq⟩ := Option.map_eq_some_iff.mp h
      cases heq
      exact .array _
  · split at h
    · cases h
    · split at h
      · cases h
        exact Node.unambiguous_table_iff.mpr clear_nil
      · obtain ⟨⟨entries, after⟩, hentries, heq⟩ := Option.map_eq_some_iff.mp h
        cases heq
        exact Node.unambiguous_table_iff.mpr (hpairs _ _ _ _ _ clear_nil hentries)
  · obtain ⟨after, -, heq⟩ := Option.map_eq_some_iff.mp h
    cases heq
    exact .leaf _
  · obtain ⟨after, -, heq⟩ := Option.map_eq_some_iff.mp h
    cases heq
    exact .leaf _
  · exact unambiguous_of_plainValue? h

/-- Pairs are unambiguous if the value of the first and all others are. -/
theorem clear_of_pairs?_succ {fuel depth : Nat} {cs rest : List Char} {entries next : Entries}
    (hvalue : ∀ depth cs found rest, value? fuel depth cs = some (found, rest) →
      found.Unambiguous)
    (hpairs : ∀ depth entries cs next rest, Clear Unambiguous entries →
      pairs? fuel depth entries cs = some (next, rest) → Clear Unambiguous next)
    (hclear : Clear Unambiguous entries)
    (h : pairs? (fuel + 1) depth entries cs = some (next, rest)) : Clear Unambiguous next := by
  rw [pairs?] at h
  obtain ⟨⟨path, afterPath⟩, -, h⟩ := Option.bind_eq_some_iff.mp h
  obtain ⟨afterMark, -, h⟩ := Option.bind_eq_some_iff.mp h
  obtain ⟨⟨value, afterValue⟩, hfound, h⟩ := Option.bind_eq_some_iff.mp h
  obtain ⟨more, hinsert, h⟩ := Option.bind_eq_some_iff.mp h
  have hmore := Node.clear_of_insert (hvalue _ _ _ _ hfound) hclear hinsert
  split at h
  · exact hpairs _ _ _ _ _ hmore h
  · cases h
    exact hmore
  · cases h

/-- Values are unambiguous, and so are the pairs of tables. -/
theorem unambiguous_of_value? (fuel : Nat) :
    (∀ depth cs found rest, value? fuel depth cs = some (found, rest) → found.Unambiguous) ∧
      ∀ depth entries cs next rest, Clear Unambiguous entries →
        pairs? fuel depth entries cs = some (next, rest) → Clear Unambiguous next := by
  induction fuel with
  | zero => simp [value?, pairs?]
  | succ fuel ih =>
      obtain ⟨hvalue, hpairs⟩ := ih
      exact ⟨fun _ _ _ _ h => unambiguous_of_value?_succ hpairs h,
        fun _ _ _ _ _ hclear h => clear_of_pairs?_succ hvalue hpairs hclear h⟩

theorem clear_of_openHeader {reading next : Reading} {path : List String} {listed : Bool}
    (hclear : Clear Unambiguous reading.entries)
    (h : reading.openHeader path listed = some next) : Clear Unambiguous next.entries := by
  unfold Reading.openHeader at h
  split at h
  · cases h
  · obtain ⟨entries, hreach, heq⟩ := Option.bind_eq_some_iff.mp h
    cases heq
    refine Node.clear_of_reach ?_ hclear hreach
    intro before after hbefore hafter
    split at hafter
    · exact Node.clear_of_openListed hbefore hafter
    · exact Node.clear_of_openTable hbefore hafter

theorem clear_of_line? {reading next : Reading} {cs rest : List Char}
    (hclear : Clear Unambiguous reading.entries) (h : line? reading cs = some (next, rest)) :
    Clear Unambiguous next.entries := by
  unfold line? at h
  split at h
  · obtain ⟨⟨path, afterPath⟩, -, h⟩ := Option.bind_eq_some_iff.mp h
    obtain ⟨afterMark, -, h⟩ := Option.bind_eq_some_iff.mp h
    obtain ⟨afterMarks, -, h⟩ := Option.bind_eq_some_iff.mp h
    obtain ⟨reading, hopen, h⟩ := Option.bind_eq_some_iff.mp h
    obtain ⟨after, -, heq⟩ := Option.bind_eq_some_iff.mp h
    cases heq
    exact clear_of_openHeader hclear hopen
  · obtain ⟨⟨path, afterPath⟩, -, h⟩ := Option.bind_eq_some_iff.mp h
    obtain ⟨afterMark, -, h⟩ := Option.bind_eq_some_iff.mp h
    obtain ⟨reading, hopen, h⟩ := Option.bind_eq_some_iff.mp h
    obtain ⟨after, -, heq⟩ := Option.bind_eq_some_iff.mp h
    cases heq
    exact clear_of_openHeader hclear hopen
  · cases h
    exact hclear
  · split at h
    · obtain ⟨after, -, heq⟩ := Option.bind_eq_some_iff.mp h
      cases heq
      exact hclear
    · obtain ⟨⟨path, afterPath⟩, -, h⟩ := Option.bind_eq_some_iff.mp h
      obtain ⟨afterMark, -, h⟩ := Option.bind_eq_some_iff.mp h
      obtain ⟨⟨value, afterValue⟩, hvalue, h⟩ := Option.bind_eq_some_iff.mp h
      obtain ⟨entries, hreach, h⟩ := Option.bind_eq_some_iff.mp h
      obtain ⟨after, -, heq⟩ := Option.bind_eq_some_iff.mp h
      cases heq
      have hfound := (unambiguous_of_value? _).1 _ _ _ _ hvalue
      exact Node.clear_of_reach (fun _ _ => Node.clear_of_insert hfound) hclear hreach

theorem clear_of_lines? {fuel : Nat} {reading : Reading} {cs : List Char} {next : Entries}
    (hclear : Clear Unambiguous reading.entries) (h : lines? fuel reading cs = some next) :
    Clear Unambiguous next := by
  induction fuel generalizing reading cs with
  | zero => cases h
  | succ fuel ih =>
      rw [lines?] at h
      split at h
      · cases h
        exact hclear
      · obtain ⟨⟨reading, rest⟩, hline, h⟩ := Option.bind_eq_some_iff.mp h
        exact ih (clear_of_line? hclear hline) h

theorem clear_of_entries? {document : String} {entries : Entries}
    (h : entries? document = some entries) : Clear Unambiguous entries :=
  clear_of_lines? clear_nil h

end Toml

/-! ## Settings -/

namespace Setting

/-- No table outside of arrays has a key twice. -/
inductive Unambiguous : Setting → Prop
  | leaf (value : Scalar) (origin : Option String) : Unambiguous (.leaf value origin)
  | array (items : List Setting) (origin : Option String) : Unambiguous (.array items origin)
  | table {entries : List (String × Setting)} (hnodup : (entries.map Prod.fst).Nodup)
      (heach : ∀ entry ∈ entries, entry.2.Unambiguous) : Unambiguous (.table entries)

theorem unambiguous_table_iff {entries : List (String × Setting)} :
    (Setting.table entries).Unambiguous ↔ Clear Unambiguous entries := by
  constructor
  · rintro (_ | _ | ⟨hnodup, heach⟩)
    exact ⟨hnodup, heach⟩
  · rintro ⟨hnodup, heach⟩
    exact .table hnodup heach

theorem entriesOfFields_eq_map (origin : Option String) (fields : List (String × Document)) :
    entriesOfFields origin fields = fields.map fun field => (field.1, ofDocument origin field.2) := by
  induction fields with
  | nil => rfl
  | cons field rest ih =>
      obtain ⟨name, value⟩ := field
      rw [entriesOfFields, ih, List.map_cons]

theorem keys_entriesOfFields (origin : Option String) (fields : List (String × Document)) :
    (entriesOfFields origin fields).map Prod.fst = fields.map Prod.fst := by
  rw [entriesOfFields_eq_map, List.map_map]
  rfl

/-- What a document says without ambiguity, its settings do. -/
theorem unambiguous_ofDocument {origin : Option String} {document : Document}
    (h : document.Unambiguous) : (ofDocument origin document).Unambiguous := by
  induction h with
  | scalar value =>
      rw [ofDocument]
      exact .leaf _ _
  | array items =>
      rw [ofDocument]
      exact .array _ _
  | table hnodup heach ih =>
      rw [ofDocument]
      refine .table (by rwa [keys_entriesOfFields]) ?_
      rw [entriesOfFields_eq_map]
      intro entry hentry
      obtain ⟨field, hfield, rfl⟩ := List.mem_map.mp hentry
      exact ih field hfield

end Setting

/-! ## Files -/

namespace Toml.Node

variable {entries : Entries}

/-- The fields that entries are have their keys, and each is the document of its node. -/
theorem clear_of_toFields? {fields : List (String × Document)}
    (h : toFields? entries = some fields)
    (heach : ∀ entry ∈ entries, ∀ document, toDocument? entry.2 = some document →
      document.Unambiguous) :
    fields.map Prod.fst = entries.map Prod.fst ∧ ∀ field ∈ fields, field.2.Unambiguous := by
  induction entries generalizing fields with
  | nil =>
      cases h
      simp
  | cons entry rest ih =>
      obtain ⟨key, node⟩ := entry
      rw [toFields?] at h
      obtain ⟨document, hdocument, h⟩ := Option.bind_eq_some_iff.mp h
      obtain ⟨more, hmore, heq⟩ := Option.bind_eq_some_iff.mp h
      cases heq
      obtain ⟨hkeys, hrest⟩ := ih hmore fun other hother =>
        heach other (List.mem_cons_of_mem _ hother)
      refine ⟨by simp [hkeys], ?_⟩
      exact List.forall_mem_cons.mpr ⟨heach _ List.mem_cons_self _ hdocument, hrest⟩

/-- The document of a table is a date or time, or the table of its entries' documents. -/
theorem tableDocument?_eq_some {document : Document}
    (h : tableDocument? entries = some document) :
    (∃ written, document = .scalar (.text written)) ∨
      ∃ fields, toFields? entries = some fields ∧ document = .table fields := by
  cases entries with
  | nil =>
      cases h
      exact .inr ⟨[], rfl, rfl⟩
  | cons entry rest =>
      obtain ⟨key, node⟩ := entry
      rw [tableDocument?.eq_def] at h
      dsimp only at h
      split at h
      · split at h
        · obtain ⟨written, -, rfl⟩ := Option.map_eq_some_iff.mp h
          exact .inl ⟨written, rfl⟩
        · cases h
      · obtain ⟨first, hfirst, h⟩ := Option.bind_eq_some_iff.mp h
        obtain ⟨more, hmore, heq⟩ := Option.bind_eq_some_iff.mp h
        cases heq
        exact .inr ⟨(key, first) :: more, by simp [toFields?, hfirst, hmore], rfl⟩

/-- What a node says without ambiguity, its document does. -/
theorem unambiguous_of_toDocument? {node : Node} (h : node.Unambiguous) :
    ∀ document, toDocument? node = some document → document.Unambiguous := by
  induction h with
  | leaf value =>
      intro document hdocument
      cases hdocument
      exact .scalar _
  | moment written =>
      intro document hdocument
      cases hdocument
      exact .scalar _
  | array items =>
      intro document hdocument
      obtain ⟨documents, -, rfl⟩ := Option.map_eq_some_iff.mp hdocument
      exact .array _
  | tables items =>
      intro document hdocument
      obtain ⟨documents, -, rfl⟩ := Option.map_eq_some_iff.mp hdocument
      exact .array _
  | table hnodup heach ih =>
      intro document hdocument
      rcases tableDocument?_eq_some hdocument with ⟨written, rfl⟩ | ⟨fields, hfields, rfl⟩
      · exact .scalar _
      · obtain ⟨hkeys, hrest⟩ := clear_of_toFields? hfields ih
        exact .table (hkeys ▸ hnodup) hrest

end Toml.Node

theorem Toml.distinct_format : Toml.format.Distinct := by
  intro text root h
  dsimp only [Toml.format] at h
  split at h
  next hparse =>
    cases h
    obtain ⟨entries, hentries, hdocument⟩ := Option.bind_eq_some_iff.mp hparse
    have hnode : (Node.table .header entries).Unambiguous :=
      Node.unambiguous_table_iff.mpr (clear_of_entries? hentries)
    exact Node.unambiguous_of_toDocument? hnode _ hdocument
  · cases h

theorem Json.distinct_format : Json.format.Distinct := by
  intro text root h
  dsimp only [Json.format] at h
  cases hparse : Json.parse text with
  | error fault => simp [hparse, Except.mapError] at h
  | ok found =>
      rw [hparse] at h
      cases h
      exact Json.unambiguous_of_parse hparse

theorem distinct_standardFormats : ∀ format ∈ standardFormats, format.Distinct := by
  intro format hformat
  rcases List.mem_pair.mp hformat with rfl | rfl
  · exact Toml.distinct_format
  · exact Json.distinct_format

end BundledReading.Config

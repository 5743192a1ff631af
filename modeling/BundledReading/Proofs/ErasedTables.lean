import Mathlib.Data.Finset.Dedup
import Mathlib.Data.Finset.Card

/-!
# Tables of values that have forgotten their types

A table keeps values of many types under keys, one key for each type. A value that is stored has
forgotten its type and only tells of which it was, so looking one up may find a value of another
type, and then gives none. A table that is made by registering values never does that: it gives the
value that was registered last, and none only if there was none.

## Implementation notes

`IsLatest` speaks of a list of registrations, the last at its end, and not of a table. Registering
adds at the end, so inductions over such lists take the last registration off.
-/

namespace BundledReading

/-- A value that has forgotten its type, and only tells of which type it was. -/
abbrev Erased {Key : Type} (Item : Key → Type) := (key : Key) × Item key

/-- Values under keys. Nothing in the table makes a value be of the type of its key. -/
abbrev ErasedTable {Key : Type} (Item : Key → Type) := List (Key × Erased Item)

variable {Key : Type} {Item : Key → Type} {history : List (Erased Item)} {key : Key}
  {item : Item key}

/-! ## The latest registration -/

/-- The item is registered for the key, and nothing is registered for that key afterwards. -/
def IsLatest (history : List (Erased Item)) (key : Key) (item : Item key) : Prop :=
  ∃ before after, history = before ++ ⟨key, item⟩ :: after ∧ ∀ later ∈ after, later.1 ≠ key

theorem not_isLatest_nil : ¬ IsLatest [] key item := by
  rintro ⟨before, after, h, -⟩
  exact absurd h.symm (List.append_ne_nil_of_right_ne_nil before (List.cons_ne_nil _ after))

theorem isLatest_concat_iff {last : Erased Item} :
    IsLatest (history ++ [last]) key item ↔
      last = ⟨key, item⟩ ∨ last.1 ≠ key ∧ IsLatest history key item := by
  constructor
  · rintro ⟨before, after, h, hafter⟩
    rcases List.eq_nil_or_concat after with rfl | ⟨between, latest, rfl⟩
    · exact Or.inl (List.singleton_inj.mp (List.append_inj' h rfl).2)
    · rw [List.concat_eq_append, ← List.cons_append, ← List.append_assoc] at h
      obtain ⟨hhistory, hlast⟩ := List.append_inj' h rfl
      obtain rfl := List.singleton_inj.mp hlast
      refine Or.inr ⟨hafter last (by simp), before, between, hhistory, ?_⟩
      intro later hlater
      exact hafter later (by simp [hlater])
  · rintro (rfl | ⟨hother, before, after, rfl, hafter⟩)
    · exact ⟨history, [], rfl, by simp⟩
    · refine ⟨before, after ++ [last], by simp, ?_⟩
      intro later hlater
      rcases List.mem_append.mp hlater with hearlier | hlast
      · exact hafter later hearlier
      · rwa [List.mem_singleton.mp hlast]

/-- There is a latest registration for a key unless there is none at all. -/
theorem exists_isLatest_iff :
    (∃ item, IsLatest history key item) ↔ ∃ entry ∈ history, entry.1 = key := by
  induction history using List.reverseRecOn with
  | nil => simp [not_isLatest_nil]
  | append_singleton history last ih =>
      obtain ⟨other, stored⟩ := last
      simp only [isLatest_concat_iff]
      by_cases hkey : other = key
      · subst hkey
        refine iff_of_true ⟨stored, Or.inl rfl⟩ ⟨⟨other, stored⟩, ?_, rfl⟩
        exact List.mem_append_right history List.mem_cons_self
      · have hother : ∀ item, (⟨other, stored⟩ : Erased Item) ≠ ⟨key, item⟩ := by
          rintro item h
          exact hkey (congrArg Sigma.fst h)
        simp [hkey, hother, ih, or_and_right, exists_or]

/-! ## Tables -/

variable [DecidableEq Key] {table : ErasedTable Item} {value : Erased Item}

/-- The value with its type, if it was of that type. -/
def Erased.downcast? (value : Erased Item) (key : Key) : Option (Item key) :=
  if h : value.1 = key then some (h ▸ value.2) else none

theorem Erased.downcast?_eq_some_iff : value.downcast? key = some item ↔ value = ⟨key, item⟩ := by
  obtain ⟨other, stored⟩ := value
  by_cases h : other = key
  · subst h
    simp [Erased.downcast?]
  · simp [Erased.downcast?, h]

namespace ErasedTable

/-- Puts a value under a key, in the place of an older one. -/
def put (key : Key) (value : Erased Item) : ErasedTable Item → ErasedTable Item
  | [] => [(key, value)]
  | entry :: rest => if entry.1 = key then (key, value) :: rest else entry :: put key value rest

/-- Puts a value under the key of its type, and forgets the type. -/
def register (table : ErasedTable Item) (value : Erased Item) : ErasedTable Item :=
  put value.1 value table

/-- The table that registrations have made. -/
def ofHistory (history : List (Erased Item)) : ErasedTable Item := history.foldl register []

/-- Whether there is a value under the key. -/
def contains (table : ErasedTable Item) (key : Key) : Bool := (table.lookup key).isSome

/-- The value under the key, if it is of the type of the key. -/
def resolve? (table : ErasedTable Item) (key : Key) : Option (Item key) :=
  (table.lookup key).bind fun value => value.downcast? key

theorem lookup_cons {entry : Key × Erased Item} :
    List.lookup key (entry :: table) =
      if key = entry.1 then some entry.2 else table.lookup key := by
  obtain ⟨stored, old⟩ := entry
  rw [List.lookup_cons]
  by_cases h : key = stored
  · simp [h]
  · simp [h, beq_false_of_ne h]

theorem lookup_put {other : Key} :
    (put other value table).lookup key = if key = other then some value else table.lookup key := by
  induction table with
  | nil => rw [put, lookup_cons]
  | cons entry rest ih =>
      by_cases hstored : entry.1 = other
      · subst hstored
        rw [put, if_pos rfl, lookup_cons, lookup_cons]
        split <;> rfl
      · rw [put, if_neg hstored, lookup_cons, lookup_cons, ih]
        by_cases hkey : key = other
        · rw [if_neg fun h => hstored (h.symm.trans hkey), if_pos hkey, if_pos hkey]
        · simp only [if_neg hkey]

theorem mem_keys_put {other : Key} :
    key ∈ (put other value table).map Prod.fst ↔ key = other ∨ key ∈ table.map Prod.fst := by
  induction table with
  | nil => simp [put]
  | cons entry rest ih =>
      rw [put]
      split_ifs with h
      · simp [h]
      · rw [List.map_cons, List.mem_cons, ih, List.map_cons, List.mem_cons, or_left_comm]

/-- Every value is of the type of its key, and no key is used twice. -/
structure Coherent (table : ErasedTable Item) : Prop where
  typed : ∀ entry ∈ table, entry.2.1 = entry.1
  nodup : (table.map Prod.fst).Nodup

theorem Coherent.put (h : Coherent table) (value : Erased Item) :
    Coherent (put value.1 value table) := by
  induction table with
  | nil => exact ⟨by simp [ErasedTable.put], by simp [ErasedTable.put]⟩
  | cons entry rest ih =>
      obtain ⟨htyped, htypedRest⟩ := List.forall_mem_cons.mp h.typed
      obtain ⟨hfresh, hnodupRest⟩ := List.nodup_cons.mp h.nodup
      rw [ErasedTable.put]
      split_ifs with hstored
      · refine ⟨List.forall_mem_cons.mpr ⟨rfl, htypedRest⟩, ?_⟩
        exact List.nodup_cons.mpr ⟨hstored ▸ hfresh, hnodupRest⟩
      · obtain ⟨htypedPut, hnodupPut⟩ := ih ⟨htypedRest, hnodupRest⟩
        refine ⟨List.forall_mem_cons.mpr ⟨htyped, htypedPut⟩, List.nodup_cons.mpr ⟨?_, hnodupPut⟩⟩
        rw [mem_keys_put]
        exact not_or_intro hstored hfresh

theorem ofHistory_concat (history : List (Erased Item)) (last : Erased Item) :
    ofHistory (history ++ [last]) = (ofHistory history).register last := by
  rw [ofHistory, List.foldl_append]
  rfl

/-! ## What registering makes -/

theorem coherent_ofHistory (history : List (Erased Item)) : Coherent (ofHistory history) := by
  induction history using List.reverseRecOn with
  | nil => exact ⟨by simp [ofHistory], List.nodup_nil⟩
  | append_singleton history last ih =>
      rw [ofHistory_concat]
      exact ih.put last

theorem mem_keys_ofHistory :
    key ∈ (ofHistory history).map Prod.fst ↔ key ∈ history.map Sigma.fst := by
  induction history using List.reverseRecOn with
  | nil => rfl
  | append_singleton history last ih =>
      rw [ofHistory_concat, register, mem_keys_put, ih, List.map_append, List.mem_append,
        List.map_singleton, List.mem_singleton, or_comm]

theorem resolve?_register (last : Erased Item) :
    (table.register last).resolve? key =
      if key = last.1 then last.downcast? key else table.resolve? key := by
  rw [resolve?, register, lookup_put]
  split_ifs <;> rfl

theorem resolve?_ofHistory_eq_some_iff :
    (ofHistory history).resolve? key = some item ↔ IsLatest history key item := by
  induction history using List.reverseRecOn with
  | nil => exact iff_of_false (Option.some_ne_none item).symm not_isLatest_nil
  | append_singleton history last ih =>
      rw [ofHistory_concat, resolve?_register, isLatest_concat_iff]
      split_ifs with hkey
      · rw [Erased.downcast?_eq_some_iff]
        simp [hkey]
      · have hother : last ≠ ⟨key, item⟩ := by
          rintro rfl
          exact hkey rfl
        rw [ih]
        simp [hother, Ne.symm hkey]

/-- A table answers with the values that were registered last. -/
structure KeepsLatest (history : List (Erased Item)) (table : ErasedTable Item) : Prop where
  resolve_iff : ∀ key item, table.resolve? key = some item ↔ IsLatest history key item
  missing_iff : ∀ key, table.resolve? key = none ↔ ∀ entry ∈ history, entry.1 ≠ key
  /-- A value that is found is of the type it is looked up with. -/
  downcasts : ∀ key value, table.lookup key = some value → ∃ item, value.downcast? key = some item
  contains_iff : ∀ key, table.contains key = true ↔ ∃ item, table.resolve? key = some item
  length_eq : table.length = (history.map Sigma.fst).toFinset.card

/-- A value that is found in a coherent table is of the type it is looked up with. -/
theorem Coherent.exists_downcast (h : Coherent table) (hvalue : table.lookup key = some value) :
    ∃ item, value.downcast? key = some item := by
  obtain ⟨before, after, rfl, -⟩ := List.lookup_eq_some_iff.mp hvalue
  have htyped : value.1 = key := h.typed (key, value) (by simp)
  obtain ⟨stored, item⟩ := value
  subst htyped
  exact ⟨item, Erased.downcast?_eq_some_iff.mpr rfl⟩

/-- Whatever the types are, and in whatever order values are registered for them. -/
theorem keepsLatest_ofHistory (history : List (Erased Item)) :
    KeepsLatest history (ofHistory history) where
  resolve_iff := fun _ _ => resolve?_ofHistory_eq_some_iff
  missing_iff := by
    intro key
    rw [Option.eq_none_iff_forall_ne_some]
    simp only [ne_eq, resolve?_ofHistory_eq_some_iff]
    rw [← not_exists, exists_isLatest_iff]
    simp only [not_exists, not_and]
  downcasts := fun _ _ => (coherent_ofHistory history).exists_downcast
  contains_iff := by
    intro key
    rw [contains, Option.isSome_iff_exists]
    constructor
    · rintro ⟨value, hvalue⟩
      obtain ⟨item, hitem⟩ := (coherent_ofHistory history).exists_downcast hvalue
      exact ⟨item, Option.bind_eq_some_iff.mpr ⟨value, hvalue, hitem⟩⟩
    · rintro ⟨item, hitem⟩
      obtain ⟨value, hvalue, -⟩ := Option.bind_eq_some_iff.mp hitem
      exact ⟨value, hvalue⟩
  length_eq := by
    calc
      (ofHistory history).length = ((ofHistory history).map Prod.fst).toFinset.card := by
        rw [List.toFinset_card_of_nodup (coherent_ofHistory history).nodup, List.length_map]
      _ = (history.map Sigma.fst).toFinset.card := by
        congr 1
        ext key
        rw [List.mem_toFinset, List.mem_toFinset, mem_keys_ofHistory]

end ErasedTable

end BundledReading

import BundledReading.Coder.Catalogue
import BundledReading.Failure

/-!
# Coder registries

A registry holds at most one coder for each element type. Registering replaces the entry of
exactly that type and no other; resolving gives back the very coder that was registered last.
-/

namespace BundledReading

/-- A registered coder with its element type. -/
abbrev RegistryEntry := (t : ElementType) × SharedCoder t.Carrier

/-- The default coders of element types, one entry for each type that has one. -/
structure Registry where
  entries : List RegistryEntry := []

namespace Registry

/-- The registry without entries. -/
def empty : Registry := ⟨[]⟩

/-- The entry of a type in a list of entries. -/
def find? (t : ElementType) : List RegistryEntry → Option (SharedCoder t.Carrier)
  | [] => none
  | ⟨s, coder⟩ :: rest => if h : s = t then some (h ▸ coder) else find? t rest

/-- Puts the entry of a type into a list of entries, in the place of an older one. -/
def put (t : ElementType) (coder : SharedCoder t.Carrier) : List RegistryEntry → List RegistryEntry
  | [] => [⟨t, coder⟩]
  | entry :: rest => if entry.1 = t then ⟨t, coder⟩ :: rest else entry :: put t coder rest

/-- Makes `coder` the default of the element type `t`. -/
def register (registry : Registry) (t : ElementType) (coder : SharedCoder t.Carrier) : Registry :=
  ⟨put t coder registry.entries⟩

/-- Whether the element type has a default coder. -/
def contains (registry : Registry) (t : ElementType) : Bool := (find? t registry.entries).isSome

/-- The default coder of an element type. -/
def resolve (registry : Registry) (t : ElementType) : Except Failure (SharedCoder t.Carrier) :=
  match find? t registry.entries with
  | some coder => .ok coder
  | none => .error (.noCoder t.name)

/-- The number of element types that have a default coder. -/
def size (registry : Registry) : Nat := registry.entries.length

/-- How messages show a registry. -/
def write (registry : Registry) : String :=
  s!"CoderRegistry \x7b registered: {registry.size} \x7d"

/-- The registry of the common types. Its coders have the identities `0` to `4`. -/
def standard : Registry :=
  empty
    |>.register .int32 (Coder.varint32.share 0)
    |>.register .int64 (Coder.varint64.share 1)
    |>.register .text (Coder.utf8.share 2)
    |>.register .bytes (Coder.bytes.share 3)
    |>.register (.optional .text) ((Coder.nullable Coder.utf8).share 4)

theorem find?_put_of_ne {s t : ElementType} (h : s ≠ t) (coder : SharedCoder s.Carrier)
    (entries : List RegistryEntry) : find? t (put s coder entries) = find? t entries := by
  induction entries with
  | nil => simp [put, find?, h]
  | cons entry rest ih =>
      obtain ⟨r, old⟩ := entry
      by_cases hr : r = s
      · subst hr
        simp [put, find?, h]
      · by_cases ht : r = t
        · subst ht
          simp [put, find?, hr]
        · simp [put, find?, hr, ht, ih]

/-- Registering changes the default of no other type. -/
theorem resolve_register_of_ne {s t : ElementType} (h : s ≠ t) (registry : Registry)
    (coder : SharedCoder s.Carrier) :
    (registry.register s coder).resolve t = registry.resolve t := by
  simp [resolve, register, find?_put_of_ne h]

end Registry

end BundledReading

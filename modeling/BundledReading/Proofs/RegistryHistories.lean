import BundledReading.Proofs.Construction
import BundledReading.Proofs.ErasedTables

/-!
# Histories of registries

Whatever is registered, and in whatever order, a registry answers with the coder that was registered
last for exactly the type that is asked for. A registry that forgets the types of its coders, and
has to recover them, gives the same answers, because it never finds a coder of another type. A
source that is built on the way keeps the coder that was the answer then.
-/

namespace BundledReading

namespace Registry

variable {registry : Registry} {t : ElementType} {coder : SharedCoder t.Carrier}

/-! ## Forgetting the types -/

/-- The registry as a table whose coders have forgotten their types. -/
def erase (registry : Registry) : ErasedTable fun t : ElementType => SharedCoder t.Carrier :=
  registry.entries.map fun entry => (entry.1, entry)

theorem erase_register :
    (registry.register t coder).erase = registry.erase.register ⟨t, coder⟩ := by
  obtain ⟨entries⟩ := registry
  simp only [erase, register, ErasedTable.register]
  induction entries with
  | nil => rfl
  | cons entry rest ih =>
      rw [put, List.map_cons, ErasedTable.put]
      split
      · rfl
      · rw [List.map_cons, ih]

theorem find?_eq_resolve? (t : ElementType) :
    find? t registry.entries = registry.erase.resolve? t := by
  obtain ⟨entries⟩ := registry
  simp only [erase, ErasedTable.resolve?]
  induction entries with
  | nil => rfl
  | cons entry rest ih =>
      obtain ⟨s, stored⟩ := entry
      rw [List.map_cons, ErasedTable.lookup_cons, find?]
      by_cases h : s = t
      · subst h
        simp [Erased.downcast?]
      · simp [h, Ne.symm h, ih]

/-- Makes each coder the default of its type, one after the other. -/
def registerAll (registry : Registry) (history : List RegistryEntry) : Registry :=
  history.foldl (fun registry entry => registry.register entry.1 entry.2) registry

theorem erase_registerAll (registry : Registry) (history : List RegistryEntry) :
    (registry.registerAll history).erase = history.foldl ErasedTable.register registry.erase := by
  induction history generalizing registry with
  | nil => rfl
  | cons entry rest ih =>
      rw [List.foldl_cons, ← erase_register]
      exact ih (registry.register entry.1 entry.2)

/-! ## Answers -/

/-- A registry answers with the coders that were registered last. -/
structure KeepsLatest (history : List RegistryEntry) (registry : Registry) : Prop where
  resolve_iff : ∀ t coder, registry.resolve t = .ok coder ↔ IsLatest history t coder
  /-- Failing names the type, and means that nothing was ever registered for it. -/
  fails_iff : ∀ t failure, registry.resolve t = .error failure ↔
    (∀ entry ∈ history, entry.1 ≠ t) ∧ failure = .noCoder t.name
  contains_iff : ∀ t, registry.contains t = true ↔ ∃ coder, registry.resolve t = .ok coder
  /-- What is shown is the number of different types. -/
  write_eq : registry.write =
    s!"CoderRegistry \x7b registered: {(history.map Sigma.fst).toFinset.card} \x7d"

theorem resolve_eq_ok_iff :
    registry.resolve t = .ok coder ↔ registry.erase.resolve? t = some coder := by
  rw [resolve, find?_eq_resolve?]
  cases registry.erase.resolve? t <;> simp

theorem resolve_eq_error_iff {failure : Failure} :
    registry.resolve t = .error failure ↔
      registry.erase.resolve? t = none ∧ failure = .noCoder t.name := by
  rw [resolve, find?_eq_resolve?]
  cases registry.erase.resolve? t <;> simp [eq_comm]

theorem keepsLatest_of_erase {history : List RegistryEntry}
    (h : registry.erase = ErasedTable.ofHistory history) : registry.KeepsLatest history := by
  have hkeeps := ErasedTable.keepsLatest_ofHistory history
  rw [← h] at hkeeps
  refine ⟨?_, ?_, ?_, ?_⟩
  · intro t coder
    rw [resolve_eq_ok_iff, hkeeps.resolve_iff]
  · intro t failure
    rw [resolve_eq_error_iff, hkeeps.missing_iff]
  · intro t
    simp only [resolve_eq_ok_iff]
    rw [contains, find?_eq_resolve?, Option.isSome_iff_exists]
  · have hsize : registry.size = (history.map Sigma.fst).toFinset.card := by
      rw [← hkeeps.length_eq, erase, List.length_map, size]
    change s!"CoderRegistry \x7b registered: {registry.size} \x7d" = _
    rw [hsize]

end Registry

/-! ## Registering and building -/

/-- What is done with a registry. -/
inductive RegistryCall
  | register (entry : RegistryEntry)
  | create (t : ElementType) (coder? : Option (SharedCoder t.Carrier)) (values : List t.Carrier)

/-- The registrations that calls make, in order. -/
def RegistryCall.registrations : List RegistryCall → List RegistryEntry
  | [] => []
  | register entry :: rest => entry :: registrations rest
  | create _ _ _ :: rest => registrations rest

/-- A registry, and the sources that have been built with it. -/
structure RegistryUse where
  registry : Registry
  built : List ((t : ElementType) × Source t.Carrier) := []

namespace RegistryUse

/-- What a call makes of them. -/
def step (use : RegistryUse) : RegistryCall → RegistryUse
  | .register entry => { use with registry := use.registry.register entry.1 entry.2 }
  | .create t coder? values =>
    match Source.create coder? use.registry values with
    | .ok source => { use with built := use.built ++ [⟨t, source⟩] }
    | .error _ => use

/-- What calls make of them, one after the other. -/
def run (use : RegistryUse) (calls : List RegistryCall) : RegistryUse := calls.foldl step use

variable {use : RegistryUse}

theorem registry_run (use : RegistryUse) (calls : List RegistryCall) :
    (use.run calls).registry = use.registry.registerAll (RegistryCall.registrations calls) := by
  induction calls generalizing use with
  | nil => rfl
  | cons call rest ih =>
      rw [run, List.foldl_cons]
      change ((use.step call).run rest).registry = _
      rw [ih]
      cases call with
      | register entry => rfl
      | create t coder? values =>
          rw [step]
          split <;> rfl

/-- Sources that have been built stay as they are. -/
theorem built_step (use : RegistryUse) (call : RegistryCall) :
    use.built <+: (use.step call).built := by
  cases call with
  | register entry => exact List.prefix_rfl
  | create t coder? values =>
      rw [step]
      split
      · exact List.prefix_append _ _
      · exact List.prefix_rfl

theorem built_run (use : RegistryUse) (calls : List RegistryCall) :
    use.built <+: (use.run calls).built := by
  induction calls generalizing use with
  | nil => exact List.prefix_rfl
  | cons call rest ih => exact (use.built_step call).trans (ih (use.step call))

/-- A source that is built is found again in its place, whatever is done afterwards. -/
theorem getElem?_built {t : ElementType} {coder? : Option (SharedCoder t.Carrier)}
    {values : List t.Carrier} {source : Source t.Carrier}
    (h : Source.create coder? use.registry values = .ok source) (after : List RegistryCall) :
    (use.run (.create t coder? values :: after)).built[use.built.length]? = some ⟨t, source⟩ := by
  have hbuilt : (use.step (.create t coder? values)).built = use.built ++ [⟨t, source⟩] := by
    rw [step, h]
  obtain ⟨more, hmore⟩ := built_run (use.step (.create t coder? values)) after
  rw [hbuilt, List.append_assoc] at hmore
  change ((use.step _).run after).built[use.built.length]? = _
  rw [← hmore, List.getElem?_append_right le_rfl, Nat.sub_self]
  rfl

/-- A registry that forgets its types is the table of all registrations, those that it started with
included. -/
theorem erase_run {start : Registry}
    (hstart : start ∈ [Registry.empty, {}, Registry.standard]) (calls : List RegistryCall) :
    (run { registry := start } calls).registry.erase =
      ErasedTable.ofHistory (start.entries ++ RegistryCall.registrations calls) := by
  have hfirst : start.erase = ErasedTable.ofHistory start.entries := by
    simp only [List.mem_cons, List.not_mem_nil, or_false] at hstart
    rcases hstart with rfl | rfl | rfl <;> rfl
  rw [registry_run, Registry.erase_registerAll, hfirst, ErasedTable.ofHistory,
    ErasedTable.ofHistory, List.foldl_append]

end RegistryUse

/-- A source that is built uses the coder that is chosen then. -/
theorem Source.chosen_of_create {t : ElementType} {coder? : Option (SharedCoder t.Carrier)}
    {registry : Registry} {values : List t.Carrier} {source : Source t.Carrier}
    (h : create coder? registry values = .ok source) :
    Chosen coder? registry source.buffer.coder := by
  rcases noneChosen_or_chosen coder? registry with hnone | ⟨coder, hchosen⟩
  · rw [create_of_noneChosen hnone] at h
    cases h
  · rw [create_of_chosen hchosen] at h
    obtain ⟨codes, -, rfl⟩ := ofValues_eq_ok_iff.mp h
    exact hchosen

/-- Whatever the types and the registrations are, values that have forgotten their types are found
again by the latest registration. A registry, however it was made, is such a table, and so answers
with the coder that was registered last for exactly the type that is asked for; registering for
another type makes no difference. A source that was built without a coder of its own keeps the coder
that was the latest then, whatever is registered or built afterwards. -/
theorem registry_keeps_latest {start : Registry}
    (hstart : start ∈ [Registry.empty, {}, Registry.standard]) (calls : List RegistryCall) :
    let first : RegistryUse := { registry := start }
    let last := first.run calls
    let history := start.entries ++ RegistryCall.registrations calls
    (∀ (Key : Type) [DecidableEq Key] (Item : Key → Type) (history : List (Erased Item)),
        (ErasedTable.ofHistory history).KeepsLatest history) ∧
      last.registry.erase = ErasedTable.ofHistory history ∧
      last.registry.KeepsLatest history ∧
      (∀ (entry : RegistryEntry) (t : ElementType), t ≠ entry.1 →
        (last.registry.register entry.1 entry.2).resolve t = last.registry.resolve t) ∧
      [ElementType.text, .optional .text, .optional (.optional .text)].Nodup ∧
      ∀ before t values source after, calls = before ++ .create t none values :: after →
        Source.create none (first.run before).registry values = .ok source →
          last.built[(first.run before).built.length]? = some ⟨t, source⟩ ∧
            IsLatest (start.entries ++ RegistryCall.registrations before) t
              source.buffer.coder := by
  intro first last history
  refine ⟨fun Key _ Item => ErasedTable.keepsLatest_ofHistory, RegistryUse.erase_run hstart calls,
    Registry.keepsLatest_of_erase (RegistryUse.erase_run hstart calls), ?_, by decide, ?_⟩
  · intro entry t hne
    exact Registry.resolve_register_of_ne hne.symm last.registry entry.2
  · intro before t values source after hcalls hsource
    constructor
    · have hlast : last = (first.run before).run (.create t none values :: after) := by
        change first.run calls = _
        rw [hcalls, RegistryUse.run, List.foldl_append]
        rfl
      rw [hlast]
      exact RegistryUse.getElem?_built hsource after
    · have hkeeps := Registry.keepsLatest_of_erase (RegistryUse.erase_run hstart before)
      rcases Source.chosen_of_create hsource with hsome | ⟨-, hresolve⟩
      · cases hsome
      · exact (hkeeps.resolve_iff t _).mp hresolve

/-- Texts get another coder once a source of texts is built, which keeps the one it has. -/
theorem registry_keeps_latest_otherTextCoder :
    let calls : List RegistryCall :=
      [.create .text none ["spam", "ham"], .register ⟨.text, Coder.utf8.share 9⟩,
        .register ⟨.optional (.optional .text), (Coder.nullable (.nullable .utf8)).share 10⟩]
    let last := RegistryUse.run { registry := Registry.standard } calls
    last.registry.resolve .text = .ok (Coder.utf8.share 9) ∧
      ∃ source : Source String, last.built[0]? = some ⟨.text, source⟩ ∧
        source.buffer.coder = Coder.utf8.share 2 := by
  intro calls last
  have hstart : Registry.standard ∈ [Registry.empty, {}, Registry.standard] := by simp
  obtain ⟨-, -, hkeeps, -, -, hbuilt⟩ := registry_keeps_latest hstart calls
  obtain ⟨source, hsource, hcoder⟩ : ∃ source : Source String,
      Source.create (t := .text) none Registry.standard ["spam", "ham"] = .ok source ∧
        source.buffer.coder = Coder.utf8.share 2 := ⟨_, rfl, rfl⟩
  refine ⟨?_, source, (hbuilt [] .text _ source _ rfl hsource).1, hcoder⟩
  apply (hkeeps.resolve_iff .text _).mpr
  refine ⟨Registry.standard.entries, [⟨.optional (.optional .text), _⟩], rfl, ?_⟩
  simp

end BundledReading

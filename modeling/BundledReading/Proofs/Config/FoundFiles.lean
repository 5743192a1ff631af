import BundledReading.Proofs.Config.DistinctKeys
import BundledReading.Proofs.Utf8Forms

/-!
# Found files

Which file a name stands for, and what that file says, is told apart from how it is looked for: the
file at the very path of the name, in the first format that its ending announces, or else, if there
is none, the first file at a path that goes on with the ending of a format. A file says the fields
of the table that its text is in that format.
-/

namespace BundledReading.Config

variable {files : Files} {formats : List Format} {name : String}

/-- The file that a name stands for. -/
inductive Files.Finds (files : Files) (formats : List Format) (name : String) : FoundFile → Prop
  | exact {content : Bytes} {format : Format} {ending : String} {before after : List Format}
      (hread : files.read? (files.fullPath name) = some content)
      (hending : Path.ending? (files.fullPath name) = some ending)
      (hformats : formats = before ++ format :: after) (hformat : ending ∈ format.endings)
      (hbefore : ∀ other ∈ before, ending ∉ other.endings) :
      Finds files formats name ⟨files.fullPath name, format, content⟩
  | longer {content : Bytes} {format : Format} {path : String}
      {before after : List (String × Format)}
      (hnone : files.read? (files.fullPath name) = none)
      (hpaths : longerPaths formats (files.fullPath name) = before ++ (path, format) :: after)
      (hread : files.read? path = some content)
      (hbefore : ∀ other ∈ before, files.read? other.1 = none) :
      Finds files formats name ⟨path, format, content⟩

/-- The text of the file that a name stands for is a table of fields. -/
inductive Files.Says (files : Files) (formats : List Format) (name : String)
    (fields : List (String × Document)) : Prop
  | intro {path text : String} {format : Format}
      (hfound : files.Finds formats name ⟨path, format, Text.Utf8.encode text⟩)
      (hread : format.read text = .ok (.table fields))

theorem formatOfPath?_eq_some_iff {path : String} {format : Format} :
    formatOfPath? formats path = some format ↔
      ∃ ending before after, Path.ending? path = some ending ∧
        formats = before ++ format :: after ∧ ending ∈ format.endings ∧
        ∀ other ∈ before, ending ∉ other.endings := by
  unfold formatOfPath?
  cases Path.ending? path with
  | none => simp [List.find?_eq_some_iff_append]
  | some ending =>
      rw [List.find?_eq_some_iff_append]
      simp [and_left_comm]

/-- A name is found exactly if it stands for a file. -/
theorem Files.find_eq_ok_iff {found : FoundFile} :
    files.find formats name = .ok found ↔ files.Finds formats name found := by
  unfold Files.find
  dsimp only
  constructor
  · intro h
    split at h
    next content hread =>
      split at h
      next format hformat =>
        cases h
        obtain ⟨ending, before, after, hending, hformats, hmem, hbefore⟩ :=
          formatOfPath?_eq_some_iff.mp hformat
        exact .exact hread hending hformats hmem hbefore
      · cases h
    next hnone =>
      split at h
      next candidate hcandidate =>
        cases h
        obtain ⟨before, ⟨path, format⟩, after, hpaths, hfound, hbefore⟩ :=
          List.findSome?_eq_some_iff.mp hcandidate
        obtain ⟨content, hread, rfl⟩ := Option.map_eq_some_iff.mp hfound
        exact .longer hnone hpaths hread fun other hother =>
          Option.map_eq_none_iff.mp (hbefore other hother)
      · cases h
  · intro h
    cases h with
    | exact hread hending hformats hformat hbefore =>
        have hfirst : formatOfPath? formats (files.fullPath name) = some _ :=
          formatOfPath?_eq_some_iff.mpr ⟨_, _, _, hending, hformats, hformat, hbefore⟩
        rw [hread]
        dsimp only
        rw [hfirst]
    | @longer content format path before after hnone hpaths hread hbefore =>
        have hfirst : (longerPaths formats (files.fullPath name)).findSome? (fun longer =>
            (files.read? longer.1).map fun content => FoundFile.mk longer.1 longer.2 content) =
            some ⟨path, format, content⟩ := by
          rw [List.findSome?_eq_some_iff]
          refine ⟨before, (path, format), after, hpaths, by rw [hread]; rfl, ?_⟩
          intro other hother
          rw [hbefore other hother]
          rfl
        rw [hnone]
        dsimp only
        rw [hfirst]

/-- Only one file is found for a name. -/
theorem Files.Finds.unique {found other : FoundFile} (h : files.Finds formats name found)
    (hother : files.Finds formats name other) : found = other := by
  have heq := (Files.find_eq_ok_iff.mpr h).symm.trans (Files.find_eq_ok_iff.mpr hother)
  exact Except.ok.inj heq

/-- What a name says is read from the text of the file that it stands for. -/
theorem Files.Finds.says_iff {path text : String} {format : Format}
    {fields : List (String × Document)}
    (h : files.Finds formats name ⟨path, format, Text.Utf8.encode text⟩) :
    files.Says formats name fields ↔ format.read text = .ok (.table fields) := by
  constructor
  · rintro @⟨otherPath, otherText, otherFormat, hfound, hread⟩
    obtain ⟨-, rfl, hcontent⟩ := FoundFile.mk.inj (h.unique hfound)
    have htext := Text.Utf8.decode_encode text
    rw [hcontent, Text.Utf8.decode_encode] at htext
    obtain rfl := Except.ok.inj htext
    exact hread
  · exact fun hread => ⟨h, hread⟩

/-- The format of a file that is found is one of those that are known. -/
theorem Files.Finds.mem {found : FoundFile} (h : files.Finds formats name found) :
    found.format ∈ formats := by
  cases h with
  | exact _ _ hformats => simp [hformats]
  | @longer content format path before after hnone hpaths =>
      have hlonger : (path, format) ∈ longerPaths formats (files.fullPath name) := by simp [hpaths]
      obtain ⟨format, hformat, hending⟩ := List.mem_flatMap.mp hlonger
      obtain ⟨ending, -, hpath⟩ := List.mem_filterMap.mp hending
      obtain ⟨path, -, heq⟩ := Option.map_eq_some_iff.mp hpath
      cases heq
      exact hformat

theorem fileText_eq_ok_iff {content : Bytes} {text : String} :
    fileText content = .ok text ↔ content = Text.Utf8.encode text := by
  unfold fileText
  constructor
  · intro h
    split at h
    next decoded hdecode =>
      cases h
      exact (Text.Utf8.encode_of_decode hdecode).symm
    · cases h
  · rintro rfl
    rw [Text.Utf8.decode_encode]

theorem rootFields_eq_ok_iff {origin : String} {root : Document}
    {fields : List (String × Document)} :
    rootFields origin root = .ok fields ↔ root = .table fields := by
  cases root <;> simp [rootFields]

theorem mapError_eq_ok_iff {ε ε' α : Type} {f : ε → ε'} {result : Except ε α} {value : α} :
    result.mapError f = .ok value ↔ result = .ok value := by
  cases result <;> simp [Except.mapError]

theorem bind_eq_ok_iff {ε α β : Type} {result : Except ε α} {f : α → Except ε β} {value : β} :
    result.bind f = .ok value ↔ ∃ a, result = .ok a ∧ f a = .ok value := by
  cases result <;> simp [Except.bind]

/-- What a check of a successful result has seen. -/
theorem exists_of_any_toOption {ε α : Type} {result : Except ε α} {p : α → Bool}
    (h : result.toOption.any p = true) : ∃ value, result = .ok value ∧ p value = true := by
  cases result with
  | error fault => cases h
  | ok value => exact ⟨value, rfl, h⟩

/-- What is read of a file that a name stands for. -/
theorem Files.Finds.readFile_eq {path text : String} {format : Format}
    (h : files.Finds formats name ⟨path, format, Text.Utf8.encode text⟩) :
    files.readFile formats name = (do
      let fields ← ((format.read text).bind (rootFields (files.origin path))).mapError
        fun (message : String) => Error.grammar message (files.origin path)
      return ⟨fields, files.origin path⟩) := by
  unfold Files.readFile
  rw [Files.find_eq_ok_iff.mpr h]
  dsimp only [bind, Except.bind]
  rw [fileText_eq_ok_iff.mpr rfl]

/-- A file is read exactly if it says some fields. -/
theorem Files.exists_readFile_iff {fields : List (String × Document)} :
    (∃ origin, files.readFile formats name = .ok ⟨fields, origin⟩) ↔
      files.Says formats name fields := by
  constructor
  · rintro ⟨origin, h⟩
    obtain ⟨⟨path, format, content⟩, hfound, h⟩ := exists_of_bind_eq_ok h
    obtain ⟨text, htext, h⟩ := exists_of_bind_eq_ok h
    obtain ⟨found, hfields, h⟩ := exists_of_bind_eq_ok h
    cases h
    obtain rfl := fileText_eq_ok_iff.mp htext
    obtain ⟨root, hread, hroot⟩ := bind_eq_ok_iff.mp (mapError_eq_ok_iff.mp hfields)
    obtain rfl := rootFields_eq_ok_iff.mp hroot
    exact ⟨Files.find_eq_ok_iff.mp hfound, hread⟩
  · rintro @⟨path, text, format, hfound, hread⟩
    refine ⟨files.origin path, ?_⟩
    rw [hfound.readFile_eq, hread]
    rfl

/-- No table of a file of a format with distinct keys has a key twice. -/
theorem Files.Says.clear {fields : List (String × Document)}
    (hformats : ∀ format ∈ formats, format.Distinct) (h : files.Says formats name fields) :
    Clear Document.Unambiguous fields := by
  obtain ⟨hfound, hread⟩ := h
  exact Document.unambiguous_table_iff.mp (hformats _ hfound.mem _ _ hread)

end BundledReading.Config

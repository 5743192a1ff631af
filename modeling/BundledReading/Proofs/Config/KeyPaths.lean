import BundledReading.Config.Environment
import Mathlib.Data.List.Infix
import Mathlib.Data.List.TakeWhile

/-!
# Paths of plain keys

Keys are plain if they have lower-case letters, digits and underscores only. A plain key is a path
of one step. The name of a variable, in lower case and with every two underscores replaced by a
point, is a key of plain characters and points: it is a path of plain keys if nothing is missing
between its points, and one step otherwise (`segments_cases`). The replacement can be undone, so
what a key looks like tells what the name of its variable looks like.
-/

namespace BundledReading.Config

/-! ## Plain characters -/

/-- A lower-case letter, a digit or an underscore. -/
def isPlainCharacter (c : Char) : Bool := c.isLower || c.isDigit || c = '_'

/-- A plain character, or a point between two keys. -/
def isKeyCharacter (c : Char) : Bool := isPlainCharacter c || c = '.'

/-- A plain lower-case identifier. -/
structure IsPlain (key : String) : Prop where
  nonempty : key.toList ≠ []
  plain : ∀ c ∈ key.toList, isPlainCharacter c = true

instance (key : String) : Decidable (IsPlain key) :=
  decidable_of_iff (key.toList ≠ [] ∧ key.toList.all isPlainCharacter = true)
    ⟨fun h => ⟨h.1, List.all_eq_true.mp h.2⟩,
      fun h => ⟨h.nonempty, List.all_eq_true.mpr h.plain⟩⟩

section Characters

variable {c : Char}

theorem lt_of_isAlphanum (h : c.isAlphanum = true) : c.toNat < 128 := by
  have hupTo (last : Char) (hle : c.val ≤ last.val) (hlast : last.toNat < 128) : c.toNat < 128 :=
    Nat.lt_of_le_of_lt (UInt32.le_iff_toNat_le.mp hle) hlast
  rcases Bool.or_eq_true_iff.mp h with hletter | hdigit
  · rcases Bool.or_eq_true_iff.mp hletter with hupper | hlower
    · exact hupTo 'Z' (of_decide_eq_true hupper).2 (by decide)
    · exact hupTo 'z' (of_decide_eq_true (Bool.and_eq_true_iff.mp hlower).2) (by decide)
  · exact hupTo '9' (of_decide_eq_true (Bool.and_eq_true_iff.mp hdigit).2) (by decide)

theorem lt_of_isKeyCharacter (h : isKeyCharacter c = true) : c.toNat < 128 := by
  simp only [isKeyCharacter, isPlainCharacter, Bool.or_eq_true, decide_eq_true_eq] at h
  rcases h with ((hletter | hdigit) | rfl) | rfl
  · exact lt_of_isAlphanum (Bool.or_eq_true_iff.mpr (.inl (Bool.or_eq_true_iff.mpr (.inr hletter))))
  · exact lt_of_isAlphanum (Bool.or_eq_true_iff.mpr (.inr hdigit))
  · decide
  · decide

/-- What can be checked of all characters below `U+0080` holds of each. -/
theorem of_forall_ascii {p : Char → Bool} (h : ∀ n : Fin 128, p (Char.ofNat n) = true)
    (hc : c.toNat < 128) : p c = true := by
  simpa using h ⟨c.toNat, hc⟩

theorem ofNat_mapped (h : c.toNat < 128) :
    Char.ofNat (Text.LowerCase.mapped c.toNat) = c.toLower := by
  have hall := of_forall_ascii
    (p := fun c => Char.ofNat (Text.LowerCase.mapped c.toNat) = c.toLower) (by decide +kernel) h
  simpa using hall

theorem toLower_of_isKeyCharacter (h : isKeyCharacter c = true) : c.toLower = c := by
  have hall := of_forall_ascii (p := fun c => !isKeyCharacter c || c.toLower = c)
    (by decide +kernel) (lt_of_isKeyCharacter h)
  simpa [h] using hall

/-- Among plain characters and points, the plain ones may stand in the name of a path. -/
theorem isPathCharacter_eq (h : isKeyCharacter c = true) :
    Setting.isPathCharacter c = isPlainCharacter c := by
  have hall := of_forall_ascii
    (p := fun c => !isKeyCharacter c || Setting.isPathCharacter c == isPlainCharacter c)
    (by decide +kernel) (lt_of_isKeyCharacter h)
  simpa [h] using hall

theorem isKeyCharacter_of_isPlainCharacter (h : isPlainCharacter c = true) :
    isKeyCharacter c = true := by
  simp [isKeyCharacter, h]

theorem eq_point_of_not_isPlainCharacter (h : isKeyCharacter c = true)
    (hplain : ¬isPlainCharacter c = true) : c = '.' := by
  simpa [isKeyCharacter, hplain] using h

theorem ne_point_of_isPlainCharacter (h : isPlainCharacter c = true) : c ≠ '.' := by
  rintro rfl
  exact absurd h (by decide)

end Characters

/-! ## Lower case -/

section LowerCase

variable {cs : List Char} {key : String}

theorem toLowerAfter_eq_map (seen : List Char) (h : ∀ c ∈ cs, c.toNat < 128) :
    Text.LowerCase.toLowerAfter seen cs = cs.map Char.toLower := by
  induction cs generalizing seen with
  | nil => rfl
  | cons c rest ih =>
      have hc := h c List.mem_cons_self
      have hdotted : c ≠ '\u0130' := by
        rintro rfl
        exact absurd hc (by decide)
      have hsigma : c ≠ '\u03a3' := by
        rintro rfl
        exact absurd hc (by decide)
      rw [Text.LowerCase.toLowerAfter, if_neg hdotted, if_neg hsigma, ofNat_mapped hc,
        ih (c :: seen) fun d hd => h d (List.mem_cons_of_mem c hd)]
      rfl

/-- Keys of plain characters and points are in lower case. -/
theorem toLower_eq_self (h : ∀ c ∈ key.toList, isKeyCharacter c = true) :
    Text.LowerCase.toLower key = key := by
  rw [Text.LowerCase.toLower, toLowerAfter_eq_map [] fun c hc => lt_of_isKeyCharacter (h c hc),
    List.map_congr_left fun c hc => toLower_of_isKeyCharacter (h c hc), List.map_id',
    String.ofList_toList]

theorem IsPlain.isKey (h : IsPlain key) : ∀ c ∈ key.toList, isKeyCharacter c = true :=
  fun c hc => isKeyCharacter_of_isPlainCharacter (h.plain c hc)

theorem IsPlain.toLower_eq (h : IsPlain key) : Text.LowerCase.toLower key = key :=
  toLower_eq_self h.isKey

end LowerCase

/-! ## Segments -/

namespace Setting

/-- A step into a table whose key is in lower case. -/
def Segment.Settled : Segment → Prop
  | .key name => Text.LowerCase.toLower name = name
  | .index _ => False

section Segments

variable {key : String} {cs below : List Char} {steps : List Segment}

/-- The front of a key up to its first point, and what follows. -/
theorem span_isPathCharacter (h : ∀ c ∈ cs, isKeyCharacter c = true) :
    cs.span isPathCharacter = (cs.takeWhile isPlainCharacter, cs.dropWhile isPlainCharacter) := by
  rw [List.span_eq_takeWhile_dropWhile]
  induction cs with
  | nil => rfl
  | cons c rest ih =>
      have hrest := ih fun d hd => h d (List.mem_cons_of_mem c hd)
      obtain ⟨htake, hdrop⟩ := Prod.mk.inj hrest
      have hc := isPathCharacter_eq (h c List.mem_cons_self)
      simp only [List.takeWhile_cons, List.dropWhile_cons, hc, htake, hdrop]

theorem ofName_eq {name : List Char} (h : ∀ c ∈ name, isKeyCharacter c = true) :
    Segment.ofName (String.ofList name) = .key (String.ofList name) := by
  rw [Segment.ofName, toLower_eq_self (by simpa using h)]

/-- The further steps of a path begin behind a point. -/
theorem furtherSegments?_point (fuel : Nat) (h : ∀ c ∈ below, isKeyCharacter c = true) :
    furtherSegments? (fuel + 1) ('.' :: below) =
      if (below.takeWhile isPlainCharacter).isEmpty then none
      else (.key (String.ofList (below.takeWhile isPlainCharacter)) :: ·) <$>
        furtherSegments? fuel (below.dropWhile isPlainCharacter) := by
  have hname : ∀ c ∈ below.takeWhile isPlainCharacter, isKeyCharacter c = true :=
    fun c hc => h c (List.takeWhile_subset _ hc)
  rw [furtherSegments?, span_isPathCharacter h]
  dsimp only
  rw [ofName_eq hname]

theorem furtherSegments?_of_ne {c : Char} (fuel : Nat) (hpoint : c ≠ '.') (hbracket : c ≠ '[') :
    furtherSegments? fuel (c :: below) = none := by
  unfold furtherSegments?
  split
  next heq => cases heq
  · rfl
  next heq => exact absurd (List.cons.inj heq).1 hpoint
  next heq => exact absurd (List.cons.inj heq).1 hbracket
  · rfl

/-- A key without indices only steps into tables. -/
theorem settled_of_furtherSegments? {fuel : Nat} (h : ∀ c ∈ cs, isKeyCharacter c = true)
    (hsteps : furtherSegments? fuel cs = some steps) : ∀ step ∈ steps, step.Settled := by
  induction fuel generalizing cs steps with
  | zero =>
      cases cs with
      | nil => cases hsteps; simp
      | cons c rest => cases hsteps
  | succ fuel ih =>
      cases cs with
      | nil => cases hsteps; simp
      | cons c below =>
          have hbelow : ∀ d ∈ below, isKeyCharacter d = true :=
            fun d hd => h d (List.mem_cons_of_mem c hd)
          by_cases hpoint : c = '.'
          · subst hpoint
            rw [furtherSegments?_point fuel hbelow] at hsteps
            split at hsteps
            · cases hsteps
            · obtain ⟨more, hmore, rfl⟩ := Option.map_eq_some_iff.mp hsteps
              have hname : ∀ d ∈ below.takeWhile isPlainCharacter, isKeyCharacter d = true :=
                fun d hd => hbelow d (List.takeWhile_subset _ hd)
              refine List.forall_mem_cons.mpr ⟨toLower_eq_self (by simpa using hname), ?_⟩
              exact ih (fun d hd => hbelow d (List.dropWhile_subset _ hd)) hmore
          · have hbracket : c ≠ '[' := by
              rintro rfl
              exact absurd (h '[' List.mem_cons_self) (by decide)
            rw [furtherSegments?_of_ne _ hpoint hbracket] at hsteps
            cases hsteps

/-- What a key spells whose front is not empty: a path, if what follows it does. -/
theorem segments_eq (h : ∀ c ∈ key.toList, isKeyCharacter c = true)
    (hfront : key.toList.takeWhile isPlainCharacter ≠ []) :
    segments key =
      (furtherSegments? (key.toList.dropWhile isPlainCharacter).length
        (key.toList.dropWhile isPlainCharacter)).elim [.key key]
          (.key (String.ofList (key.toList.takeWhile isPlainCharacter)) :: ·) := by
  have hname : ∀ c ∈ key.toList.takeWhile isPlainCharacter, isKeyCharacter c = true :=
    fun c hc => h c (List.takeWhile_subset _ hc)
  have hwhole : Segment.ofName key = .key key := by
    rw [Segment.ofName, toLower_eq_self h]
  rw [segments, span_isPathCharacter h]
  dsimp only
  rw [if_neg (by simpa using hfront), ofName_eq hname, hwhole]
  cases furtherSegments? (key.toList.dropWhile isPlainCharacter).length
    (key.toList.dropWhile isPlainCharacter) <;> rfl

/-- A plain key is a path of one step. -/
theorem segments_of_isPlain (h : IsPlain key) : segments key = [.key key] := by
  have htake : key.toList.takeWhile isPlainCharacter = key.toList :=
    List.takeWhile_eq_self_iff.mpr h.plain
  have hdrop : key.toList.dropWhile isPlainCharacter = [] :=
    List.dropWhile_eq_nil_iff.mpr h.plain
  rw [segments_eq h.isKey (by rw [htake]; exact h.nonempty), htake, hdrop, String.ofList_toList]
  rfl

/-- Two plain keys with a point between them are a path of two steps. -/
theorem segments_of_isPlain_pair {name : String} (hname : IsPlain name) (hkey : IsPlain key) :
    segments (name ++ "." ++ key) = [.key name, .key key] := by
  have hlist : (name ++ "." ++ key).toList = name.toList ++ '.' :: key.toList := by simp
  have htake : (name ++ "." ++ key).toList.takeWhile isPlainCharacter = name.toList := by
    rw [hlist, List.takeWhile_append_of_pos hname.plain]
    exact List.append_nil _
  have hdrop : (name ++ "." ++ key).toList.dropWhile isPlainCharacter = '.' :: key.toList := by
    rw [hlist, List.dropWhile_append_of_pos hname.plain]
    rfl
  have hall : ∀ c ∈ (name ++ "." ++ key).toList, isKeyCharacter c = true := by
    intro c hc
    rw [hlist] at hc
    rcases List.mem_append.mp hc with hc | hc
    · exact hname.isKey c hc
    · rcases List.mem_cons.mp hc with rfl | hc
      · rfl
      · exact hkey.isKey c hc
  rw [segments_eq hall (by rw [htake]; exact hname.nonempty), htake, hdrop,
    List.length_cons,
    furtherSegments?_point _ hkey.isKey, List.takeWhile_eq_self_iff.mpr hkey.plain,
    List.dropWhile_eq_nil_iff.mpr hkey.plain, String.ofList_toList, String.ofList_toList,
    if_neg (by simpa using hkey.nonempty)]
  cases key.toList.length <;> rfl

/-- A key of plain characters and points is one step, or a path that begins with a plain key. -/
theorem segments_cases (h : ∀ c ∈ key.toList, isKeyCharacter c = true) :
    segments key = [.key key] ∨
      ∃ name below steps, IsPlain name ∧ key.toList = name.toList ++ '.' :: below ∧
        below ≠ [] ∧ segments key = .key name :: steps ∧ ∀ step ∈ steps, step.Settled := by
  by_cases hfront : key.toList.takeWhile isPlainCharacter = []
  · left
    have hwhole : Segment.ofName key = .key key := by
      rw [Segment.ofName, toLower_eq_self h]
    rw [segments, span_isPathCharacter h]
    dsimp only
    rw [if_pos (by simpa using hfront), hwhole]
  · have hsplit := List.takeWhile_append_dropWhile (p := isPlainCharacter) (l := key.toList)
    rw [segments_eq h hfront]
    cases hback : key.toList.dropWhile isPlainCharacter with
    | nil =>
        left
        rw [hback, List.append_nil] at hsplit
        rw [hsplit, String.ofList_toList]
        rfl
    | cons c below =>
        have hc : c = '.' := by
          have hmem : c ∈ key.toList := List.dropWhile_subset isPlainCharacter
            (by rw [hback]; exact List.mem_cons_self)
          have hne : key.toList.dropWhile isPlainCharacter ≠ [] := by simp [hback]
          have hhead := List.head_dropWhile_not isPlainCharacter hne
          simp only [hback, List.head_cons] at hhead
          exact eq_point_of_not_isPlainCharacter (h c hmem) (by simp [hhead])
        subst hc
        cases hsteps : furtherSegments? ('.' :: below).length ('.' :: below) with
        | none => exact .inl rfl
        | some steps =>
            right
            have hbelow : ∀ c ∈ '.' :: below, isKeyCharacter c = true :=
              fun c hc => h c (List.dropWhile_subset isPlainCharacter (hback ▸ hc))
            refine ⟨String.ofList (key.toList.takeWhile isPlainCharacter), below, steps,
              ⟨by simpa using hfront, by simpa using fun c hc => List.mem_takeWhile_imp hc⟩,
              ?_, ?_, rfl, settled_of_furtherSegments? hbelow hsteps⟩
            · rw [String.toList_ofList, ← hback, hsplit]
            · rintro rfl
              cases hsteps

end Segments

end Setting

/-! ## Levels -/

namespace Environment

/-- Replaces every point by two underscores. -/
def splitLevels (cs : List Char) : List Char :=
  cs.flatMap fun c => if c = '.' then ['_', '_'] else [c]

section Levels

variable {cs below : List Char}

theorem splitLevels_cons (c : Char) (cs : List Char) :
    splitLevels (c :: cs) = (if c = '.' then ['_', '_'] else [c]) ++ splitLevels cs :=
  List.flatMap_cons

theorem splitLevels_append (cs below : List Char) :
    splitLevels (cs ++ below) = splitLevels cs ++ splitLevels below :=
  List.flatMap_append

theorem splitLevels_eq_self (h : '.' ∉ cs) : splitLevels cs = cs := by
  induction cs with
  | nil => rfl
  | cons c rest ih =>
      obtain ⟨hc, hrest⟩ : '.' ≠ c ∧ '.' ∉ rest := by simpa using h
      rw [splitLevels_cons, if_neg hc.symm, ih hrest]
      rfl

/-- What joined levels come from can be told from them. -/
theorem splitLevels_joinLevels (h : '.' ∉ cs) : splitLevels (joinLevels cs) = cs := by
  fun_induction joinLevels cs with
  | case1 rest ih =>
      have hrest : '.' ∉ rest := by simpa using h
      rw [splitLevels_cons, if_pos rfl, ih hrest]
      rfl
  | case2 c rest hother ih =>
      obtain ⟨hc, hrest⟩ : '.' ≠ c ∧ '.' ∉ rest := by simpa using h
      rw [splitLevels_cons, if_neg hc.symm, ih hrest]
      rfl
  | case3 => rfl

theorem infix_splitLevels (h : '.' ∈ cs) : ['_', '_'] <:+: splitLevels cs := by
  obtain ⟨before, after, rfl⟩ := List.append_of_mem h
  rw [splitLevels_append, splitLevels_cons, if_pos rfl]
  exact ⟨splitLevels before, splitLevels after, by simp⟩

theorem joinLevels_eq_self (h : ¬['_', '_'] <:+: cs) : joinLevels cs = cs := by
  fun_induction joinLevels cs with
  | case1 rest ih => exact absurd (List.prefix_append ['_', '_'] rest).isInfix h
  | case2 c rest hother ih =>
      rw [ih fun hrest => h (hrest.trans (List.suffix_cons c rest).isInfix)]
  | case3 => rfl

theorem isKeyCharacter_joinLevels (h : ∀ c ∈ cs, isPlainCharacter c = true) :
    ∀ c ∈ joinLevels cs, isKeyCharacter c = true := by
  fun_induction joinLevels cs with
  | case1 rest ih =>
      refine List.forall_mem_cons.mpr ⟨rfl, ih fun c hc => h c ?_⟩
      exact List.mem_cons_of_mem _ (List.mem_cons_of_mem _ hc)
  | case2 c rest hother ih =>
      refine List.forall_mem_cons.mpr
        ⟨isKeyCharacter_of_isPlainCharacter (h c List.mem_cons_self), ih fun d hd => h d ?_⟩
      exact List.mem_cons_of_mem _ hd
  | case3 => simp

end Levels

/-! ## Variables -/

/-- The key that is spelt by what follows the marker in the name of a variable. -/
def joined (name : String) : String := String.ofList (joinLevels name.toList)

section Variables

variable {name : String}

theorem not_mem_of_isPlain {cs : List Char} (h : ∀ c ∈ cs, isPlainCharacter c = true) : '.' ∉ cs :=
  fun hpoint => ne_point_of_isPlainCharacter (h '.' hpoint) rfl

theorem splitLevels_of_isPlain {key : String} (h : IsPlain key) :
    splitLevels key.toList = key.toList :=
  splitLevels_eq_self (not_mem_of_isPlain h.plain)

theorem isKeyCharacter_joined (h : ∀ c ∈ name.toList, isPlainCharacter c = true) :
    ∀ c ∈ (joined name).toList, isKeyCharacter c = true := by
  rw [joined, String.toList_ofList]
  exact isKeyCharacter_joinLevels h

theorem splitLevels_joined (h : ∀ c ∈ name.toList, isPlainCharacter c = true) :
    splitLevels (joined name).toList = name.toList := by
  rw [joined, String.toList_ofList, splitLevels_joinLevels (not_mem_of_isPlain h)]

end Variables

end Environment

end BundledReading.Config

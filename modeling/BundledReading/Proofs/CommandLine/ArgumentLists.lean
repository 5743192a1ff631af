import BundledReading.CommandLine.Arguments
import BundledReading.Proofs.Config.Conversions

/-!
# Argument lists

Which lists of arguments ask for a run, and with what, is told by how they are put together: options
with their values, in whatever form and order, values to read, and two dashes behind which
everything is a value. Each option is given at most once.
-/

namespace BundledReading.CommandLine

/-! ## Forms -/

/-- An argument that can be a value: a dash alone, or anything that does not begin with one. -/
def IsValue (word : String) : Prop := word = "-" ∨ word.toList.head? ≠ some '-'

/-- The name of an option, and its letter. -/
def OptionName.spelling : OptionName → String × String
  | config => ("config", "c")
  | bundleSize => ("bundle-size", "b")
  | parallelism => ("parallelism", "p")

/-- The arguments that give an option its value: by name or by letter, the value apart or attached.
-/
inductive GivesOption (option : OptionName) (value : String) : List String → Prop
  | nameApart (h : IsValue value) : GivesOption option value ["--" ++ option.spelling.1, value]
  | nameEquals : GivesOption option value ["--" ++ option.spelling.1 ++ "=" ++ value]
  | letterApart (h : IsValue value) : GivesOption option value ["-" ++ option.spelling.2, value]
  | letterEquals : GivesOption option value ["-" ++ option.spelling.2 ++ "=" ++ value]
  | letterAttached (hfilled : value ≠ "") (hequals : value.toList.head? ≠ some '=') :
      GivesOption option value ["-" ++ option.spelling.2 ++ value]

/-- What one part of an argument list says. -/
inductive Item where
  | option (name : OptionName) (value : String)
  | value (text : String)

/-- How a list of arguments is put together. -/
inductive Spells : List String → List Item → Prop
  | nil : Spells [] []
  | terminator (rest : List String) : Spells ("--" :: rest) (rest.map .value)
  | value {word : String} {rest : List String} {items : List Item} (h : IsValue word)
      (hrest : Spells rest items) : Spells (word :: rest) (.value word :: items)
  | option {name : OptionName} {value : String} {words rest : List String} {items : List Item}
      (h : GivesOption name value words) (hrest : Spells rest items) :
      Spells (words ++ rest) (.option name value :: items)

/-- The values to read among items, in order. -/
def valuesOf : List Item → List String
  | [] => []
  | .option _ _ :: items => valuesOf items
  | .value text :: items => text :: valuesOf items

/-- The values that items give an option, in order. -/
def givenTo (name : OptionName) : List Item → List String
  | [] => []
  | .option other value :: items =>
    if other = name then value :: givenTo name items else givenTo name items
  | .value _ :: items => givenTo name items

/-- The number that a value spells. -/
def SpellsNumber (value : String) (n : UInt64) : Prop := Config.WordText value.toList n.toNat

/-- The arguments of a run that items say. Since an option has one value at most, none is given
twice. -/
structure Says (items : List Item) (arguments : Arguments) : Prop where
  config : givenTo .config items = arguments.config.toList
  bundleSize : List.Forall₂ SpellsNumber (givenTo .bundleSize items) arguments.bundleSize.toList
  parallelism : List.Forall₂ SpellsNumber (givenTo .parallelism items) arguments.parallelism.toList
  values : arguments.values = valuesOf items

/-- A list of arguments asks for a run with these arguments. -/
def Gives (words : List String) (arguments : Arguments) : Prop :=
  ∃ items, Spells words items ∧ Says items arguments

/-! ## Shapes -/

section Shapes

/-- How a word of a shape is put together. -/
inductive HasShape (word : String) : Shape → Prop
  | plain (h : IsValue word) : HasShape word .plain
  | terminator (h : word = "--") : HasShape word .terminator
  | named {body : List Char} (h : word.toList = '-' :: '-' :: body) : HasShape word (.named body)
  | lettered {letter : Char} {attached : List Char} (h : word.toList = '-' :: letter :: attached) :
      HasShape word (.lettered letter attached)

theorem hasShape_shape (word : String) : HasShape word (shape word) := by
  unfold shape
  split
  next h => exact .terminator (String.toList_inj.mp h)
  next h => exact .named h
  next h => exact .plain (.inl (String.toList_inj.mp h))
  next h => exact .lettered h
  next hdash hletter =>
    refine .plain (.inr fun hhead => ?_)
    obtain ⟨tail, htail⟩ := List.head?_eq_some_iff.mp hhead
    cases tail with
    | nil => exact hdash htail
    | cons letter attached => exact hletter letter attached htail

variable {word : String}

theorem IsValue.shape_eq (h : IsValue word) : shape word = .plain := by
  have hshape := hasShape_shape word
  generalize shape word = shape at hshape
  cases hshape with
  | plain => rfl
  | terminator hword => simp [IsValue, hword] at h
  | named hword => simp [IsValue, hword, ← String.toList_inj] at h
  | lettered hword => simp [IsValue, hword, ← String.toList_inj] at h

theorem shape_named {body : String} (h : body ≠ "") :
    shape ("--" ++ body) = .named body.toList := by
  have hfilled : body.toList ≠ [] := by simpa using h
  rw [shape, String.toList_append]
  cases hbody : body.toList with
  | nil => exact absurd hbody hfilled
  | cons c rest => rfl

theorem shape_lettered (option : OptionName) (attached : String) :
    ∃ letter, Flag.ofLetter? letter = some (.option option) ∧
      shape ("-" ++ option.spelling.2 ++ attached) = .lettered letter attached.toList := by
  rw [shape, String.toList_append, String.toList_append]
  cases option with
  | config => exact ⟨'c', rfl, rfl⟩
  | bundleSize => exact ⟨'b', rfl, rfl⟩
  | parallelism => exact ⟨'p', rfl, rfl⟩

end Shapes

/-! ## Options -/

section Options

variable {option : OptionName} {arguments next : Arguments}

theorem eq_spelling_of_ofName? {name : String} (h : Flag.ofName? name = some (.option option)) :
    name = option.spelling.1 := by
  unfold Flag.ofName? at h
  split_ifs at h with hconfig hbundleSize hparallelism <;> cases h <;> assumption

theorem eq_spelling_of_ofLetter? {letter : Char}
    (h : Flag.ofLetter? letter = some (.option option)) :
    String.singleton letter = option.spelling.2 := by
  unfold Flag.ofLetter? at h
  split at h <;> cases h <;> rfl

theorem ofName?_spelling (option : OptionName) :
    Flag.ofName? option.spelling.1 = some (.option option) := by
  cases option <;> rfl

theorem longEffect_spelling (arguments : Arguments) (option : OptionName) :
    longEffect arguments option.spelling.1.toList = .ok (.awaits option) := by
  cases option <;> rfl

theorem longEffect_equals (arguments : Arguments) (option : OptionName) (value : String) :
    longEffect arguments (option.spelling.1.toList ++ '=' :: value.toList) =
      .done <$> arguments.give option value := by
  have hall : option.spelling.1.toList.all (· ≠ '=') = true := by
    cases option <;> decide
  have hname := List.all_eq_true.mp hall
  have hspan : (option.spelling.1.toList ++ '=' :: value.toList).span (· ≠ '=') =
      (option.spelling.1.toList, '=' :: value.toList) := by
    rw [List.span_eq_takeWhile_dropWhile, List.takeWhile_append_of_pos hname,
      List.dropWhile_append_of_pos hname]
    simp
  simp only [longEffect, hspan, String.ofList_toList, ofName?_spelling]

/-- What an argument that is no value leads to. -/
inductive LeadsTo (arguments : Arguments) (word : String) : Effect → Prop
  | done {option : OptionName} {value : String} {next : Arguments}
      (h : GivesOption option value [word]) (hgive : arguments.give option value = .ok next) :
      LeadsTo arguments word (.done next)
  | awaits {option : OptionName}
      (h : ∀ value, IsValue value → GivesOption option value [word, value]) :
      LeadsTo arguments word (.awaits option)
  | help : LeadsTo arguments word (.ends .help)
  | version : LeadsTo arguments word (.ends .version)

theorem leadsTo_done {word value : String} {effect : Effect} (hword : GivesOption option value [word])
    (h : .done <$> arguments.give option value = Except.ok effect) :
    LeadsTo arguments word effect := by
  obtain ⟨next, hgive, rfl⟩ := Config.exists_of_map_eq_ok h
  exact .done hword hgive

theorem leadsTo_longEffect {word : String} {body : List Char} {effect : Effect}
    (hword : word.toList = '-' :: '-' :: body) (h : longEffect arguments body = .ok effect) :
    LeadsTo arguments word effect := by
  have hbody := List.takeWhile_append_dropWhile (p := fun c => decide (c ≠ '=')) (l := body)
  have hequals := List.head?_dropWhile_not (fun c => decide (c ≠ '=')) body
  unfold longEffect at h
  rw [List.span_eq_takeWhile_dropWhile] at h
  dsimp only at h
  generalize body.takeWhile (fun c => decide (c ≠ '=')) = name at h hbody
  generalize body.dropWhile (fun c => decide (c ≠ '=')) = rest at h hbody hequals
  split at h
  · cases h
  next option hoption =>
    have hname := eq_spelling_of_ofName? hoption
    cases rest with
    | nil =>
        cases h
        refine .awaits fun value hvalue => ?_
        have heq : word = "--" ++ option.spelling.1 := by
          rw [← String.toList_inj, hword, ← hname, ← hbody]
          simp
        exact heq ▸ .nameApart hvalue
    | cons c value =>
        have heq : word = "--" ++ option.spelling.1 ++ "=" ++ String.ofList value := by
          have hc : c = '=' := by simpa using hequals
          rw [← String.toList_inj, hword, ← hname, ← hbody, hc]
          simp
        exact leadsTo_done (heq ▸ .nameEquals) h
  · split at h
    · cases h
      exact .help
    · cases h
  · split at h
    · cases h
      exact .version
    · cases h

theorem leadsTo_shortEffect {word : String} {letter : Char} {attached : List Char} {effect : Effect}
    (hword : word.toList = '-' :: letter :: attached)
    (h : shortEffect arguments letter attached = .ok effect) : LeadsTo arguments word effect := by
  unfold shortEffect at h
  split at h
  · cases h
  · cases h
    exact .help
  · cases h
    exact .version
  next option hoption =>
    have hletter := eq_spelling_of_ofLetter? hoption
    have heq : word = "-" ++ option.spelling.2 ++ String.ofList attached := by
      rw [← String.toList_inj, hword, ← hletter]
      simp
    split at h
    · cases h
      refine .awaits fun value hvalue => ?_
      have heq : word = "-" ++ option.spelling.2 := by simpa using heq
      exact heq ▸ .letterApart hvalue
    next value =>
      have heq : word = "-" ++ option.spelling.2 ++ "=" ++ String.ofList value := by
        rw [heq, ← String.toList_inj]
        simp
      exact leadsTo_done (heq ▸ .letterEquals) h
    next hfilled hequals =>
      refine leadsTo_done (heq ▸ .letterAttached ?_ ?_) h
      · intro hempty
        exact hfilled (by simpa using congrArg String.toList hempty)
      · intro hhead
        rw [String.toList_ofList] at hhead
        obtain ⟨value, hvalue⟩ := List.head?_eq_some_iff.mp hhead
        exact hequals value hvalue

theorem shortEffect_equals {letter : Char} (hletter : Flag.ofLetter? letter = some (.option option))
    (arguments : Arguments) (value : String) :
    shortEffect arguments letter ('=' :: value.toList) = .done <$> arguments.give option value := by
  simp only [shortEffect, hletter, String.ofList_toList]

theorem shortEffect_attached {letter : Char}
    (hletter : Flag.ofLetter? letter = some (.option option)) (arguments : Arguments)
    {value : String} (hfilled : value ≠ "") (hequals : value.toList.head? ≠ some '=') :
    shortEffect arguments letter value.toList = .done <$> arguments.give option value := by
  simp only [shortEffect, hletter]
  split
  next h => exact absurd (String.toList_inj.mp h) hfilled
  next h => simp [h] at hequals
  · rw [String.ofList_toList]

end Options

/-! ## What is given -/

/-- The arguments of a run with what items say added to them. -/
structure Adds (before : Arguments) (items : List Item) (after : Arguments) : Prop where
  config : after.config.toList = before.config.toList ++ givenTo .config items
  bundleSize : ∃ numbers, List.Forall₂ SpellsNumber (givenTo .bundleSize items) numbers ∧
    after.bundleSize.toList = before.bundleSize.toList ++ numbers
  parallelism : ∃ numbers, List.Forall₂ SpellsNumber (givenTo .parallelism items) numbers ∧
    after.parallelism.toList = before.parallelism.toList ++ numbers
  values : after.values = before.values ++ valuesOf items

section Adds

variable {before after next : Arguments} {items : List Item}

theorem toList_inj {α : Type} {a b : Option α} : a.toList = b.toList ↔ a = b := by
  cases a <;> cases b <;> simp

theorem adds_nil_iff : Adds before [] after ↔ after = before := by
  constructor
  · rintro ⟨hconfig, ⟨sizes, hsizes, hbundleSize⟩, ⟨counts, hcounts, hparallelism⟩, hvalues⟩
    obtain rfl := List.forall₂_nil_left_iff.mp hsizes
    obtain rfl := List.forall₂_nil_left_iff.mp hcounts
    obtain ⟨config, bundleSize, parallelism, values⟩ := before
    obtain ⟨_, _, _, _⟩ := after
    simp only [givenTo, valuesOf, List.append_nil, toList_inj] at *
    subst hconfig hbundleSize hparallelism hvalues
    rfl
  · rintro rfl
    exact ⟨by simp [givenTo], ⟨[], .nil, by simp⟩, ⟨[], .nil, by simp⟩, by simp [valuesOf]⟩

theorem adds_value_iff (text : String) :
    Adds before (.value text :: items) after ↔
      Adds { before with values := before.values ++ [text] } items after := by
  constructor
  · rintro ⟨hconfig, hbundleSize, hparallelism, hvalues⟩
    exact ⟨hconfig, hbundleSize, hparallelism, by simpa [valuesOf] using hvalues⟩
  · rintro ⟨hconfig, hbundleSize, hparallelism, hvalues⟩
    exact ⟨hconfig, hbundleSize, hparallelism, by simpa [valuesOf] using hvalues⟩

theorem number_eq_ok_iff (option : OptionName) {value : String} {n : UInt64} :
    Arguments.number option value = .ok n ↔ SpellsNumber value n := by
  rw [SpellsNumber, ← Config.parseWord?_eq_some_iff, Arguments.number]
  cases hparse : Config.Setting.parseWord? value with
  | none => simp
  | some k =>
      have hlt := (Config.parseWord?_eq_some_iff.mp hparse).lt
      simp only [Except.ok.injEq, Option.some.injEq]
      rw [← UInt64.toNat_inj, UInt64.toNat_ofNat_of_lt' hlt]

/-- An option that has a value is given no other. -/
theorem toList_eq_append_cons_iff {α : Type} {a b : Option α} {x : α} {l : List α} :
    b.toList = a.toList ++ x :: l ↔ a = none ∧ b.toList = (some x).toList ++ l := by
  cases a <;> cases b <;> simp

theorem exists_numbers_cons_iff {a b : Option UInt64} {value : String} {values : List String} :
    (∃ numbers, List.Forall₂ SpellsNumber (value :: values) numbers ∧
        b.toList = a.toList ++ numbers) ↔
      a = none ∧ ∃ n, SpellsNumber value n ∧
        ∃ numbers, List.Forall₂ SpellsNumber values numbers ∧
          b.toList = (some n).toList ++ numbers := by
  constructor
  · rintro ⟨_, hnumbers, heq⟩
    obtain ⟨n, numbers, hn, hrest, rfl⟩ := List.forall₂_cons_left_iff.mp hnumbers
    obtain ⟨hnone, heq⟩ := toList_eq_append_cons_iff.mp heq
    exact ⟨hnone, n, hn, numbers, hrest, heq⟩
  · rintro ⟨hnone, n, hn, numbers, hrest, heq⟩
    exact ⟨n :: numbers, .cons hn hrest, toList_eq_append_cons_iff.mpr ⟨hnone, heq⟩⟩

theorem map_number_eq_ok_iff {option : OptionName} {value : String} {f : UInt64 → Arguments} :
    (Arguments.number option value).map f = .ok next ↔ ∃ n, SpellsNumber value n ∧ next = f n := by
  simp only [← number_eq_ok_iff option]
  cases Arguments.number option value <;> simp [Except.map, eq_comm]

theorem give_eq_ok_iff {option : OptionName} {value : String} :
    before.give option value = .ok next ↔ before.has option = false ∧
      match option with
      | .config => next = { before with config := some value }
      | .bundleSize => ∃ n, SpellsNumber value n ∧ next = { before with bundleSize := some n }
      | .parallelism => ∃ n, SpellsNumber value n ∧ next = { before with parallelism := some n } := by
  unfold Arguments.give
  cases hhas : before.has option with
  | true => simp
  | false =>
      simp only [Bool.false_eq_true, if_false, true_and]
      cases option with
      | config => simp [eq_comm]
      | bundleSize => exact map_number_eq_ok_iff
      | parallelism => exact map_number_eq_ok_iff

theorem adds_option_iff (option : OptionName) (value : String) :
    Adds before (.option option value :: items) after ↔
      ∃ next, before.give option value = .ok next ∧ Adds next items after := by
  simp only [give_eq_ok_iff]
  cases option with
  | config =>
      constructor
      · rintro ⟨hconfig, hbundleSize, hparallelism, hvalues⟩
        obtain ⟨hnone, hconfig⟩ := toList_eq_append_cons_iff.mp hconfig
        exact ⟨_, ⟨by simp [Arguments.has, hnone], rfl⟩, hconfig, hbundleSize, hparallelism,
          hvalues⟩
      · rintro ⟨_, ⟨hnone, rfl⟩, hconfig, hbundleSize, hparallelism, hvalues⟩
        have hnone : before.config = none := by simpa [Arguments.has] using hnone
        exact ⟨toList_eq_append_cons_iff.mpr ⟨hnone, hconfig⟩, hbundleSize, hparallelism, hvalues⟩
  | bundleSize =>
      constructor
      · rintro ⟨hconfig, hbundleSize, hparallelism, hvalues⟩
        obtain ⟨hnone, n, hn, hbundleSize⟩ := exists_numbers_cons_iff.mp hbundleSize
        exact ⟨_, ⟨by simp [Arguments.has, hnone], n, hn, rfl⟩, hconfig, hbundleSize,
          hparallelism, hvalues⟩
      · rintro ⟨_, ⟨hnone, n, hn, rfl⟩, hconfig, hbundleSize, hparallelism, hvalues⟩
        have hnone : before.bundleSize = none := by simpa [Arguments.has] using hnone
        exact ⟨hconfig, exists_numbers_cons_iff.mpr ⟨hnone, n, hn, hbundleSize⟩, hparallelism,
          hvalues⟩
  | parallelism =>
      constructor
      · rintro ⟨hconfig, hbundleSize, hparallelism, hvalues⟩
        obtain ⟨hnone, n, hn, hparallelism⟩ := exists_numbers_cons_iff.mp hparallelism
        exact ⟨_, ⟨by simp [Arguments.has, hnone], n, hn, rfl⟩, hconfig, hbundleSize,
          hparallelism, hvalues⟩
      · rintro ⟨_, ⟨hnone, n, hn, rfl⟩, hconfig, hbundleSize, hparallelism, hvalues⟩
        have hnone : before.parallelism = none := by simpa [Arguments.has] using hnone
        exact ⟨hconfig, hbundleSize, exists_numbers_cons_iff.mpr ⟨hnone, n, hn, hparallelism⟩,
          hvalues⟩

theorem adds_empty_iff : Adds {} items after ↔ Says items after := by
  constructor
  · rintro ⟨hconfig, ⟨sizes, hsizes, hbundleSize⟩, ⟨counts, hcounts, hparallelism⟩, hvalues⟩
    refine ⟨hconfig.symm, ?_, ?_, hvalues⟩
    · exact (show after.bundleSize.toList = sizes from hbundleSize) ▸ hsizes
    · exact (show after.parallelism.toList = counts from hparallelism) ▸ hcounts
  · rintro ⟨hconfig, hbundleSize, hparallelism, hvalues⟩
    exact ⟨hconfig.symm, ⟨_, hbundleSize, rfl⟩, ⟨_, hparallelism, rfl⟩, hvalues⟩

/-- Behind two dashes everything is a value. -/
theorem adds_values_iff (texts : List String) :
    Adds before (texts.map .value) after ↔
      after = { before with values := before.values ++ texts } := by
  induction texts generalizing before with
  | nil => simp [adds_nil_iff]
  | cons text texts ih => simp [adds_value_iff, ih]

end Adds

/-! ## Lists of arguments -/

section Parse

variable {arguments result : Arguments} {words : List String}

/-- What is taken for the value of an option. -/
theorem of_parseFrom_some {option : OptionName}
    (h : parseFrom arguments (some option) words = .ok (.run result)) :
    ∃ value rest next, words = value :: rest ∧ IsValue value ∧
      arguments.give option value = .ok next ∧ parseFrom next none rest = .ok (.run result) := by
  cases words with
  | nil => cases h
  | cons value rest =>
      have hvalue := hasShape_shape value
      cases hshape : shape value with
      | plain =>
          simp only [parseFrom, hshape] at h hvalue
          obtain ⟨next, hgive, h⟩ := Config.exists_of_bind_eq_ok h
          cases hvalue with
          | plain hvalue => exact ⟨value, rest, next, rfl, hvalue, hgive, h⟩
      | _ => simp [parseFrom, hshape] at h

/-- An argument that is no value, and the ones behind it. -/
theorem LeadsTo.exists_spells {word : String} {rest : List String} {effect : Effect}
    (h : LeadsTo arguments word effect)
    (hrest : ∀ next, parseFrom next none rest = .ok (.run result) →
      ∃ items, Spells rest items ∧ Adds next items result)
    (hmore : ∀ next more, more.length < rest.length →
      parseFrom next none more = .ok (.run result) →
        ∃ items, Spells more items ∧ Adds next items result)
    (hparse : (do
      match effect with
      | .done arguments => parseFrom arguments none rest
      | .awaits option => parseFrom arguments (some option) rest
      | .ends command => return command) = .ok (.run result)) :
    ∃ items, Spells (word :: rest) items ∧ Adds arguments items result := by
  cases h with
  | done h hgive =>
      obtain ⟨items, hspells, hadds⟩ := hrest _ hparse
      exact ⟨_, .option h hspells, (adds_option_iff _ _).mpr ⟨_, hgive, hadds⟩⟩
  | awaits h =>
      obtain ⟨value, more, next, rfl, hvalue, hgive, hparse⟩ := of_parseFrom_some hparse
      obtain ⟨items, hspells, hadds⟩ := hmore next more (Nat.lt_succ_self _) hparse
      exact ⟨_, .option (h value hvalue) hspells, (adds_option_iff _ _).mpr ⟨_, hgive, hadds⟩⟩
  | help => cases hparse
  | version => cases hparse

/-- Arguments that are taken for a run are put together of items, and add what these say. -/
theorem exists_spells_of_parseFrom (h : parseFrom arguments none words = .ok (.run result)) :
    ∃ items, Spells words items ∧ Adds arguments items result := by
  induction hlength : words.length using Nat.strong_induction_on generalizing words arguments with
  | _ length ih =>
      cases words with
      | nil =>
          cases h
          exact ⟨[], .nil, adds_nil_iff.mpr rfl⟩
      | cons word rest =>
          have hrest (next : Arguments) (more : List String) (hmore : more.length ≤ rest.length)
              (hparse : parseFrom next none more = .ok (.run result)) :
              ∃ items, Spells more items ∧ Adds next items result :=
            ih more.length (by rw [← hlength, List.length_cons]; omega) hparse rfl
          have hword := hasShape_shape word
          cases hshape : shape word with
          | plain =>
              simp only [parseFrom, hshape] at h hword
              cases hword with
              | plain hvalue =>
                  obtain ⟨items, hspells, hadds⟩ := hrest _ rest le_rfl h
                  exact ⟨_, .value hvalue hspells, (adds_value_iff word).mpr hadds⟩
          | terminator =>
              simp only [parseFrom, hshape] at h hword
              cases hword with
              | terminator heq =>
                  cases h
                  rw [heq]
                  exact ⟨_, .terminator rest, (adds_values_iff rest).mpr rfl⟩
          | named body =>
              simp only [parseFrom, hshape] at h hword
              cases hword with
              | named heq =>
                  obtain ⟨effect, heffect, h⟩ := Config.exists_of_bind_eq_ok h
                  exact (leadsTo_longEffect heq heffect).exists_spells
                    (fun next => hrest next rest le_rfl)
                    (fun next more hmore => hrest next more hmore.le) h
          | lettered letter attached =>
              simp only [parseFrom, hshape] at h hword
              cases hword with
              | lettered heq =>
                  obtain ⟨effect, heffect, h⟩ := Config.exists_of_bind_eq_ok h
                  exact (leadsTo_shortEffect heq heffect).exists_spells
                    (fun next => hrest next rest le_rfl)
                    (fun next more hmore => hrest next more hmore.le) h

/-- The value of an option that stands apart from it. -/
theorem parseFrom_some {option : OptionName} {value : String} {rest : List String}
    {next : Arguments} (hvalue : IsValue value) (hgive : arguments.give option value = .ok next) :
    parseFrom arguments (some option) (value :: rest) = parseFrom next none rest := by
  simp only [parseFrom, hvalue.shape_eq, hgive]
  rfl

/-- An option with its value attached, or without one, is followed by what is behind it. -/
theorem parseFrom_of_effect (effect : Effect) {word : String} (rest : List String) :
    ((∃ body, shape word = .named body ∧ longEffect arguments body = .ok effect) ∨
      ∃ letter attached, shape word = .lettered letter attached ∧
        shortEffect arguments letter attached = .ok effect) →
    parseFrom arguments none (word :: rest) =
      match effect with
      | .done next => parseFrom next none rest
      | .awaits option => parseFrom arguments (some option) rest
      | .ends command => .ok command := by
  rintro (⟨body, hshape, heffect⟩ | ⟨letter, attached, hshape, heffect⟩)
  · simp only [parseFrom, hshape, heffect]
    rfl
  · simp only [parseFrom, hshape, heffect]
    rfl

/-- An option and its value are taken off the front. -/
theorem GivesOption.parseFrom_eq {option : OptionName} {value : String} {rest : List String}
    {next : Arguments} (h : GivesOption option value words)
    (hgive : arguments.give option value = .ok next) :
    parseFrom arguments none (words ++ rest) = parseFrom next none rest := by
  have hdone : .done <$> arguments.give option value = Except.ok (Effect.done next) := by
    rw [hgive]
    rfl
  cases h with
  | nameApart hvalue =>
      have hname : option.spelling.1 ≠ "" := by cases option <;> decide
      have hword := parseFrom_of_effect (.awaits option) (value :: rest)
        (.inl ⟨_, shape_named hname, longEffect_spelling arguments option⟩)
      exact hword.trans (parseFrom_some hvalue hgive)
  | nameEquals =>
      refine parseFrom_of_effect (.done next) rest
        (.inl ⟨option.spelling.1.toList ++ '=' :: value.toList, ?_, ?_⟩)
      · rw [shape]
        simp only [String.toList_append]
        cases option <;> rfl
      · rw [longEffect_equals, hdone]
  | letterApart hvalue =>
      obtain ⟨letter, hletter, hshape⟩ := shape_lettered option ""
      rw [String.append_empty] at hshape
      have heffect : shortEffect arguments letter "".toList = .ok (.awaits option) := by
        simp [shortEffect, hletter]
      have hword := parseFrom_of_effect (.awaits option) (value :: rest)
        (.inr ⟨letter, _, hshape, heffect⟩)
      exact hword.trans (parseFrom_some hvalue hgive)
  | letterEquals =>
      obtain ⟨letter, hletter, hshape⟩ := shape_lettered option ("=" ++ value)
      rw [← String.append_assoc] at hshape
      refine parseFrom_of_effect (.done next) rest (.inr ⟨letter, _, hshape, ?_⟩)
      rw [String.toList_append]
      exact (shortEffect_equals hletter arguments value).trans hdone
  | letterAttached hfilled hequals =>
      obtain ⟨letter, hletter, hshape⟩ := shape_lettered option value
      refine parseFrom_of_effect (.done next) rest (.inr ⟨letter, _, hshape, ?_⟩)
      rw [shortEffect_attached hletter arguments hfilled hequals, hdone]

/-- Arguments that are put together of items are taken for a run with what these add. -/
theorem Spells.parseFrom_eq {items : List Item} (h : Spells words items)
    (hadds : Adds arguments items result) :
    parseFrom arguments none words = .ok (.run result) := by
  induction h generalizing arguments with
  | nil =>
      obtain rfl := adds_nil_iff.mp hadds
      rfl
  | terminator rest =>
      obtain rfl := (adds_values_iff rest).mp hadds
      rfl
  | value h hrest ih =>
      simp only [parseFrom, h.shape_eq]
      exact ih ((adds_value_iff _).mp hadds)
  | option h hrest ih =>
      obtain ⟨next, hgive, hadds⟩ := (adds_option_iff _ _).mp hadds
      rw [h.parseFrom_eq hgive]
      exact ih hadds

/-- A list of arguments is taken for a run exactly if it asks for one. -/
theorem parse_eq_run_iff : parse words = .ok (.run arguments) ↔ Gives words arguments := by
  constructor
  · intro h
    obtain ⟨items, hspells, hadds⟩ := exists_spells_of_parseFrom h
    exact ⟨items, hspells, adds_empty_iff.mp hadds⟩
  · rintro ⟨items, hspells, htold⟩
    exact hspells.parseFrom_eq (adds_empty_iff.mpr htold)

end Parse

end BundledReading.CommandLine

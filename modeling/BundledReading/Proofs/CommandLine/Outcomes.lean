import BundledReading.Proofs.CommandLine.ArgumentLists
import BundledReading.Proofs.CommandLine.Lines
import BundledReading.Proofs.Config.FoundFiles

/-!
# Outcomes

How the program comes to its outcome, step by step: the options under which it runs, the values that
it reads, and the run of their source. What goes wrong before that run leaves nothing on standard
output.
-/

namespace BundledReading.CommandLine

variable {way : Execution} {world : World} {arguments : Arguments} {options : Options}
  {values : List String}

/-! ## Options -/

/-- The arguments of the program override their own fields of the loaded options. -/
theorem options_eq_ok_iff :
    CommandLine.options world arguments = .ok options ↔
      ∃ loaded, Config.load world.formats world.files world.environment
          (configName? arguments world.environment) = .ok loaded ∧
        options = arguments.apply loaded := by
  have hloaded {failed : Config.Error → Outcome} {result : Except Config.Error Options} :
      (result.mapError failed).map arguments.apply = .ok options ↔
        ∃ loaded, result = .ok loaded ∧ options = arguments.apply loaded := by
    cases result <;> simp [Except.mapError, Except.map, eq_comm]
  unfold CommandLine.options configName?
  cases arguments.config with
  | none => exact hloaded
  | some path => exact hloaded

/-! ## Silence -/

/-- Failure, with nothing on standard output. -/
def Silent (outcome : Outcome) : Prop := outcome.stdout = "" ∧ outcome.code ≠ 0

theorem silent_failed (doing cause : String) : Silent (failed doing cause) :=
  ⟨rfl, (by decide : (1 : UInt8) ≠ 0)⟩

theorem silent_crashed (message : String) : Silent (crashed message) :=
  ⟨rfl, (by decide : (101 : UInt8) ≠ 0)⟩

theorem silent_notLoaded (doing : String) (error : Config.Error) :
    Silent (notLoaded doing error) := by
  cases error with
  | index fault => exact silent_crashed _
  | _ => exact silent_failed _ _

theorem silent_of_load {loaded : Except Config.Error Options} {doing : String} {outcome : Outcome}
    (h : (loaded.mapError (notLoaded doing)).map arguments.apply = .error outcome) :
    Silent outcome := by
  cases loaded with
  | error error =>
      obtain rfl : notLoaded doing error = outcome := Except.error.inj h
      exact silent_notLoaded doing error
  | ok loaded => cases h

/-- Options that cannot be loaded end the program in silence. -/
theorem silent_of_options {outcome : Outcome}
    (h : CommandLine.options world arguments = .error outcome) : Silent outcome := by
  unfold CommandLine.options at h
  dsimp only at h
  split at h
  · exact silent_of_load h
  · exact silent_of_load h

/-! ## Values -/

theorem values_of_given (h : arguments.values ≠ []) :
    CommandLine.values world arguments = .ok arguments.values := by
  rw [CommandLine.values, if_neg (mt List.isEmpty_iff.mp h)]

theorem values_of_text (h : arguments.values = []) {text : String}
    (hstdin : world.stdin = Text.Utf8.encode text) :
    CommandLine.values world arguments = .ok ((splitLines text.toList).map String.ofList) := by
  rw [CommandLine.values, if_pos (List.isEmpty_iff.mpr h), inputLines?, hstdin,
    Text.Utf8.decode_encode]

/-- Only the bytes of a text are taken for input. -/
theorem values_of_noText (h : arguments.values = [])
    (hstdin : ∀ text, world.stdin ≠ Text.Utf8.encode text) :
    ∃ outcome, CommandLine.values world arguments = .error outcome ∧ Silent outcome := by
  have hnone : inputLines? world.stdin = none := by
    unfold inputLines?
    split
    next text hdecode => exact absurd (Text.Utf8.encode_of_decode hdecode).symm (hstdin text)
    · rfl
  rw [CommandLine.values, if_pos (List.isEmpty_iff.mpr h), hnone]
  exact ⟨_, rfl, silent_failed _ _⟩

/-- Standard input matters only where no values are given. -/
theorem values_congr {other : World} {otherArguments : Arguments}
    (hvalues : otherArguments.values = arguments.values)
    (hstdin : arguments.values = [] → other.stdin = world.stdin) :
    CommandLine.values other otherArguments = CommandLine.values world arguments := by
  by_cases h : arguments.values = []
  · rw [CommandLine.values, CommandLine.values, hvalues, hstdin h]
  · rw [values_of_given h, values_of_given (hvalues ▸ h), hvalues]

/-! ## Runs -/

theorem runBy_of_options_error (harguments : Gives world.arguments arguments) {outcome : Outcome}
    (h : CommandLine.options world arguments = .error outcome) : runBy way world = outcome := by
  simp only [runBy, parse_eq_run_iff.mpr harguments, runWith, h]
  rfl

theorem runBy_of_values_error (harguments : Gives world.arguments arguments)
    (hoptions : CommandLine.options world arguments = .ok options) {outcome : Outcome}
    (h : CommandLine.values world arguments = .error outcome) : runBy way world = outcome := by
  simp only [runBy, parse_eq_run_iff.mpr harguments, runWith, hoptions, h]
  rfl

/-- Once it has options and values, the program ends as the run of their source does. -/
theorem exists_runBy_eq (way : Execution) (harguments : Gives world.arguments arguments)
    (hoptions : CommandLine.options world arguments = .ok options)
    (hvalues : CommandLine.values world arguments = .ok values) {found : Source String}
    (hfound : source values = .ok found) :
    ∃ events, runBy way world = conclude (world.log events) (way options found).result := by
  refine ⟨.building values.length options :: runEvents options found (way options found), ?_⟩
  simp only [runBy, parse_eq_run_iff.mpr harguments, runWith, hoptions, hvalues, bind, Except.bind,
    hfound]
  rfl

end BundledReading.CommandLine

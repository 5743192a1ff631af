import BundledReading.Proofs.CommandLine.Outcomes
import BundledReading.Proofs.Construction
import BundledReading.Proofs.Executor.FixedSchedule
import BundledReading.Proofs.Executor.Outcome

/-!
# The program writes its values out again

Whatever way the program runs its source, and whatever its tuning, it writes the given values to
standard output, or else the lines of standard input, in their order. Lines are told by how a text
is put together from them (`LinesOf`), and what is printed is told by itself too (`Echoes`). If the
options cannot be loaded, or standard input is needed and is not UTF-8, nothing is written to
standard output.

## Implementation notes

A way to run a source may depend on the options and on the source, and may follow another
interleaving for each; all that is asked of it is that some run leaves behind what it gives
(`FollowsRuns`). The fixed schedule is such a way, since it returns. What the log makes of its
events, and which formats of configuration files there are, is left open.
-/

namespace BundledReading.CommandLine

open Executor

/-! ## Ways to run a source -/

/-- Whatever the options and the source, some run leaves behind what the way gives. -/
def FollowsRuns (way : Execution) : Prop :=
  ∀ options source, source.Valid → ∃ events,
    ((State.begin options source).run options (fun _ => false) events).ending? =
      some (way options source)

/-- The fixed schedule always returns, and so is a way to run a source. -/
theorem followsRuns_execute : FollowsRuns execute := by
  intro options source hvalid
  obtain ⟨events, ending, hending, hrun⟩ := runToEnd_returns options hvalid
  refine ⟨events, ?_⟩
  rw [hrun, execute, hending]
  rfl

/-! ## What is printed -/

/-- A number in a column: blanks and then its digits, six characters together unless it has more
digits. -/
def InColumn (n : Nat) (cell : String) : Prop :=
  ∃ blanks, cell = String.ofList (List.replicate blanks ' ') ++ toString n ∧
    cell.length = max 6 (toString n).length

/-- A line about a bundle: where it begins and ends, how many records it has, and perhaps that a
split made it. -/
inductive BundleLine (records : Nat) : String → Prop
  | intro {start : Nat} {first last count mark : String} (hfirst : InColumn start first)
      (hlast : InColumn (start + records) last) (hcount : InColumn records count)
      (hmark : mark = "" ∨ mark = "  (dynamic)") :
      BundleLine records
        ("  [" ++ first ++ ", " ++ last ++ ") " ++ count ++ " records" ++ mark ++ "\n")

/-- Success. On standard output stand the values, each with a line end behind it; on standard error,
behind what the log makes of its events, the numbers of records, of bundles and of splits, and a
line about each bundle. The lines count as many records together as there are values. -/
structure Echoes (world : World) (values : List String) (outcome : Outcome) : Prop where
  code : outcome.code = 0
  stdout : outcome.stdout.toList = values.flatMap fun value => value.toList ++ ['\n']
  stderr : ∃ (events : List LogEvent) (splits : Nat) (counts : List Nat) (lines : List String),
    outcome.stderr = world.log events ++ (toString values.length ++ " records in " ++
        toString counts.length ++ " bundles (" ++ toString splits ++ " dynamic splits)\n" ++
        String.join lines) ∧
      List.Forall₂ BundleLine counts lines ∧ counts.sum = values.length

theorem inColumn_column (n : Nat) : InColumn n (column n) := by
  have hdigits : toString n = String.ofList (Nat.toDigits 10 n) := rfl
  have hcolumn : column n =
      String.ofList (List.replicate (6 - (toString n).length) ' ') ++ toString n := by
    rw [hdigits, String.length_ofList, ← String.ofList_append]
    rfl
  refine ⟨_, hcolumn, ?_⟩
  rw [hcolumn, String.length_append, String.length_ofList, List.length_replicate]
  omega

/-- A bundle with as many records as indices has a line about it. -/
theorem bundleLine_bundleLine {bundle : Summary} (hle : bundle.start ≤ bundle.stop)
    (hrecords : bundle.records = bundle.stop - bundle.start) :
    BundleLine bundle.records (bundleLine bundle) := by
  have hstop : bundle.stop = bundle.start + bundle.records := by omega
  refine .intro (inColumn_column _) (hstop ▸ inColumn_column _) (inColumn_column _) ?_
  cases bundle.dynamic
  · exact .inl rfl
  · exact .inr rfl

theorem toList_echo (values : List String) :
    (echo values).toList = values.flatMap fun value => value.toList ++ ['\n'] := by
  rw [echo, String.toList_join, List.flatMap_map]
  simp only [String.toList_append]
  rfl

theorem reportLines_eq (report : Report String) :
    reportLines report = toString report.values.length ++ " records in " ++
      toString report.bundles.length ++ " bundles (" ++ toString report.dynamicSplits ++
      " dynamic splits)\n" ++ String.join (report.bundles.map bundleLine) := by
  have hopen : " bundles (" = " bundles " ++ "(" := rfl
  rw [reportLines, hopen]
  simp only [String.append_assoc]
  rfl

variable {way : Execution} {world : World} {arguments : Arguments} {options : Options}
  {values : List String}

/-- Values that are echoed stand on standard output in one way only. -/
theorem Echoes.stdout_eq {other : World} {outcome otherOutcome : Outcome}
    (h : Echoes world values outcome) (hother : Echoes other values otherOutcome) :
    otherOutcome.stdout = outcome.stdout :=
  String.toList_inj.mp (hother.stdout.trans h.stdout.symm)

/-! ## The source of the values -/

/-- Every list of texts has a source, which holds them. -/
theorem exists_source (values : List String) : ∃ found, source values = .ok found ∧
    found.Valid ∧ found.elements = values.map .ok ∧ found.size = values.length := by
  have hcodes : ∀ value ∈ values, ∃ code, (Coder.utf8.share 5).encode value = .ok code :=
    fun value _ => ⟨_, rfl⟩
  obtain ⟨codes, hmap⟩ := Source.exists_codes hcodes
  have hholds := Source.holdsCodes_ofEncoded hmap
  refine ⟨_, ?_, hholds.valid, hholds.elements_eq fun value _ => Coder.roundTrips_utf8 value, ?_⟩
  · exact Source.ofValues_eq_ok_iff.mpr ⟨codes, hmap, rfl⟩
  · rw [Source.size, hholds.start_eq, hholds.stop_eq, Nat.sub_zero]

/-- However the source of some values is run, its values come out. -/
theorem echoes_conclude (hway : FollowsRuns way)
    (hlimit : options.maxParallelism.toNat ≤ permitLimit) (world : World) (values : List String) :
    ∃ found, source values = .ok found ∧ ∀ events,
      Echoes world values (conclude (world.log events) (way options found).result) := by
  obtain ⟨found, hfound, hvalid, helements, hsize⟩ := exists_source values
  refine ⟨found, hfound, fun events => ?_⟩
  obtain ⟨moves, hending⟩ := hway options found hvalid
  obtain ⟨result, hresult, hway⟩ := Option.map_eq_some_iff.mp hending
  have hcalm : Calm (fun _ => false) found := fun _ _ _ _ _ => rfl
  obtain ⟨report, rfl, hsound⟩ :=
    (answers_of_run hlimit hvalid hcalm moves hresult).ok_of_elements helements
  have hvalues := hsound.values_eq helements
  rw [← hway]
  refine ⟨rfl, ?_, events, report.dynamicSplits, report.bundles.map Summary.records,
    report.bundles.map bundleLine, ?_, ?_, hsound.sum_records.trans hsize⟩
  · rw [conclude, hvalues, toList_echo]
  · rw [conclude, reportLines_eq, hvalues, List.length_map]
  · refine List.forall₂_map_left_iff.mpr (List.forall₂_map_right_iff.mpr ?_)
    refine List.forall₂_same.mpr fun bundle hbundle => ?_
    have hbounds := hsound.consecutive.bounds (List.mem_map_of_mem hbundle)
    exact bundleLine_bundleLine hbounds.2.1 (hsound.records_eq bundle hbundle)

/-! ## The program -/

/-- The program is given its arguments, and loads options that ask for no more permits than there
can be. -/
structure Admitted (world : World) (arguments : Arguments) (options : Options) : Prop where
  given : Gives world.arguments arguments
  loaded : CommandLine.options world arguments = .ok options
  allowed : options.maxParallelism.toNat ≤ permitLimit

/-- Whatever the values of a run are, they come out. -/
theorem echoes_of_values (hway : FollowsRuns way)
    (hadmitted : Admitted world arguments options)
    (h : CommandLine.values world arguments = .ok values) :
    Echoes world values (runBy way world) := by
  obtain ⟨found, hfound, hechoes⟩ := echoes_conclude hway hadmitted.allowed world values
  obtain ⟨events, hrun⟩ := exists_runBy_eq way hadmitted.given hadmitted.loaded h hfound
  rw [hrun]
  exact hechoes events

/-- What the program writes to standard output depends on its values alone. -/
theorem stdout_runBy_eq {other : Execution} {otherWorld : World} {otherArguments : Arguments}
    {otherOptions : Options} (hway : FollowsRuns way) (hother : FollowsRuns other)
    (hadmitted : Admitted world arguments options)
    (hotherAdmitted : Admitted otherWorld otherArguments otherOptions)
    (h : CommandLine.values otherWorld otherArguments = CommandLine.values world arguments) :
    (runBy other otherWorld).stdout = (runBy way world).stdout := by
  cases hvalues : CommandLine.values world arguments with
  | ok values =>
      exact (echoes_of_values hway hadmitted hvalues).stdout_eq
        (echoes_of_values hother hotherAdmitted (h.trans hvalues))
  | error outcome =>
      rw [runBy_of_values_error hadmitted.given hadmitted.loaded hvalues,
        runBy_of_values_error hotherAdmitted.given hotherAdmitted.loaded (h.trans hvalues)]

/-- Whatever way the program runs its source, and whatever it is tuned to, it writes the given
values to standard output, each on a line of its own, or else the lines of standard input, and the
bundles that it reports on have as many records together. Its standard output depends on the given
values alone, or else on standard input alone. If standard input is needed and is not UTF-8, or if
the options cannot be loaded, it fails and writes nothing to standard output. The fixed schedule is
a way to run a source. -/
theorem program_echoes_values (way : Execution) (hway : FollowsRuns way)
    (world : World) (arguments : Arguments)
    (harguments : Gives world.arguments arguments) :
    (∀ options, Admitted world arguments options →
      (arguments.values ≠ [] → Echoes world arguments.values (runBy way world)) ∧
      (arguments.values = [] → ∀ text, world.stdin = Text.Utf8.encode text →
        ∃ lines, LinesOf text.toList lines ∧
          Echoes world (lines.map String.ofList) (runBy way world)) ∧
      ∀ other otherWorld otherArguments otherOptions, FollowsRuns other →
        Admitted otherWorld otherArguments otherOptions →
        otherArguments.values = arguments.values →
        (arguments.values = [] → otherWorld.stdin = world.stdin) →
        (runBy other otherWorld).stdout = (runBy way world).stdout) ∧
      (arguments.values = [] → (∀ text, world.stdin ≠ Text.Utf8.encode text) →
        Silent (runBy way world)) ∧
      (∀ outcome, CommandLine.options world arguments = .error outcome →
        Silent (runBy way world)) ∧
      FollowsRuns execute := by
  have hsilent : ∀ outcome, CommandLine.options world arguments = .error outcome →
      Silent (runBy way world) := by
    intro outcome hoptions
    rw [runBy_of_options_error harguments hoptions]
    exact silent_of_options hoptions
  refine ⟨?_, ?_, hsilent, followsRuns_execute⟩
  · intro options hadmitted
    refine ⟨?_, ?_, ?_⟩
    · intro hgiven
      exact echoes_of_values hway hadmitted (values_of_given hgiven)
    · intro hnone text hstdin
      refine ⟨splitLines text.toList, linesOf_splitLines _, ?_⟩
      exact echoes_of_values hway hadmitted (values_of_text hnone hstdin)
    · intro other otherWorld otherArguments otherOptions hother hotherAdmitted hvalues hstdin
      exact stdout_runBy_eq hway hother hadmitted hotherAdmitted (values_congr hvalues hstdin)
  · intro hnone hstdin
    cases hoptions : CommandLine.options world arguments with
    | error outcome => exact hsilent outcome hoptions
    | ok options =>
        obtain ⟨outcome, hvalues, hfailed⟩ := values_of_noText hnone hstdin
        rw [runBy_of_values_error harguments hoptions hvalues]
        exact hfailed

/-- Values are given among options, while standard input is not UTF-8; and no values are given,
while standard input has two lines with different ends. -/
theorem program_echoes_values_twoValues :
    let files : Config.Files := ⟨id, fun _ => none, id⟩
    let given : World :=
      ⟨["spam", "--bundle-size=4", "-p2", "--", "-x"], [], files, Config.standardFormats, [255],
        fun _ => ""⟩
    let piped : World :=
      ⟨["-b", "4"], [], files, Config.standardFormats, Text.Utf8.encode "spam\r\nham", fun _ => ""⟩
    let arguments : Arguments :=
      { bundleSize := some 4, parallelism := some 2, values := ["spam", "-x"] }
    Gives given.arguments arguments ∧ Gives piped.arguments { bundleSize := some 4 } ∧
      FollowsRuns execute ∧ (∃ options, Admitted given arguments options) ∧
      (∃ options, Admitted piped { bundleSize := some 4 } options) ∧
      (run given).stdout = "spam\n-x\n" ∧ (run piped).stdout = "spam\nham\n" := by
  intro files given piped arguments
  have hgiven : Gives given.arguments arguments := parse_eq_run_iff.mp (by decide +kernel)
  have hpiped : Gives piped.arguments { bundleSize := some 4 } :=
    parse_eq_run_iff.mp (by decide +kernel)
  have hadmitted {world : World} {arguments : Arguments} (h : Gives world.arguments arguments)
      (hloads : ((CommandLine.options world arguments).toOption.any fun options =>
        options.maxParallelism.toNat ≤ permitLimit) = true) :
      ∃ options, Admitted world arguments options := by
    obtain ⟨options, hoptions, hallowed⟩ := Config.exists_of_any_toOption hloads
    exact ⟨options, h, hoptions, of_decide_eq_true hallowed⟩
  obtain ⟨options, hoptions⟩ := hadmitted hgiven (by decide +kernel)
  obtain ⟨otherOptions, hotherOptions⟩ := hadmitted hpiped (by decide +kernel)
  obtain ⟨hechoes, -, -, hfollows⟩ :=
    program_echoes_values execute followsRuns_execute given arguments hgiven
  obtain ⟨hotherEchoes, -⟩ := program_echoes_values execute followsRuns_execute piped _ hpiped
  obtain ⟨lines, hlines, houtcome⟩ :=
    (hotherEchoes otherOptions hotherOptions).2.1 rfl "spam\r\nham" rfl
  have hsplit : lines.map String.ofList = ["spam", "ham"] := by
    rw [hlines.eq_splitLines]
    decide +kernel
  rw [hsplit] at houtcome
  refine ⟨hgiven, hpiped, hfollows, ⟨options, hoptions⟩, ⟨otherOptions, hotherOptions⟩, ?_, ?_⟩
  · exact String.toList_inj.mp ((hechoes options hoptions).1 (by decide)).stdout
  · exact String.toList_inj.mp houtcome.stdout

end BundledReading.CommandLine

import BundledReading.Proofs.Executor.Invariant

/-!
# What runs return

Two results about all interleavings of a run. Over elements that all decode it returns nothing but
a report of all of them, in order; and it fails only with what the coder says of one of the
elements, whichever it came upon first.

## Implementation notes

Both are about runs that return. How many permits there are, how large bundles are, where ticks
fall and at which fractions they split makes no difference to either.
-/

namespace BundledReading.Executor

variable {α : Type} {options : Options} {crashes : Bytes → Bool} {source : Source α}
  {result : Except RunError (Report α)}

/-- Whatever the interleaving, a run that returns has an answer for its source. -/
theorem answers_of_run (hlimit : options.maxParallelism.toNat ≤ permitLimit)
    (hvalid : source.Valid) (hcalm : Calm crashes source) (events : List RunEvent)
    (hresult : ((State.begin options source).run options crashes events).result? = some result) :
    Answers source result := by
  have hparallelism : options.parallelism ≤ permitLimit :=
    Nat.max_le.mpr ⟨hlimit, by decide⟩
  have hsound := (State.sound_begin hparallelism hvalid).run hvalid hcalm events
  cases hsound with
  | running hnone _ _ =>
      rw [hnone] at hresult
      exact absurd hresult (by simp)
  | returned other hother hanswers =>
      obtain rfl : other = result := Option.some.inj (hother.symm.trans hresult)
      exact hanswers

/-- There is no failure among elements that all decode. -/
theorem Answers.ok_of_elements {values : List α} (h : Answers source result)
    (hvalues : source.elements = values.map .ok) :
    ∃ report, result = .ok report ∧ report.Sound source := by
  cases result with
  | ok report => exact ⟨report, rfl, h⟩
  | error error =>
      obtain ⟨cause, -, hcause⟩ := h
      rw [hvalues] at hcause
      obtain ⟨value, -, hvalue⟩ := List.mem_map.mp hcause
      exact absurd hvalue (by simp)

/-- The values of a full report are the values that the elements decode to. -/
theorem Report.Sound.values_eq {report : Report α} {values : List α} (h : report.Sound source)
    (hvalues : source.elements = values.map .ok) : report.values = values := by
  have hsame : report.values.map Except.ok = values.map (Except.ok (ε := Failure)) :=
    h.elements_eq.symm.trans hvalues
  exact List.map_inj_right (fun _ _ => Except.ok.inj) |>.mp hsame

/-- The records of a full report are as many together as its source has elements. -/
theorem Report.Sound.sum_records {report : Report α} (h : report.Sound source) :
    (report.bundles.map Summary.records).sum = source.size := by
  have hlengths := h.consecutive.sum_lengths
  rw [List.map_map] at hlengths
  rw [← Source.size] at hlengths
  rw [← hlengths]
  exact congrArg List.sum (List.map_congr_left fun bundle hbundle => h.records_eq bundle hbundle)

/-- Over elements that all decode, a run that returns reports every element once and in order,
whatever the interleaving. Its bundles, as reported, follow one another from the start of the
source to its stop, each with as many records as it has indices; none is empty, but for the only
bundle of an empty source. -/
theorem run_reports_every_element {values : List α}
    (hlimit : options.maxParallelism.toNat ≤ permitLimit) (hvalid : source.Valid)
    (hcalm : Calm crashes source) (hvalues : source.elements = values.map .ok)
    (events : List RunEvent)
    (hresult : ((State.begin options source).run options crashes events).result? = some result) :
    ∃ report, result = .ok report ∧ report.values = values ∧
      Consecutive source.start (report.bundles.map fun bundle => (bundle.start, bundle.stop))
        source.stop ∧
      (∀ bundle ∈ report.bundles, bundle.records = bundle.stop - bundle.start) ∧
      (source.start < source.stop → ∀ bundle ∈ report.bundles, bundle.start < bundle.stop) ∧
      (source.start = source.stop → ∃ bundle, report.bundles = [bundle] ∧
        bundle.start = source.start ∧ bundle.stop = source.stop) := by
  obtain ⟨report, rfl, hreport⟩ :=
    (answers_of_run hlimit hvalid hcalm events hresult).ok_of_elements hvalues
  refine ⟨report, rfl, ?_, hreport.consecutive, hreport.records_eq, ?_, ?_⟩
  · have hsame : report.values.map Except.ok = values.map (Except.ok (ε := Failure)) :=
      hreport.elements_eq.symm.trans hvalues
    exact List.map_inj_right (fun _ _ => Except.ok.inj) |>.mp hsame
  · intro hlt bundle hbundle
    have hle := (hreport.consecutive.bounds (List.mem_map_of_mem hbundle)).2.1
    refine Nat.lt_of_le_of_ne hle ?_
    intro hempty
    exact absurd (hreport.filled bundle hbundle hempty) (Nat.ne_of_lt hlt)
  · intro hempty
    obtain ⟨bundle, hbundle⟩ := List.length_eq_one_iff.mp (hreport.single hempty)
    have hconsecutive := hreport.consecutive
    rw [hbundle] at hconsecutive
    exact ⟨bundle, hbundle, hconsecutive.1, hconsecutive.2.2⟩

/-- The only bundle of four numbers is split while it is read, and the residual is through first. -/
theorem run_reports_every_element_fourNumbers :
    let events : List RunEvent :=
      [.proceed, .proceed, .work 0, .tick [0], .proceed, .proceed] ++ List.replicate 9 (.work 1) ++
        [.join 1, .proceed] ++ List.replicate 8 (.work 0) ++ [.join 0, .proceed]
    let final := (State.begin {} Source.fourNumbers).run {} (fun _ => false) events
    final.dynamicSplits = 1 ∧ ∃ report, final.result? = some (.ok report) ∧
      report.values = [1, 2, 3, 4] ∧
      Consecutive 0 (report.bundles.map fun bundle => (bundle.start, bundle.stop)) 4 := by
  intro events final
  have hreturns : final.result?.isSome = true := by decide +kernel
  obtain ⟨result, hresult⟩ := Option.isSome_iff_exists.mp hreturns
  obtain ⟨report, rfl, hvalues, hconsecutive, -⟩ := run_reports_every_element (by decide)
    (Source.valid_ofBuffer _) (fun _ _ _ _ _ => rfl) Source.elements_fourNumbers events hresult
  exact ⟨by decide +kernel, report, hresult, hvalues, hconsecutive⟩

/-- A run that returns succeeds if every element decodes, and only then. Otherwise it fails with
what the coder says of one element, at the index of that element, whatever the interleaving. -/
theorem run_succeeds_iff_decodable (hlimit : options.maxParallelism.toNat ≤ permitLimit)
    (hvalid : source.Valid) (hcalm : Calm crashes source) (events : List RunEvent)
    (hresult : ((State.begin options source).run options crashes events).result? = some result) :
    ((∃ report, result = .ok report) ↔
        ∀ index, source.start ≤ index → index < source.stop →
          ∃ value, source.buffer.decode index = .ok value) ∧
      ∀ error, result = .error error →
        ∃ index bytes cause, error = .source (.decode index cause) ∧
          source.start ≤ index ∧ index < source.stop ∧
          source.buffer.get? index = some bytes ∧
          source.buffer.coder.decode bytes = .error cause := by
  have hanswers := answers_of_run hlimit hvalid hcalm events hresult
  refine ⟨⟨?_, ?_⟩, ?_⟩
  · rintro ⟨report, rfl⟩
    exact Buffer.exists_values_iff.mp ⟨report.values, hanswers.elements_eq⟩
  · intro hdecodes
    obtain ⟨values, hvalues⟩ := Buffer.exists_values_iff.mpr hdecodes
    obtain ⟨report, hreport, -⟩ := hanswers.ok_of_elements hvalues
    exact ⟨report, hreport⟩
  · rintro error rfl
    obtain ⟨failure, rfl, hfailure⟩ := hanswers
    obtain ⟨index, hstart, hstop, hdecode⟩ := Buffer.mem_slice.mp hfailure
    have hsize : index < source.buffer.size := Nat.lt_of_lt_of_le hstop hvalid.stop_le_size
    obtain ⟨bytes, cause, hget, hcause, rfl⟩ := Buffer.decode_eq_error hsize hdecode
    exact ⟨index, bytes, cause, rfl, hstart, hstop, hget, hcause⟩

/-- Of five elements the second is cut short. The task that has failed with it is split before it is
joined, and still the run fails with that element. -/
theorem run_succeeds_iff_decodable_cutShort :
    let source := Source.ofBuffer (Buffer.ofEncoded (Coder.bigEndian32.share 0)
      [[0, 0, 0, 1], [0, 0], [0, 0, 0, 3], [0, 0, 0, 4], [0, 0, 0, 5]])
    let events : List RunEvent :=
      [.proceed, .proceed] ++ List.replicate 7 (.work 0) ++ [.tick [0], .proceed, .proceed, .join 0]
    let final := (State.begin {} source).run {} (fun _ => false) events
    final.dynamicSplits = 1 ∧ ∃ index bytes cause,
      final.result? = some (.error (.source (.decode index cause))) ∧
      source.buffer.get? index = some bytes ∧
      source.buffer.coder.decode bytes = .error cause := by
  intro source events final
  have hreturns : final.result?.isSome = true := by decide +kernel
  obtain ⟨result, hresult⟩ := Option.isSome_iff_exists.mp hreturns
  obtain ⟨hiff, herror⟩ := run_succeeds_iff_decodable (by decide) (Source.valid_ofBuffer _)
    (fun _ _ _ _ _ => rfl) events hresult
  refine ⟨by decide +kernel, ?_⟩
  cases result with
  | ok report =>
      obtain ⟨value, hvalue⟩ := hiff.mp ⟨report, rfl⟩ 1 (by decide) (by decide)
      cases hvalue
  | error error =>
      obtain ⟨index, bytes, cause, rfl, -, -, hget, hcause⟩ := herror error rfl
      exact ⟨index, bytes, cause, hresult, hget, hcause⟩

end BundledReading.Executor

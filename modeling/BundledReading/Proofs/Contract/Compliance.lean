import BundledReading.Proofs.Contract.InMemory
import BundledReading.Proofs.Contract.Soundness
import BundledReading.Proofs.Division
import BundledReading.Proofs.ReaderCalls

/-!
# Sources in memory keep the contract

Whatever source comes from a root by bundles, residuals and current sources, all checks succeed on
it if its elements decode and agree with themselves, for as many elements read before a split as
memory has room for. A check of a split fails in one way only: the outcome is the one that it was
told not to expect.
-/

namespace BundledReading

variable {α : Type}

/-- The sources that come from a root by static splits, by splits of readers, and by asking readers
for their current source, again and again and after whatever calls. -/
inductive Source.Derived (root : Source α) : Source α → Prop
  | root : Derived root root
  | bundle {source bundle desiredBytes} (h : Derived root source)
      (hbundle : bundle ∈ source.bundles desiredBytes) : Derived root bundle
  | residual {source residual calls splitter fraction} (h : Derived root source)
      (hanswer : (((Session.opened source).performAll calls).perform
        (.split splitter fraction)).1 = .residual (some residual)) : Derived root residual
  | current {source current calls} (h : Derived root source)
      (hanswer : (((Session.opened source).performAll calls).perform .currentSource).1 =
        .source current) : Derived root current

theorem Source.Derived.valid {root source : Source α} (hroot : root.Valid)
    (h : root.Derived source) : source.Valid := by
  induction h with
  | root => exact hroot
  | bundle _ hbundle ih => exact (Covers.bundles _ ih.start_le_stop).valid ih hbundle
  | @residual source residual calls splitter fraction _ hanswer ih =>
      have hopened : (Session.opened source).readers = #[Reader.ofSource source] := rfl
      obtain ⟨reader, hreaders, hsource, hsound⟩ :=
        Session.performAll_sound hopened (Reader.sound_ofSource ih) calls
      obtain ⟨next, -, hchange, heffect⟩ :=
        Session.perform_effect hreaders (.split splitter fraction)
      obtain ⟨-, -, -, -, -, -, -, -, -, -, hlive, rfl⟩ := heffect.accepted residual hanswer
      exact hsound.valid.withRange (Nat.le_of_lt hlive) hsound.liveEnd_le_stop
  | @current source current calls _ hanswer ih =>
      have hopened : (Session.opened source).readers = #[Reader.ofSource source] := rfl
      obtain ⟨reader, hreaders, -, hsound⟩ :=
        Session.performAll_sound hopened (Reader.sound_ofSource ih) calls
      simp only [Session.perform, Session.ask_eq hreaders, ReaderAnswer.source.injEq] at hanswer
      rw [← hanswer]
      exact hsound.valid_currentSource

namespace Contract

variable {view : ElementView α} {source : Source α} {values : List α} {budget count : Nat}
  {fraction : Numeric.Binary64} {expectation : ExpectedSplit}

theorem ElementView.listAgrees_self {items : List α}
    (h : ∀ item ∈ items, view.agrees item item = true) : view.listAgrees items items = true := by
  induction items with
  | nil => rfl
  | cons item items ih =>
      obtain ⟨hitem, hitems⟩ := List.forall_mem_cons.mp h
      simp only [listAgrees, hitem, ih hitems, Bool.and_self]

theorem demandAgreement_of_eq {σ : Type} {left right : List α} {reason : String} {state : σ}
    (heq : left = right) (h : ∀ item ∈ right, view.agrees item item = true) :
    demandAgreement view left right reason state = .ok () state := by
  obtain rfl := heq
  exact demandAgreement_eq_ok_iff.mpr ⟨ElementView.listAgrees_self h, rfl⟩

/-- A source that can be read within a budget, and whose elements agree with themselves. -/
structure Readable (view : ElementView α) (budget : Nat) (source : Source α) (values : List α) :
    Prop where
  valid : source.Valid
  elements_eq : source.elements = values.map .ok
  agrees : ∀ value ∈ values, view.agrees value value = true
  size_le : source.size ≤ budget

/-- A source whose elements decode is read to its end. -/
theorem readAll_of_elements (hvalid : source.Valid) (hvalues : source.elements = values.map .ok)
    (hbudget : source.size ≤ budget) :
    (inMemory α).readAll budget source () = .ok values () := by
  rw [readAll_inMemory hvalid hbudget, Source.read_eq_ok hvalues]
  rfl

theorem Readable.readAll (h : Readable view budget source values) :
    (inMemory α).readAll budget source () = .ok values () :=
  readAll_of_elements h.valid h.elements_eq h.size_le

/-! ## Parts -/

theorem readParts_inMemory {coder index : Nat} {parts : List (Source α)}
    (hparts : ∀ part ∈ parts,
      part.Valid ∧ part.buffer.coder.identity = coder ∧ part.size ≤ budget)
    (hvalues : parts.flatMap Source.elements = values.map .ok) :
    readParts (inMemory α) budget coder index parts () = .ok values () := by
  induction parts generalizing index values with
  | nil =>
      obtain rfl : values = [] := List.map_eq_nil_iff.mp hvalues.symm
      rfl
  | cons part parts ih =>
      rw [List.flatMap_cons] at hvalues
      obtain ⟨front, back, rfl, hfront, hback⟩ := List.append_eq_map_iff.mp hvalues
      obtain ⟨⟨hvalid, hcoder, hsize⟩, hparts⟩ := List.forall_mem_cons.mp hparts
      have hask : perform ((inMemory α).coderIdentity part) () = .ok coder () := by
        rw [← hcoder]
        rfl
      rw [readParts, bind_of_ok hask]
      refine guard_eq_ok_iff.mpr ⟨by simp, ?_⟩
      rw [bind_of_ok (readAll_of_elements hvalid hfront.symm hsize),
        bind_of_ok (ih hparts hback.symm)]
      rfl

theorem Readable.checkParts_bundles (h : Readable view budget source values)
    (desiredBytes : Nat) :
    checkParts (inMemory α) view budget source (source.bundles desiredBytes) () = .ok () () := by
  have hcovers := Covers.bundles desiredBytes h.valid.start_le_stop
  have hask : perform ((inMemory α).coderIdentity source) () =
      .ok source.buffer.coder.identity () := rfl
  have hparts : readParts (inMemory α) budget source.buffer.coder.identity 0
      (source.bundles desiredBytes) () = .ok values () := by
    apply readParts_inMemory
    · intro part hpart
      have hbounds := hcovers.bounds hpart
      have hbudget := h.size_le
      refine ⟨hcovers.valid h.valid hpart, by rw [hcovers.buffer_eq part hpart], ?_⟩
      simp only [Source.size] at hbudget ⊢
      omega
    · rw [Source.flatMap_elements_bundles desiredBytes h.valid.start_le_stop]
      exact h.elements_eq
  rw [checkParts]
  apply guard_eq_ok_iff.mpr
  constructor
  · simpa [List.isEmpty_iff] using hcovers.tiles.ne_nil
  · rw [bind_of_ok hask, bind_of_ok h.readAll, bind_of_ok hparts]
    exact demandAgreement_of_eq rfl h.agrees

/-! ## Splits -/

/-- Which split it is, as messages show it. -/
def writeSplit (source : Source α) (count : Nat) (fraction : Numeric.Binary64) : String :=
  s!"split of {source.write} at {writeAttempt fraction count}"

/-- What the check of a split makes of its outcome. Of `length` elements `count` were read before,
or all if there are fewer. -/
inductive SplitVerdict (source : Source α) (count : Nat) (fraction : Numeric.Binary64)
    (length : Nat) (expectation : ExpectedSplit) :
    Option (Source α) → EStateM.Result CheckError Unit (Option SplitSizes) → Prop
  | rejected (allowed : expectation ≠ .accepted) :
      SplitVerdict source count fraction length expectation none (.ok none ())
  | missed (demanded : expectation = .accepted) :
      SplitVerdict source count fraction length expectation none
        (.error (.violation s!"{writeSplit source count fraction} was rejected") ())
  | accepted {rest sizes} (allowed : expectation ≠ .rejected) (started : 0 < count)
      (together : sizes.primary + sizes.residual = length) (unread : count < sizes.primary)
      (given : 1 ≤ sizes.residual) :
      SplitVerdict source count fraction length expectation (some rest) (.ok (some sizes) ())
  | unwanted {rest} (excluded : expectation = .rejected) :
      SplitVerdict source count fraction length expectation (some rest)
        (.error (.violation
          s!"{writeSplit source count fraction} produced {rest.write}") ())

variable {before : List α} {progress : Reader.Progress} {reader next : Reader α} {rest : Source α}

/-- A consumer has read `count` elements of a source that is to be split next, or all of them if
there are fewer. -/
structure Standing (source : Source α) (count : Nat) (before : List α) (progress : Reader.Progress)
    (reader : Reader α) : Prop where
  first : (inMemory α).readFirst count false (Reader.ofSource source, ()) = .ok before (reader, ())
  underway : Underway source before progress reader
  resumes : Resumes (0 < count) progress
  liveEnd_eq : reader.range.liveEnd = source.stop
  length_eq : progress ≠ .exhausted → before.length = count

theorem Readable.exists_standing (h : Readable view budget source values) (count : Nat) :
    ∃ before progress reader, Standing source count before progress reader := by
  obtain ⟨before, reader, progress, hfirst, hreader, hresumes, hlive, hlength⟩ :=
    (Underway.ofSource h.valid).readFirst h.elements_eq .fresh count
  rw [List.nil_append] at hreader
  rw [Bool.false_or] at hresumes
  exact ⟨before, progress, reader, hfirst, hreader, hresumes, hlive, hlength⟩

theorem always_split {residual : Option (Source α)} (h : reader.split fraction = (residual, next)) :
    always ((inMemory α).split fraction) (reader, ()) = .ok residual (next, ()) := by
  simp only [always, inMemory, h]

section

variable (hsource : Readable view budget source values)
  (hstanding : Standing source count before progress reader)

include hsource hstanding

theorem checkSplit_of_rejected (hsplit : reader.split fraction = (none, reader))
    (hallowed : expectation ≠ .accepted) :
    checkSplit (inMemory α) view budget source count fraction expectation () = .ok none () := by
  obtain ⟨after, last, hafter, hlast, hlive⟩ :=
    hstanding.underway.readRest hsource.elements_eq hstanding.resumes hsource.size_le
  obtain rfl := hlast.read_eq hsource.elements_eq (hlive.trans hstanding.liveEnd_eq)
  rw [checkSplit, bind_of_ok hsource.readAll, bind_of_ok (perform_openSource source)]
  cases expectation with
  | accepted => exact absurd rfl hallowed
  | rejected | either =>
      rw [bind_of_ok (withReader_of_ok ((bind_of_ok hstanding.first).trans
        ((bind_of_ok (always_split hsplit)).trans (bind_of_ok hafter))))]
      exact bind_of_ok (demandAgreement_of_eq rfl hsource.agrees)

/-- A reader that was split reads its current source, and the residual holds the rest. -/
theorem checkSplit_of_accepted (hsplit : reader.split fraction = (some rest, next))
    (hallowed : expectation ≠ .rejected) :
    ∃ sizes, checkSplit (inMemory α) view budget source count fraction expectation () =
        .ok (some sizes) () ∧
      0 < count ∧ sizes.primary + sizes.residual = values.length ∧ count < sizes.primary ∧
      1 ≤ sizes.residual := by
  obtain ⟨hrest, hunread, hstarted, hunfinished⟩ :=
    hstanding.underway.of_split_eq_some hstanding.liveEnd_eq hsplit
  have hnext : Underway source before progress next := by
    have := hstanding.underway.split fraction
    rwa [hsplit] at this
  obtain ⟨after, last, hafter, hlast, hlive⟩ :=
    hnext.readRest hsource.elements_eq hstanding.resumes hsource.size_le
  -- Reading on stops at the new live end, which is also where the current source ends.
  have hparts : ((fun current => some (current, rest)) <$> always (inMemory α).currentSource)
      (last, ()) = .ok (some (last.currentSource, rest)) (last, ()) := rfl
  have hprimary : (inMemory α).readAll budget last.currentSource () = .ok (before ++ after) () := by
    apply readAll_of_elements hlast.sound.valid_currentSource hlast.reached.2
    have hstop := hlast.sound.liveEnd_le_stop
    have hbudget := hsource.size_le
    simp only [Source.size, Reader.currentSource, Source.withRange, hlast.source_eq]
      at hbudget hstop ⊢
    omega
  rw [← hlive] at hrest hunread
  obtain ⟨tail, hresidual, rfl, htail⟩ := hlast.read_append_residual hsource.elements_eq hrest hsource.size_le
  have hlength := Buffer.length_of_slice_eq hlast.slice_eq
  have hcount := hstanding.length_eq hunfinished
  refine ⟨⟨(before ++ after).length, tail.length⟩, ?_, ?_, ?_, ?_, ?_⟩
  · rw [checkSplit, bind_of_ok hsource.readAll, bind_of_ok (perform_openSource source)]
    have hitems : ∀ value ∈ before ++ after, view.agrees value value = true :=
      fun value hvalue => hsource.agrees value (List.mem_append_left _ hvalue)
    cases expectation with
    | rejected => exact absurd rfl hallowed
    | accepted | either =>
        rw [bind_of_ok (withReader_of_ok ((bind_of_ok hstanding.first).trans
          ((bind_of_ok (always_split hsplit)).trans ((bind_of_ok hafter).trans
            (bind_of_ok hparts)))))]
        refine (bind_of_ok hprimary).trans ((bind_of_ok hresidual).trans ?_)
        refine (bind_of_ok (demandAgreement_of_eq rfl hitems)).trans ?_
        exact bind_of_ok (demandAgreement_of_eq rfl hsource.agrees)
  · exact of_decide_eq_true (hstanding.resumes.started_of_ne hstarted)
  · exact List.length_append.symm
  · dsimp only
    omega
  · rw [htail]
    exact Nat.sub_pos_of_lt hrest.2

theorem verdict_of_standing (fraction : Numeric.Binary64) (expectation : ExpectedSplit) :
    SplitVerdict source count fraction values.length expectation (reader.split fraction).1
      (checkSplit (inMemory α) view budget source count fraction expectation ()) := by
  cases hsplit : reader.split fraction with
  | mk residual next =>
      cases residual with
      | none =>
          obtain rfl := Reader.eq_of_split_eq_none hsplit
          by_cases hallowed : expectation = .accepted
          · obtain rfl := hallowed
            rw [checkSplit, bind_of_ok hsource.readAll, bind_of_ok (perform_openSource source),
              bind_of_error (withReader_of_error ((bind_of_ok hstanding.first).trans
                ((bind_of_ok (always_split hsplit)).trans rfl)))]
            exact .missed rfl
          · rw [checkSplit_of_rejected hsource hstanding hsplit hallowed]
            exact .rejected hallowed
      | some rest =>
          by_cases hallowed : expectation = .rejected
          · obtain rfl := hallowed
            rw [checkSplit, bind_of_ok hsource.readAll, bind_of_ok (perform_openSource source),
              bind_of_error (withReader_of_error ((bind_of_ok hstanding.first).trans
                ((bind_of_ok (always_split hsplit)).trans rfl)))]
            exact .unwanted rfl
          · obtain ⟨sizes, hcheck, hstarted, htogether, hunread, hgiven⟩ :=
              checkSplit_of_accepted hsource hstanding hsplit hallowed
            rw [hcheck]
            exact .accepted hallowed hstarted htogether hunread hgiven

/-- Whenever a concurrent split lands, nothing is lost or read twice. -/
theorem concurrent_of_standing (fraction : Numeric.Binary64) (calls : Nat) :
    ∃ accepted, checkConcurrentSplit (inMemory α) view budget source count fraction calls () =
      .ok accepted () := by
  obtain ⟨after, residual, last, hafter, hlast, hresidual⟩ :=
    hstanding.underway.readRacing hsource.elements_eq hstanding.resumes hstanding.liveEnd_eq
      hsource.size_le fraction calls
  refine ⟨residual.isSome, ?_⟩
  rw [checkConcurrentSplit, bind_of_ok hsource.readAll, bind_of_ok (perform_openSource source),
    bind_of_ok (withReader_of_ok ((bind_of_ok hstanding.first).trans (bind_of_ok hafter)))]
  cases residual with
  | none =>
      obtain rfl := hlast.read_eq hsource.elements_eq hresidual
      exact bind_of_ok (demandAgreement_of_eq (List.append_nil _) hsource.agrees)
  | some rest =>
      obtain ⟨tail, hrest, rfl, -⟩ := hlast.read_append_residual hsource.elements_eq hresidual hsource.size_le
      exact (bind_of_ok hrest).trans (bind_of_ok (demandAgreement_of_eq rfl hsource.agrees))

theorem repeatConcurrent_of_standing (schedule : Nat → Nat) (times : Nat)
    (report : ExhaustiveReport) :
    repeatConcurrent (inMemory α) view budget source count fraction schedule times report () =
      .ok { report with concurrentRuns := report.concurrentRuns + times } () := by
  induction times generalizing report with
  | zero => rfl
  | succ times ih =>
      obtain ⟨accepted, hfirst⟩ := concurrent_of_standing hsource hstanding fraction
        (schedule report.concurrentRuns)
      rw [repeatConcurrent, bind_of_ok hfirst, ih, Nat.add_assoc, Nat.add_comm 1]

theorem checkAttempt_of_standing (fraction : Numeric.Binary64) (schedule : Nat → Nat)
    (report : ExhaustiveReport) :
    ∃ accepted, checkAttempt (inMemory α) view budget source schedule report (count, fraction) () =
        .ok (report.after [accepted]) () ∧
      (accepted = true → 3 ≤ values.length) := by
  cases hsplit : reader.split fraction with
  | mk residual next =>
      cases residual with
      | none =>
          obtain rfl := Reader.eq_of_split_eq_none hsplit
          have hcheck : checkSplit (inMemory α) view budget source count fraction .either () =
              .ok none () :=
            checkSplit_of_rejected hsource hstanding hsplit (by simp)
          exact ⟨false, bind_of_ok hcheck, by simp⟩
      | some rest =>
          have hallowed : ExpectedSplit.either ≠ .rejected := by simp
          obtain ⟨sizes, hcheck, hstarted, htogether, hunread, hgiven⟩ :=
            checkSplit_of_accepted hsource hstanding hsplit hallowed
          refine ⟨true, ?_, by omega⟩
          exact (bind_of_ok hcheck).trans
            (repeatConcurrent_of_standing hsource hstanding schedule _ _)

end

/-! ## The exhaustive check -/

theorem Readable.foldlM_checkAttempt (hsource : Readable view budget source values)
    (schedule : Nat → Nat) (tries : List (Nat × Numeric.Binary64)) (report : ExhaustiveReport) :
    ∃ outcomes, tries.foldlM (checkAttempt (inMemory α) view budget source schedule) report () =
        .ok (report.after outcomes) () ∧
      outcomes.length = tries.length ∧ (values.length ≤ 2 → true ∉ outcomes) := by
  induction tries generalizing report with
  | nil => exact ⟨[], rfl, rfl, by simp⟩
  | cons attempt tries ih =>
      obtain ⟨before, progress, reader, hstanding⟩ := hsource.exists_standing attempt.1
      obtain ⟨accepted, hfirst, hlong⟩ :=
        checkAttempt_of_standing hsource hstanding attempt.2 schedule report
      obtain ⟨outcomes, hrest, hlength, hshort⟩ := ih (report.after [accepted])
      refine ⟨accepted :: outcomes, ?_, congrArg (· + 1) hlength, ?_⟩
      · rw [List.foldlM_cons, report.after_cons]
        exact (bind_of_ok hfirst).trans hrest
      · intro hfew
        rw [List.mem_cons, not_or]
        refine ⟨?_, hshort hfew⟩
        rintro rfl
        have := hlong rfl
        omega

theorem Readable.checkAllSplits (hsource : Readable view budget source values)
    (schedule : Nat → Nat) :
    ∃ accepted, Contract.checkAllSplits (inMemory α) view budget source schedule () =
        .ok ⟨(values.length + 1) * (max values.length 1 * 4 + 1), accepted,
          concurrentRepetitions * accepted⟩ () ∧
      (values.length ≤ 2 → accepted = 0) := by
  obtain ⟨outcomes, hfold, hlength, hshort⟩ :=
    hsource.foldlM_checkAttempt schedule (attempts values.length) ⟨0, 0, 0⟩
  refine ⟨outcomes.count true, ?_, ?_⟩
  · rw [Contract.checkAllSplits, bind_of_ok hsource.readAll, hfold]
    simp only [ExhaustiveReport.after, hlength, length_attempts, Nat.zero_add]
  · intro hfew
    exact List.count_eq_zero.mpr (hshort hfew)

/-! ## Room in memory -/

theorem withRoom_of_hasRoom {β : Type} {check : Check Unit β} (h : view.hasRoom count = true) :
    withRoom (inMemory α) view budget source count check = check := by
  rw [withRoom, if_pos h]

theorem withRoom_of_not_hasRoom {β : Type} {check : Check Unit β}
    (hsource : Readable view budget source values) (h : view.hasRoom count = false) :
    withRoom (inMemory α) view budget source count check () = .error (.violation noRoom) () := by
  rw [withRoom, if_neg (by simp [h]), bind_of_ok hsource.readAll,
    bind_of_ok (perform_openSource source)]
  rfl

/-- All checks succeed on whatever comes from a root, as long as its elements decode and agree with
themselves. Its bundles of any size reproduce it. After any number of elements that memory has room
for a split at any fraction is consistent, alone or landing at any time while the source is read,
and its check fails only if the outcome is not the expected one; an accepted split leaves an unread
element to the reader and at least one to the residual. All splits of the grid together pass, none
of them being accepted where there are two elements at most. With more elements to read than memory
has room for, the checks of single splits always fail. -/
theorem memory_keeps_contract {root : Source α} (hroot : root.IsRoot)
    (hsource : root.Derived source) (hvalues : source.elements = values.map .ok)
    (hagrees : ∀ value ∈ values, view.agrees value value = true)
    (hbudget : source.size ≤ budget) :
    let model := inMemory α
    (∀ desiredBytes,
      checkParts model view budget source (source.bundles desiredBytes) () = .ok () ()) ∧
    (∀ count, view.hasRoom count = true →
      (∀ fraction calls, ∃ accepted,
        checkConcurrentSplitWithRoom model view budget source count fraction calls () =
          .ok accepted ()) ∧
      (∀ fraction expectation, ∃ before reader,
        model.readFirst count false (Reader.ofSource source, ()) = .ok before (reader, ()) ∧
        SplitVerdict source count fraction values.length expectation (reader.split fraction).1
          (checkSplitWithRoom model view budget source count fraction expectation ()))) ∧
    (∀ schedule, ∃ accepted, checkAllSplits model view budget source schedule () =
        .ok ⟨(values.length + 1) * (max values.length 1 * 4 + 1), accepted, 3 * accepted⟩ () ∧
      (values.length ≤ 2 → accepted = 0)) ∧
    (∀ count, view.hasRoom count = false →
      (∀ fraction calls,
        checkConcurrentSplitWithRoom model view budget source count fraction calls () =
          .error (.violation noRoom) ()) ∧
      ∀ fraction expectation,
        checkSplitWithRoom model view budget source count fraction expectation () =
          .error (.violation noRoom) ()) := by
  intro model
  have hreadable : Readable view budget source values :=
    ⟨hsource.valid hroot.valid, hvalues, hagrees, hbudget⟩
  refine ⟨hreadable.checkParts_bundles, ?_, hreadable.checkAllSplits, ?_⟩
  · intro count hroom
    obtain ⟨before, progress, reader, hstanding⟩ := hreadable.exists_standing count
    constructor
    · intro fraction calls
      rw [checkConcurrentSplitWithRoom, withRoom_of_hasRoom hroom]
      exact concurrent_of_standing hreadable hstanding fraction calls
    · intro fraction expectation
      rw [checkSplitWithRoom, withRoom_of_hasRoom hroom]
      exact ⟨before, reader, hstanding.first,
        verdict_of_standing hreadable hstanding fraction expectation⟩
  · intro count hroom
    constructor
    · intro fraction calls
      exact withRoom_of_not_hasRoom hreadable hroom
    · intro fraction expectation
      exact withRoom_of_not_hasRoom hreadable hroom

/-- Four numbers: all that has room passes, and `2 ^ 61` numbers have none. -/
theorem memory_keeps_contract_fourNumbers :
    let model := inMemory Int32
    let view : ElementView Int32 := ElementView.ofType .int32
    let source := Source.fourNumbers
    checkParts model view 4 source (source.bundles 8) () = .ok () () ∧
      (∀ fraction calls, ∃ accepted,
        checkConcurrentSplitWithRoom model view 4 source 7 fraction calls () = .ok accepted ()) ∧
      (∃ accepted, checkAllSplits model view 4 source (fun _ => 1) () =
        .ok ⟨85, accepted, 3 * accepted⟩ ()) ∧
      checkSplitWithRoom model view 4 source (Nat.pow 2 61) (.ofQuotient false 1 2) .either () =
        .error (.violation noRoom) () := by
  intro model view source
  have hagrees : ∀ value ∈ ([1, 2, 3, 4] : List Int32), view.agrees value value = true := by
    intro value _
    exact beq_self_eq_true value
  obtain ⟨hparts, hsplits, hall, hroomless⟩ := memory_keeps_contract (.ofBuffer _) .root
    Source.elements_fourNumbers hagrees (Nat.le_refl 4)
  obtain ⟨accepted, hsuccess, -⟩ := hall fun _ => 1
  exact ⟨hparts 8, (hsplits 7 (by decide)).1, ⟨accepted, hsuccess⟩,
    (hroomless (Nat.pow 2 61) (by decide)).2 _ _⟩

end Contract

end BundledReading

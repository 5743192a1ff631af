import BundledReading.Proofs.Contract.Readings
import BundledReading.Proofs.Elements

/-!
# Soundness of the contract checks

A check that succeeds has seen what it promises, of whatever source it was made: nothing is assumed
of the model but its answers. The check of parts succeeds exactly if the parts read like the
reference. A split that passes its check was made between two readings that agree with a reading
of the whole source, and an exhaustive check that succeeds has seen this after every number of
elements and at every fraction of the grid.
-/

namespace BundledReading.Contract

variable {σ S R α β : Type}

namespace ElementView

/-- Whether the view's agreement can be passed on. -/
def Transitive (view : ElementView α) : Prop :=
  ∀ a b c, view.agrees a b = true → view.agrees b c = true → view.agrees a c = true

variable {view : ElementView α}

theorem listAgrees_append_of_agrees (h : view.Transitive) {items primary rest expected : List α}
    (hitems : view.listAgrees items primary = true)
    (hexpected : view.listAgrees (primary ++ rest) expected = true) :
    view.listAgrees (items ++ rest) expected = true := by
  induction items generalizing primary expected with
  | nil =>
      cases primary with
      | nil => exact hexpected
      | cons value primary => simp [listAgrees] at hitems
  | cons item items ih =>
      cases primary with
      | nil => simp [listAgrees] at hitems
      | cons value primary =>
          cases expected with
          | nil => simp [listAgrees] at hexpected
          | cons other expected =>
              simp only [listAgrees, List.cons_append, Bool.and_eq_true] at hitems hexpected ⊢
              exact ⟨h _ _ _ hitems.1 hexpected.1, ih hitems.2 hexpected.2⟩

end ElementView

variable (model : SourceModel σ S R α) (view : ElementView α)

/-! ## What the checks promise -/

/-- Parts are read after a reference. All are visited with the coder of the reference, and what the
parts yield together agrees with what it yields. -/
def PartsHold (reference : S) (parts : List S) (state last : σ) : Prop :=
  ∃ coder expected visits,
    InOrder (Visits model) (reference :: parts) state ((coder, expected) :: visits) last ∧
    (∀ visit ∈ visits, visit.1 = coder) ∧
    view.listAgrees (visits.flatMap Prod.snd) expected = true

/-- Opens a source, reads so many elements, splits, and reads on. -/
def ReadsAround (source : S) (count : Nat) (fraction : Numeric.Binary64) (state : σ)
    (before : List α) (residual : Option S) (after : List α) (last : R × σ) : Prop :=
  ∃ reader opened stood next, model.openSource source state = .ok reader opened ∧
    ReadsFirst model count false (reader, opened) before stood ∧
    model.split fraction stood = (residual, next) ∧
    ReadsRest model (0 < count) next after last

/-- A split was rejected and left the reader as it was, or it was accepted and divided what the
reader reads. The outcome was not the one that is excluded. -/
inductive SplitHolds (source : S) (count : Nat) (fraction : Numeric.Binary64)
    (expectation : ExpectedSplit) (state : σ) : Option SplitSizes → σ → Prop
  | rejected {expected opened before after reader last}
      (whole : ReadsAll model source state expected opened)
      (around : ReadsAround model source count fraction opened before none after (reader, last))
      (allowed : expectation ≠ .accepted)
      (unchanged : view.listAgrees (before ++ after) expected = true) :
      SplitHolds source count fraction expectation state none last
  | accepted {expected opened before rest after stood current reader asked primaryItems middle
        residualItems last}
      (whole : ReadsAll model source state expected opened)
      (around : ReadsAround model source count fraction opened before (some rest) after stood)
      (allowed : expectation ≠ .rejected)
      (primary : model.currentSource stood = (current, reader, asked))
      (primaryRead : ReadsAll model current asked primaryItems middle)
      (residualRead : ReadsAll model rest middle residualItems last)
      (delivered : view.listAgrees (before ++ after) primaryItems = true)
      (partitioned : view.listAgrees (primaryItems ++ residualItems) expected = true)
      (reassembled : view.Transitive →
        view.listAgrees (before ++ after ++ residualItems) expected = true) :
      SplitHolds source count fraction expectation state
        (some ⟨primaryItems.length, residualItems.length⟩) last

/-- A split landed at some time while a source was read, and nothing was lost or read twice. -/
inductive RaceHolds (source : S) (count : Nat) (fraction : Numeric.Binary64) (state : σ) :
    Bool → σ → Prop
  | rejected {expected read reader opened before stood after final last}
      (whole : ReadsAll model source state expected read)
      (opens : model.openSource source read = .ok reader opened)
      (first : ReadsFirst model count false (reader, opened) before stood)
      (races : Races model fraction (0 < count) stood after none (final, last))
      (complete : view.listAgrees (before ++ after) expected = true) :
      RaceHolds source count fraction state false last
  | accepted {expected read reader opened before stood after rest final left residualItems last}
      (whole : ReadsAll model source state expected read)
      (opens : model.openSource source read = .ok reader opened)
      (first : ReadsFirst model count false (reader, opened) before stood)
      (races : Races model fraction (0 < count) stood after (some rest) (final, left))
      (residualRead : ReadsAll model rest left residualItems last)
      (complete : view.listAgrees (before ++ after ++ residualItems) expected = true) :
      RaceHolds source count fraction state true last

/-- One attempt of the exhaustive check: a split, which if it is accepted is repeated while the
source is read. Says whether it was accepted. -/
inductive AttemptHolds (source : S) (attempt : Nat × Numeric.Binary64) (state : σ) :
    Bool → σ → Prop
  | rejected {last}
      (split : SplitHolds model view source attempt.1 attempt.2 .either state none last) :
      AttemptHolds source attempt state false last
  | accepted {sizes middle races last}
      (split : SplitHolds model view source attempt.1 attempt.2 .either state (some sizes) middle)
      (repeated : InOrder (fun _ : Unit => RaceHolds model view source attempt.1 attempt.2)
        (List.replicate concurrentRepetitions ()) middle races last) :
      AttemptHolds source attempt state true last

variable {model view} {budget : Nat} {state last : σ}

/-! ## The check of parts -/

/-- A test at the start of a check that succeeds was passed. -/
theorem guard_eq_ok_iff {condition : Prop} [Decidable condition] {message : String}
    {next : Check σ β} {result : β} :
    (do if condition then violated message
        next) state = .ok result last ↔ ¬ condition ∧ next state = .ok result last := by
  by_cases h : condition
  · simp only [h, if_true, bind_eq_ok_iff, violated_ne_ok, false_and, exists_false, not_true]
  · simp only [h, if_false, not_false_eq_true, true_and]

theorem readParts_eq_ok_iff {coder index : Nat} {parts : List S} {values : List α} :
    readParts model budget coder index parts state = .ok values last ↔
      ∃ visits, InOrder (Visits model) parts state visits last ∧
        (∀ visit ∈ visits, visit.1 = coder ∧ visit.2.length ≤ budget) ∧
        visits.flatMap Prod.snd = values := by
  induction parts generalizing index state values with
  | nil =>
      rw [readParts, pure_eq_ok_iff]
      constructor
      · rintro ⟨rfl, rfl⟩
        exact ⟨[], .nil, by simp, rfl⟩
      · rintro ⟨_, ⟨⟩, -, rfl⟩
        exact ⟨rfl, rfl⟩
  | cons part parts ih =>
      simp only [readParts, bind_eq_ok_iff, perform_eq_ok_iff, guard_eq_ok_iff,
        readAll_eq_ok_iff, pure_eq_ok_iff, ne_eq, Decidable.not_not]
      constructor
      · rintro ⟨found, asked, hcoder, hsame, items, read, ⟨hread, hlength⟩, more, final, hrest, rfl,
          rfl⟩
        obtain ⟨visits, hvisits, hall, rfl⟩ := ih.mp hrest
        refine ⟨(found, items) :: visits, .cons ⟨asked, hcoder, hread⟩ hvisits, ?_, rfl⟩
        exact List.forall_mem_cons.mpr ⟨⟨hsame, hlength⟩, hall⟩
      · rintro ⟨_, hvisits, hall, rfl⟩
        cases hvisits with
        | @cons _ _ _ visit read visits _ first rest =>
            obtain ⟨asked, hcoder, hread⟩ := first
            obtain ⟨⟨hsame, hlength⟩, hall⟩ := List.forall_mem_cons.mp hall
            exact ⟨visit.1, asked, hcoder, hsame, visit.2, read, ⟨hread, hlength⟩,
              visits.flatMap Prod.snd, last, ih.mpr ⟨visits, rest, hall, rfl⟩, rfl, rfl⟩

theorem checkParts_eq_ok_iff {reference : S} {parts : List S} :
    checkParts model view budget reference parts state = .ok () last ↔
      parts ≠ [] ∧ ∃ coder expected visits,
        InOrder (Visits model) (reference :: parts) state ((coder, expected) :: visits) last ∧
        (∀ visit ∈ visits, visit.1 = coder) ∧
        view.listAgrees (visits.flatMap Prod.snd) expected = true ∧
        (∀ visit ∈ (coder, expected) :: visits, visit.2.length ≤ budget) := by
  simp only [checkParts, guard_eq_ok_iff, bind_eq_ok_iff, perform_eq_ok_iff, readAll_eq_ok_iff,
    readParts_eq_ok_iff, demandAgreement_eq_ok_iff, List.isEmpty_iff]
  constructor
  · rintro ⟨hparts, coder, asked, hcoder, expected, read, ⟨hread, hlength⟩, actual, final,
      ⟨visits, hvisits, hall, rfl⟩, hagrees, rfl⟩
    refine ⟨hparts, coder, expected, visits, .cons ⟨asked, hcoder, hread⟩ hvisits,
      fun visit h => (hall visit h).1, hagrees, ?_⟩
    exact List.forall_mem_cons.mpr ⟨hlength, fun visit h => (hall visit h).2⟩
  · rintro ⟨hparts, coder, expected, visits, hvisits, hsame, hagrees, hlengths⟩
    cases hvisits with
    | @cons _ _ _ _ read _ _ first rest =>
        obtain ⟨asked, hcoder, hread⟩ := first
        obtain ⟨hlength, hlengths⟩ := List.forall_mem_cons.mp hlengths
        exact ⟨hparts, coder, asked, hcoder, expected, read, ⟨hread, hlength⟩, _, last,
          ⟨visits, rest, fun visit h => ⟨hsame visit h, hlengths visit h⟩, rfl⟩, hagrees, rfl⟩

/-- The check of parts succeeds for some budget exactly if the parts read like the reference. -/
theorem exists_checkParts_eq_ok_iff {reference : S} {parts : List S} :
    (∃ budget, checkParts model view budget reference parts state = .ok () last) ↔
      parts ≠ [] ∧ PartsHold model view reference parts state last := by
  simp only [checkParts_eq_ok_iff]
  constructor
  · rintro ⟨_, hparts, coder, expected, visits, hvisits, hsame, hagrees, -⟩
    exact ⟨hparts, coder, expected, visits, hvisits, hsame, hagrees⟩
  -- The number of all elements together is a budget that no single reading exceeds.
  · rintro ⟨hparts, coder, expected, visits, hvisits, hsame, hagrees⟩
    refine ⟨(((coder, expected) :: visits).map Prod.snd).flatten.length, hparts, coder, expected,
      visits, hvisits, hsame, hagrees, ?_⟩
    intro visit hvisit
    exact (List.sublist_flatten_of_mem (List.mem_map_of_mem hvisit)).length_le

/-! ## The checks of splits -/

variable {source : S} {count : Nat} {fraction : Numeric.Binary64} {expectation : ExpectedSplit}

theorem withRoom_eq_ok_iff {check : Check σ β} {result : β} :
    withRoom model view budget source count check state = .ok result last ↔
      view.hasRoom count = true ∧ check state = .ok result last := by
  rw [withRoom]
  split
  next h => simp [h]
  next h => simp [h, bind_eq_ok_iff, violated_ne_ok]

theorem checkSplit_eq_ok {outcome : Option SplitSizes}
    (h : checkSplit model view budget source count fraction expectation state =
      .ok outcome last) :
    SplitHolds model view source count fraction expectation state outcome last := by
  simp only [checkSplit, bind_eq_ok_iff, perform_eq_ok_iff, always_eq_ok_iff, readAll_eq_ok_iff,
    withReader_eq_ok_iff] at h
  obtain ⟨expected, opened, ⟨hwhole, -⟩, reader, shared, hopen, ⟨⟨items, parts⟩, kept⟩, left,
    ⟨before, stood, hfirst, residual, next, hsplit, hreads⟩, h⟩ := h
  have hbefore := readFirst_eq_ok hfirst
  -- What was not expected ends the check before the reader goes on.
  cases residual with
  | none =>
      cases expectation with
      | accepted => simp only [bind_eq_ok_iff, violated_ne_ok, false_and, exists_false] at hreads
      | rejected | either =>
          simp only [bind_eq_ok_iff, readRest_eq_ok_iff, pure_eq_ok_iff] at hreads
          obtain ⟨after, _, ⟨hafter, -⟩, _, _, ⟨rfl, rfl⟩, ⟨⟩, ⟨⟩⟩ := hreads
          simp only [bind_eq_ok_iff, demandAgreement_eq_ok_iff, pure_eq_ok_iff] at h
          obtain ⟨_, _, ⟨hagrees, rfl⟩, rfl, rfl⟩ := h
          exact .rejected hwhole ⟨reader, shared, stood, next, hopen, hbefore, hsplit, hafter⟩
            (by simp) hagrees
  | some rest =>
      cases expectation with
      | rejected => simp only [bind_eq_ok_iff, violated_ne_ok, false_and, exists_false] at hreads
      | accepted | either =>
          simp only [bind_eq_ok_iff, readRest_eq_ok_iff, map_eq_pure_bind, always_eq_ok_iff,
            pure_eq_ok_iff] at hreads
          obtain ⟨after, ended, ⟨hafter, -⟩, _, _, ⟨current, _, hcurrent, rfl, rfl⟩, ⟨⟩,
            ⟨⟩⟩ := hreads
          simp only [bind_eq_ok_iff, readAll_eq_ok_iff, demandAgreement_eq_ok_iff,
            pure_eq_ok_iff] at h
          obtain ⟨primaryItems, middle, ⟨hprimary, -⟩, residualItems, _, ⟨hresidual, -⟩, _, _,
            ⟨hdelivered, rfl⟩, _, _, ⟨hpartitioned, rfl⟩, rfl, rfl⟩ := h
          exact .accepted hwhole ⟨reader, shared, stood, next, hopen, hbefore, hsplit, hafter⟩
            (by simp) hcurrent hprimary hresidual hdelivered hpartitioned fun htrans =>
              ElementView.listAgrees_append_of_agrees htrans hdelivered hpartitioned

theorem checkConcurrentSplit_eq_ok {calls : Nat} {accepted : Bool}
    (h : checkConcurrentSplit model view budget source count fraction calls state =
      .ok accepted last) :
    RaceHolds model view source count fraction state accepted last := by
  simp only [checkConcurrentSplit, bind_eq_ok_iff, perform_eq_ok_iff, readAll_eq_ok_iff,
    withReader_eq_ok_iff, pure_eq_ok_iff] at h
  obtain ⟨expected, opened, ⟨hwhole, -⟩, reader, shared, hopen, ⟨_, kept⟩, left,
    ⟨before, stood, hfirst, ⟨after, residual⟩, _, hraces, ⟨⟩, ⟨⟩⟩, h⟩ := h
  have hbefore := readFirst_eq_ok hfirst
  have hafter := readRacing_eq_ok hraces
  cases residual with
  | none =>
      simp only [bind_eq_ok_iff, demandAgreement_eq_ok_iff, pure_eq_ok_iff] at h
      obtain ⟨_, _, ⟨rfl, rfl⟩, _, _, ⟨hcomplete, rfl⟩, rfl, rfl⟩ := h
      rw [List.append_nil] at hcomplete
      exact .rejected hwhole hopen hbefore hafter hcomplete
  | some rest =>
      simp only [bind_eq_ok_iff, readAll_eq_ok_iff, demandAgreement_eq_ok_iff,
        pure_eq_ok_iff] at h
      obtain ⟨residualItems, _, ⟨hresidual, -⟩, _, _, ⟨hcomplete, rfl⟩, rfl, rfl⟩ := h
      exact .accepted hwhole hopen hbefore hafter hresidual hcomplete

/-! ## The exhaustive check -/

variable {schedule : Nat → Nat} {report result : ExhaustiveReport}

theorem repeatConcurrent_eq_ok {times : Nat}
    (h : repeatConcurrent model view budget source count fraction schedule times report state =
      .ok result last) :
    (∃ races, InOrder (fun _ : Unit => RaceHolds model view source count fraction)
        (List.replicate times ()) state races last) ∧
      result = { report with concurrentRuns := report.concurrentRuns + times } := by
  induction times generalizing state report with
  | zero =>
      obtain ⟨rfl, rfl⟩ := pure_eq_ok_iff.mp h
      exact ⟨⟨[], .nil⟩, rfl⟩
  | succ times ih =>
      simp only [repeatConcurrent, bind_eq_ok_iff] at h
      obtain ⟨accepted, middle, hfirst, hrest⟩ := h
      obtain ⟨⟨races, hraces⟩, rfl⟩ := ih hrest
      constructor
      · exact ⟨accepted :: races, .cons (checkConcurrentSplit_eq_ok hfirst) hraces⟩
      · simp only [ExhaustiveReport.mk.injEq, true_and]
        omega

/-- The report after attempts with such outcomes. -/
def ExhaustiveReport.after (report : ExhaustiveReport) (outcomes : List Bool) :
    ExhaustiveReport where
  attempts := report.attempts + outcomes.length
  accepted := report.accepted + outcomes.count true
  concurrentRuns := report.concurrentRuns + concurrentRepetitions * outcomes.count true

theorem ExhaustiveReport.after_cons (report : ExhaustiveReport) (accepted : Bool)
    (outcomes : List Bool) :
    report.after (accepted :: outcomes) = (report.after [accepted]).after outcomes := by
  cases accepted with
  | false =>
      simp [after]
      omega
  | true =>
      simp [after, Nat.mul_succ]
      omega

theorem checkAttempt_eq_ok {attempt : Nat × Numeric.Binary64}
    (h : checkAttempt model view budget source schedule report attempt state = .ok result last) :
    ∃ accepted, AttemptHolds model view source attempt state accepted last ∧
      result = report.after [accepted] := by
  simp only [checkAttempt, bind_eq_ok_iff] at h
  obtain ⟨outcome, middle, hsplit, h⟩ := h
  have hholds := checkSplit_eq_ok hsplit
  cases outcome with
  | none =>
      obtain ⟨rfl, rfl⟩ := pure_eq_ok_iff.mp h
      exact ⟨false, .rejected hholds, rfl⟩
  | some sizes =>
      obtain ⟨⟨races, hraces⟩, rfl⟩ := repeatConcurrent_eq_ok h
      exact ⟨true, .accepted hholds hraces, rfl⟩

theorem foldlM_checkAttempt_eq_ok {tries : List (Nat × Numeric.Binary64)}
    (h : tries.foldlM (checkAttempt model view budget source schedule) report state =
      .ok result last) :
    ∃ outcomes, InOrder (AttemptHolds model view source) tries state outcomes last ∧
      result = report.after outcomes := by
  induction tries generalizing state report with
  | nil =>
      obtain ⟨rfl, rfl⟩ := pure_eq_ok_iff.mp h
      exact ⟨[], .nil, rfl⟩
  | cons attempt tries ih =>
      rw [List.foldlM_cons, bind_eq_ok_iff] at h
      obtain ⟨next, middle, hfirst, hrest⟩ := h
      obtain ⟨accepted, hattempt, rfl⟩ := checkAttempt_eq_ok hfirst
      obtain ⟨outcomes, houtcomes, rfl⟩ := ih hrest
      exact ⟨accepted :: outcomes, .cons hattempt houtcomes, (report.after_cons _ _).symm⟩

theorem checkAllSplits_eq_ok
    (h : checkAllSplits model view budget source schedule state = .ok result last) :
    ∃ items opened outcomes, ReadsAll model source state items opened ∧
      InOrder (AttemptHolds model view source) (attempts items.length) opened outcomes last ∧
      result = ExhaustiveReport.after ⟨0, 0, 0⟩ outcomes := by
  simp only [checkAllSplits, bind_eq_ok_iff, readAll_eq_ok_iff] at h
  obtain ⟨items, opened, ⟨hread, -⟩, hattempts⟩ := h
  obtain ⟨outcomes, houtcomes, hresult⟩ := foldlM_checkAttempt_eq_ok hattempts
  exact ⟨items, opened, outcomes, hread, houtcomes, hresult⟩

theorem mem_attempts_iff {total count : Nat} {fraction : Numeric.Binary64} :
    (count, fraction) ∈ attempts total ↔ count ≤ total ∧ fraction ∈ fractionGrid total := by
  simp only [attempts, List.mem_flatMap, List.mem_map, List.mem_range, Nat.lt_succ_iff,
    Prod.mk.injEq]
  constructor
  · rintro ⟨_, hcount, _, hfraction, rfl, rfl⟩
    exact ⟨hcount, hfraction⟩
  · rintro ⟨hcount, hfraction⟩
    exact ⟨count, hcount, fraction, hfraction, rfl, rfl⟩

theorem length_attempts (total : Nat) :
    (attempts total).length = (total + 1) * (max total 1 * 4 + 1) := by
  have hgrid : (fractionGrid total).length = max total 1 * 4 + 1 := by simp [fractionGrid]
  rw [attempts, List.length_flatMap]
  simp only [List.length_map, hgrid, List.map_const', List.length_range, List.sum_replicate_nat]

theorem AttemptHolds.split_holds {attempt : Nat × Numeric.Binary64} {accepted : Bool}
    (h : AttemptHolds model view source attempt state accepted last) :
    ∃ outcome middle,
      SplitHolds model view source attempt.1 attempt.2 .either state outcome middle ∧
        accepted = outcome.isSome := by
  cases h with
  | rejected split => exact ⟨none, last, split, rfl⟩
  | accepted split _ => exact ⟨_, _, split, rfl⟩

/-- Whatever source a check is made of, it is sound. The check of parts succeeds for some budget
exactly if there are parts, every one of them is read with the coder of the reference, and together
they yield what the reference yields. A split that passes its check was rejected and changed
nothing, or was accepted and divided what the reader reads, and the outcome was not the excluded
one. An exhaustive check that succeeds has tried every fraction of the grid after every number of
elements, and every one of these splits passed. -/
theorem checks_are_sound (model : SourceModel σ S R α) (view : ElementView α) :
    (∀ reference parts state last,
      (∃ budget, checkParts model view budget reference parts state = .ok () last) ↔
        parts ≠ [] ∧ PartsHold model view reference parts state last) ∧
    (∀ budget source count fraction expectation state outcome last,
      checkSplitWithRoom model view budget source count fraction expectation state =
          .ok outcome last →
        SplitHolds model view source count fraction expectation state outcome last) ∧
    (∀ budget source schedule state report last,
      checkAllSplits model view budget source schedule state = .ok report last →
        ∃ items opened outcomes, ReadsAll model source state items opened ∧
          InOrder (AttemptHolds model view source) (attempts items.length) opened outcomes last ∧
          report = ⟨(items.length + 1) * (max items.length 1 * 4 + 1), outcomes.count true,
            concurrentRepetitions * outcomes.count true⟩ ∧
          ∀ count ≤ items.length, ∀ fraction ∈ fractionGrid items.length,
            ∃ before outcome after,
              SplitHolds model view source count fraction .either before outcome after) := by
  refine ⟨?_, ?_, ?_⟩
  · intro reference parts state last
    exact exists_checkParts_eq_ok_iff
  · intro budget source count fraction expectation state outcome last h
    exact checkSplit_eq_ok (withRoom_eq_ok_iff.mp h).2
  · intro budget source schedule state report last h
    obtain ⟨items, opened, outcomes, hread, houtcomes, rfl⟩ := checkAllSplits_eq_ok h
    refine ⟨items, opened, outcomes, hread, houtcomes, ?_, ?_⟩
    · simp only [ExhaustiveReport.after, houtcomes.length_eq, length_attempts, Nat.zero_add]
    · intro count hcount fraction hfraction
      obtain ⟨before, accepted, after, hattempt⟩ :=
        houtcomes.exists_of_mem (mem_attempts_iff.mpr ⟨hcount, hfraction⟩)
      obtain ⟨outcome, middle, hsplit, -⟩ := hattempt.split_holds
      exact ⟨before, outcome, middle, hsplit⟩

/-- Four numbers, split in the middle after the first and after the third, and three of them, split
everywhere. -/
theorem checks_are_sound_fourNumbers :
    let model := inMemory Int32
    let view := ElementView.ofType .int32
    let source := Source.fourNumbers
    SplitHolds model view source 1 (.ofQuotient false 1 2) .accepted () (some ⟨2, 2⟩) () ∧
      SplitHolds model view source 3 (.ofQuotient false 1 2) .rejected () none () ∧
      ∃ items opened outcomes, ReadsAll model (source.withRange 0 3) () items opened ∧
        InOrder (AttemptHolds model view (source.withRange 0 3)) (attempts items.length) opened
          outcomes () ∧
        outcomes.count true = 4 := by
  intro model view source
  obtain ⟨-, hsplits, hall⟩ := checks_are_sound model view
  have haccepted : checkSplitWithRoom model view 4 source 1 (.ofQuotient false 1 2) .accepted () =
      .ok (some ⟨2, 2⟩) () := by decide +kernel
  have hrejected : checkSplitWithRoom model view 4 source 3 (.ofQuotient false 1 2) .rejected () =
      .ok none () := by decide +kernel
  have hsuccess : checkAllSplits model view 3 (source.withRange 0 3) (fun _ => 0) () =
      .ok ⟨52, 4, 12⟩ () := by decide +kernel
  obtain ⟨items, opened, outcomes, hread, houtcomes, hreport, -⟩ := hall _ _ _ _ _ _ hsuccess
  have hcount : 4 = outcomes.count true := congrArg ExhaustiveReport.accepted hreport
  exact ⟨hsplits _ _ _ _ _ _ _ _ haccepted, hsplits _ _ _ _ _ _ _ _ hrejected,
    items, opened, outcomes, hread, houtcomes, hcount.symm⟩

end BundledReading.Contract

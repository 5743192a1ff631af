import BundledReading.Proofs.Executor.Refinement

/-!
# Runs without dynamic splits

A tick splits a reader only while a permit is free, and only at a fraction between zero and one.
With one permit in all, a permit is free only when every launched task has given its own back, so
all that such a tick finds are tasks that have ended and wait to be joined. Those that have read
everything leave nothing to split off. One that has failed may well be split, but its run cannot
return a report any more (`State.Doomed`). So a run that returns a report has made no split, and its
bundles are the static ones.
-/

namespace BundledReading.Executor

variable {α : Type} {options : Options} {crashes : Bytes → Bool} {source : Source α}
  {state : State α} {report : Report α}

/-! ## Runs that cannot return a report -/

/-- An outcome that ends the run when it is joined. -/
def Outcome.IsFailure : Outcome α → Prop
  | .read _ _ => False
  | .failed _ => True
  | .crashed => True

/-- A phase from which a task can only be joined as a failure. -/
def Phase.Fails : Phase α → Prop
  | .ended outcome => outcome.IsFailure
  | .released outcome => outcome.IsFailure
  | _ => False

/-- A run that has failed, or has a task that has. -/
def State.Doomed (state : State α) : Prop :=
  state.Failed ∨ ∃ task ∈ state.active, task.phase.Fails

/-- A task that has failed does not recover. -/
theorem Phase.Fails.work {task : Task α} (h : task.phase.Fails) (crashes : Bytes → Bool)
    (abort : Bool) : (task.work crashes abort).phase.Fails := by
  obtain ⟨id, dynamic, reader, readBack, phase⟩ := task
  cases phase with
  | ended outcome => exact h
  | released outcome => exact h
  | _ => exact absurd h not_false

/-- Joining a failure fails the run. -/
theorem failed_receive {task : Task α} {outcome : Outcome α} (h : outcome.IsFailure) :
    (state.receive task outcome).Failed := by
  cases outcome with
  | read final values => exact absurd h not_false
  | failed cause => exact ⟨_, rfl⟩
  | crashed => exact ⟨_, rfl⟩

/-- A failed task is still among the tasks when one of them has taken a step. -/
theorem exists_fails_of_replaced {task other moved : Task α} {before after : List (Task α)}
    (hmoved : other.phase.Fails → moved.phase.Fails) (htask : task ∈ before ++ other :: after)
    (hfails : task.phase.Fails) : ∃ task ∈ before ++ moved :: after, task.phase.Fails := by
  rcases List.mem_cons.mp (List.perm_middle.mem_iff.mp htask) with rfl | hothers
  · exact ⟨moved, List.perm_middle.mem_iff.mpr List.mem_cons_self, hmoved hfails⟩
  · exact ⟨task, List.perm_middle.mem_iff.mpr (List.mem_cons_of_mem _ hothers), hfails⟩

/-- A task that has failed stays until it is joined, and joining it fails the run. -/
theorem Transition.doomed {next : State α} (h : Transition options crashes state next)
    {task : Task α} (htask : task ∈ state.active) (hfails : task.phase.Fails) : next.Doomed := by
  cases h with
  | idle => exact .inr ⟨task, htask, hfails⟩
  | launch bundle queue hcontrol hqueue hpermit =>
      exact .inr ⟨task, List.mem_append_left _ htask, hfails⟩
  | complete hcontrol hstuck hactive => simp [hactive] at htask
  | wait hcontrol hactive => exact .inr ⟨task, htask, hfails⟩
  | work before after other hactive =>
      rw [hactive] at htask
      exact .inr (exists_fails_of_replaced (fun hother => hother.work _ _) htask hfails)
  | receive before after other outcome hcontrol hactive hphase hremove =>
      rw [hactive] at htask
      rcases List.mem_cons.mp (List.perm_middle.mem_iff.mp htask) with rfl | hothers
      · rw [hphase] at hfails
        exact .inl (failed_receive hfails)
      · exact .inr ⟨task, by rwa [State.receive_active, hremove], hfails⟩
  | pass hcontrol => exact .inr ⟨task, htask, hfails⟩
  | rebalance before after other reader residual consumed hcontrol hactive hqueue hpermit
      hcandidate hsplit =>
      rw [hactive] at htask
      have hsame : other.phase.Fails → other.phase.Fails := id
      exact .inr (exists_fails_of_replaced hsame htask hfails)

theorem State.Doomed.step (h : state.Doomed) (hnumbered : state.Numbered) (event : RunEvent) :
    (state.step options crashes event).Doomed := by
  rcases h with hfailed | ⟨task, htask, hfails⟩
  · exact .inl (hfailed.step event)
  · exact (transition_step hnumbered event).doomed htask hfails

/-! ## Splits -/

/-- There is one permit at most, or no split is made at the fraction of the options. -/
def Static (options : Options) : Prop :=
  options.maxParallelism.toNat ≤ 1 ∨
    ¬ ((Numeric.Binary64.zero false).lt options.splitFraction = true ∧
      options.splitFraction.lt (Numeric.Binary64.ofNat 1) = true)

/-- With one permit in all, tasks have given theirs back when it is free. -/
theorem released_of_permits_pos (hone : options.maxParallelism.toNat ≤ 1)
    (htotal : state.permitTotal = options.parallelism) (hpermit : 0 < state.permits)
    {task : Task α} (htask : task ∈ state.active) : ∃ outcome, task.phase = .released outcome := by
  have hholders : state.active.countP Task.holdsPermit = 0 := by
    simp only [State.permitTotal, Options.parallelism, Nat.max_eq_right hone] at htotal
    omega
  have hholds := List.countP_eq_zero.mp hholders task htask
  unfold Task.holdsPermit at hholds
  split at hholds
  next outcome hphase => exact ⟨outcome, hphase⟩
  · exact absurd rfl hholds

/-- A split that such options allow is one of a task that has failed. -/
theorem fails_of_split (hstatic : Static options)
    (htotal : state.permitTotal = options.parallelism) (hpermit : 0 < state.permits)
    {task : Task α} (htask : task ∈ state.active) (hsettled : task.Settled) {reader : Reader α}
    {residual : Source α}
    (hsplit : task.reader.split options.splitFraction = (some residual, reader)) :
    task.phase.Fails := by
  rcases hstatic with hone | hfraction
  · obtain ⟨outcome, hphase⟩ := released_of_permits_pos hone htotal hpermit htask
    rw [hphase]
    cases outcome with
    | read final values =>
        have hdone := hsettled.phase_settled
        rw [hphase] at hdone
        rw [Reader.split_of_done hdone.1] at hsplit
        simp at hsplit
    | failed cause => trivial
    | crashed => trivial
  · have hallowed := Reader.isSplitFraction_of_split hsplit
    exact absurd (by simpa [ReadRange.isSplitFraction] using hallowed) hfraction

/-- Such options let an event split no reader but that of a task that has failed. -/
theorem Transition.splits_eq_or_doomed {next : State α}
    (h : Transition options crashes state next) (hstatic : Static options)
    (htotal : state.permitTotal = options.parallelism)
    (hsettled : ∀ task ∈ state.active, task.Settled) :
    next.dynamicSplits = state.dynamicSplits ∨ state.Doomed := by
  cases h with
  | receive before after task outcome hcontrol hactive hphase hremove => exact .inl (by simp)
  | rebalance before after task reader residual consumed hcontrol hactive hqueue hpermit
      hcandidate hsplit =>
      have htask : task ∈ state.active := by simp [hactive]
      exact .inr (.inr ⟨task, htask,
        fails_of_split hstatic htotal hpermit htask (hsettled task htask) hsplit⟩)
  | _ => exact .inl rfl

/-- As long as a run is not doomed, it has made no split. -/
theorem splits_eq_zero_or_doomed (hstatic : Static options) (hvalid : source.Valid)
    (events : List RunEvent) :
    ((State.begin options source).run options crashes events).dynamicSplits = 0 ∨
      ((State.begin options source).run options crashes events).Doomed := by
  have hstep : ∀ (state : State α) event, state.Numbered →
      (∃ lost, state.Coherent options source lost) ∧
        (state.dynamicSplits = 0 ∨ state.Doomed) →
      (∃ lost, (state.step options crashes event).Coherent options source lost) ∧
        ((state.step options crashes event).dynamicSplits = 0 ∨
          (state.step options crashes event).Doomed) := by
    rintro state event hnumbered ⟨⟨lost, hcoherent⟩, hsplits⟩
    refine ⟨hcoherent.step hnumbered event, ?_⟩
    rcases hsplits with hzero | hdoomed
    · rcases (transition_step hnumbered event).splits_eq_or_doomed hstatic hcoherent.permits_eq
        hcoherent.tasks_settled with heq | hdoomed
      · exact .inl (heq.trans hzero)
      · exact .inr (hdoomed.step hnumbered event)
    · exact .inr (hdoomed.step hnumbered event)
  exact (State.run_induction hstep (State.numbered_begin options source)
    ⟨⟨[], State.Coherent.begin options hvalid⟩, .inl rfl⟩ events).2

/-- A run that returns a report is not doomed. -/
theorem State.Coherent.not_doomed {lost : List Share} (h : state.Coherent options source lost)
    (hresult : state.result? = some (.ok report)) : ¬ state.Doomed := by
  rintro (⟨error, herror⟩ | ⟨task, htask, -⟩)
  · rw [hresult] at herror
    simp at herror
  · rw [(h.complete report hresult).2.1] at htask
    simp at htask

/-! ## Reports -/

/-- The ranges of a report's bundles, in order. -/
def Report.spans (report : Report α) : List Span :=
  report.bundles.map fun bundle => (bundle.start, bundle.stop)

/-- The bundles of a report follow one another. -/
theorem State.Coherent.consecutive_report {lost : List Share}
    (h : state.Coherent options source lost) (hresult : state.result? = some (.ok report)) :
    Consecutive source.start report.spans source.stop := by
  have htiles := (h.refines_report hresult).tiles
  rw [Report.shares, List.map_map] at htiles
  apply htiles.consecutive_of_sorted (.refl _)
  rw [List.pairwise_map, (h.complete report hresult).2.2]
  exact spansSorted_report _ _

/-- With one permit at most, or a fraction at which no split is made, a run that returns a report
has made no dynamic split, whatever the interleaving: its bundles are the static bundles of its
source, in order. -/
theorem run_without_spare_capacity_is_static (hstatic : Static options) (hvalid : source.Valid)
    (events : List RunEvent)
    (hresult : ((State.begin options source).run options crashes events).result? =
      some (.ok report)) :
    report.dynamicSplits = 0 ∧
      report.spans = (source.bundles options.desiredBundleBytes.toNat).map Source.span ∧
      ∀ bundle ∈ report.bundles, bundle.dynamic = false := by
  obtain ⟨lost, hcoherent⟩ : ∃ lost, ((State.begin options source).run options crashes
    events).Coherent options source lost := coherent_of_run hvalid events
  have hsplits : report.dynamicSplits = 0 := by
    rcases splits_eq_zero_or_doomed hstatic hvalid events with hzero | hdoomed
    · rw [(hcoherent.complete report hresult).2.2]
      exact hzero
    · exact absurd hdoomed (hcoherent.not_doomed hresult)
  have hrefines := hcoherent.refines_report hresult
  have hstatics : ∀ bundle ∈ report.bundles, bundle.dynamic = false := by
    have hcount := hrefines.splits_eq.symm.trans hsplits
    rw [Report.shares, List.countP_map, List.countP_eq_zero] at hcount
    intro bundle hbundle
    simpa using hcount bundle hbundle
  refine ⟨hsplits, ?_, hstatics⟩
  have hspans := hcoherent.consecutive_report hresult
  have hbundles := Source.consecutive_bundles options.desiredBundleBytes.toNat
    hvalid.start_le_stop
  have hsorted : report.bundles.Pairwise fun a b => a.start ≤ b.start := by
    rw [(hcoherent.complete report hresult).2.2]
    exact sorted_report _ _
  have hstarts := hrefines.starts_eq hsorted hbundles
  rw [List.filter_eq_self.mpr (by simpa using hstatics)] at hstarts
  apply hspans.eq_of_starts hbundles
  rw [Report.spans, List.map_map]
  exact hstarts

/-- The only permit is free while the last task, which has read its bundle, waits to be joined. A
tick comes then, and splits nothing. -/
theorem run_without_spare_capacity_is_static_fourNumbers :
    let options : Options := { desiredBundleBytes := 8, maxParallelism := 1 }
    let events : List RunEvent :=
      [.proceed, .proceed] ++ List.replicate 9 (.work 0) ++ [.join 0, .proceed, .proceed] ++
        List.replicate 9 (.work 1) ++ [.tick [1], .proceed, .join 1, .proceed]
    let final := (State.begin options Source.fourNumbers).run options (fun _ => false) events
    ∃ report, final.result? = some (.ok report) ∧ report.dynamicSplits = 0 ∧
      report.spans = [(0, 2), (2, 4)] := by
  intro options events final
  have hreturns : (final.result?.any fun result => result.isOk) = true := by decide +kernel
  obtain ⟨result, hresult, hok⟩ := (Option.any_eq_true _ _).mp hreturns
  cases result with
  | error error => cases hok
  | ok report =>
      obtain ⟨hsplits, hspans, -⟩ := run_without_spare_capacity_is_static
        (.inl (by decide)) (Source.valid_ofBuffer _) events hresult
      refine ⟨report, hresult, hsplits, hspans.trans ?_⟩
      decide +kernel

end BundledReading.Executor

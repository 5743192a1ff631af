import BundledReading.Proofs.Executor.Transitions

/-!
# Aborting a run

A run tells its tasks to stop when it returns, and not before. From then on its main loop does
nothing more, and the tasks that it leaves behind go on by themselves. A task decodes an element
only after a check that has let it go on, one element for each such check (`decodeSteps_run`). Once
the run has returned no check lets a task go on, so a task decodes no more than the one element that
it was about to decode, and it has ended after four steps.

## Implementation notes

Steps of one task are counted along a run: they are the events that let the task with its identity
work. What such an event can make of the phase of the task is said once, by `PhaseStep`; any other
event leaves the phase as it is, unless it launches the task or joins it (`hasTask_step`).
-/

namespace BundledReading.Reader

variable {α : Type}

/-! ## Failures of readers

None of the calls on a reader fails because its run has ended. -/

theorem start_ne_aborted (reader : Reader α) : reader.start ≠ .error .aborted := by
  simp only [start, ReadRange.begin]
  split
  · simp [bind, Except.bind]
  · split <;> simp [bind, Except.bind, pure, Except.pure]

theorem current_ne_aborted (reader : Reader α) : reader.current ≠ .error .aborted := by
  unfold current Buffer.decode
  split
  · simp
  · split
    · simp
    next element _ => cases reader.source.buffer.coder.decode element <;> simp [Except.mapError]

theorem advance_ne_aborted (reader : Reader α) : reader.advance ≠ .error .aborted := by
  simp only [advance, ReadRange.advance]
  split
  · simp [bind, Except.bind, pure, Except.pure]
  · split
    · simp [bind, Except.bind]
    · split <;> simp [bind, Except.bind, pure, Except.pure]

end BundledReading.Reader

namespace BundledReading.Executor

variable {α : Type} {options : Options} {crashes : Bytes → Bool} {source : Source α}
  {state : State α} {id : Nat}

/-! ## Phases -/

/-- What one step can make of the phase of a task. -/
inductive PhaseStep (abort : Bool) : Phase α → Phase α → Prop
  | start (more : Bool) : PhaseStep abort .starting (if more then .checking else .closing)
  | startFails (cause : Failure) (hcause : cause ≠ .aborted) :
      PhaseStep abort .starting (.ended (.failed cause))
  | check : PhaseStep abort .checking (if abort then .ended (.failed .aborted) else .reading)
  | read : PhaseStep abort .reading .advancing
  | readFails (cause : Failure) (hcause : cause ≠ .aborted) :
      PhaseStep abort .reading (.ended (.failed cause))
  | crash : PhaseStep abort .reading (.ended .crashed)
  | advance (more : Bool) : PhaseStep abort .advancing (if more then .checking else .closing)
  | advanceFails (cause : Failure) (hcause : cause ≠ .aborted) :
      PhaseStep abort .advancing (.ended (.failed cause))
  | close (final : Source α) (values : List α) :
      PhaseStep abort .closing (.ended (.read final values))
  /-- The permit is given back. -/
  | release (outcome : Outcome α) : PhaseStep abort (.ended outcome) (.released outcome)
  | rest (outcome : Outcome α) : PhaseStep abort (.released outcome) (.released outcome)

theorem Task.phaseStep (crashes : Bytes → Bool) (abort : Bool) (task : Task α) :
    PhaseStep abort task.phase (task.work crashes abort).phase := by
  obtain ⟨id, dynamic, reader, readBack, phase⟩ := task
  cases phase with
  | starting =>
      dsimp only [work]
      cases hstart : reader.start with
      | error cause => exact .startFails cause fun h => reader.start_ne_aborted (h ▸ hstart)
      | ok answer => exact .start answer.1
  | checking => exact .check
  | reading =>
      dsimp only [work]
      split
      · exact .crash
      cases hcurrent : reader.current with
      | error cause => exact .readFails cause fun h => reader.current_ne_aborted (h ▸ hcurrent)
      | ok value => exact .read
  | advancing =>
      dsimp only [work]
      cases hadvance : reader.advance with
      | error cause => exact .advanceFails cause fun h => reader.advance_ne_aborted (h ▸ hadvance)
      | ok answer => exact .advance answer.1
  | closing => exact .close _ _
  | ended outcome => exact .release outcome
  | released outcome => exact .rest outcome

namespace Phase

/-- Whether the next step decodes the element that the reader stands on. -/
def decodes : Phase α → Bool
  | .reading => true
  | _ => false

/-- Whether the next step is a check that lets the task go on. -/
def passesCheck (abort : Bool) : Phase α → Bool
  | .checking => !abort
  | _ => false

/-- The task has ended because it was told to stop. -/
def CutShort (phase : Phase α) : Prop :=
  phase = .ended (.failed .aborted) ∨ phase = .released (.failed .aborted)

/-- How many steps a task that is told to stop has left at most. -/
def stepsLeft : Phase α → Nat
  | .reading => 4
  | .starting => 3
  | .advancing => 3
  | .checking => 2
  | .closing => 2
  | .ended _ => 1
  | .released _ => 0

theorem stepsLeft_le (phase : Phase α) : phase.stepsLeft ≤ 4 := by
  cases phase <;> simp [stepsLeft]

theorem eq_released {phase : Phase α} (h : phase.stepsLeft = 0) :
    ∃ outcome, phase = .released outcome := by
  cases phase with
  | released outcome => exact ⟨outcome, rfl⟩
  | _ => simp [stepsLeft] at h

end Phase

namespace PhaseStep

variable {abort : Bool} {phase next : Phase α}

/-- A task is about to decode an element after a check that has let it go on, and only then. -/
theorem decodes_eq (h : PhaseStep abort phase next) : next.decodes = phase.passesCheck abort := by
  cases h with
  | start more => cases more <;> rfl
  | check => cases abort <;> rfl
  | advance more => cases more <;> rfl
  | _ => rfl

/-- Nothing but a check of a task that is told to stop cuts it short. -/
theorem not_cutShort (h : PhaseStep false phase next) (hphase : ¬phase.CutShort) :
    ¬next.CutShort := by
  cases h with
  | start more => cases more <;> simp [Phase.CutShort]
  | startFails cause hcause => simp [Phase.CutShort, hcause]
  | readFails cause hcause => simp [Phase.CutShort, hcause]
  | advance more => cases more <;> simp [Phase.CutShort]
  | advanceFails cause hcause => simp [Phase.CutShort, hcause]
  | release outcome => simpa [Phase.CutShort] using hphase
  | rest outcome => exact hphase
  | _ => simp [Phase.CutShort]

/-- Each step of a task that is told to stop takes it nearer to its end. -/
theorem stepsLeft_le (h : PhaseStep true phase next) : next.stepsLeft ≤ phase.stepsLeft - 1 := by
  cases h with
  | start more => cases more <;> simp [Phase.stepsLeft]
  | advance more => cases more <;> simp [Phase.stepsLeft]
  | _ => simp [Phase.stepsLeft]

end PhaseStep

theorem Task.stepsLeft_iterate (crashes : Bytes → Bool) (task : Task α) (count : Nat) :
    ((Task.work crashes true)^[count] task).phase.stepsLeft ≤ task.phase.stepsLeft - count := by
  induction count with
  | zero => exact Nat.le_refl _
  | succ count ih =>
      rw [Function.iterate_succ_apply']
      have hstep := Task.phaseStep crashes true ((Task.work crashes true)^[count] task)
      have hless := hstep.stepsLeft_le
      omega

/-! ## Steps of one task -/

/-- Whether an event is a step of the task with an identity. -/
def RunEvent.isWork (id : Nat) : RunEvent → Bool
  | .work other => other = id
  | _ => false

/-- Whether there is a task with an identity, and `test` holds of its phase. -/
def State.hasTask (state : State α) (id : Nat) (test : Phase α → Bool) : Bool :=
  (findTask id state.active).any fun task => test task.phase

/-- How many events are steps that the task with an identity takes where `test` holds, of the abort
flag and of the phase of the task. -/
def State.countSteps (options : Options) (crashes : Bytes → Bool) (id : Nat)
    (test : Bool → Phase α → Bool) : State α → List RunEvent → Nat
  | _, [] => 0
  | state, event :: rest =>
    (event.isWork id && state.hasTask id (test state.abort)).toNat +
      countSteps options crashes id test (state.step options crashes event) rest

/-- How many elements the task with an identity decodes. -/
def State.decodeSteps (options : Options) (crashes : Bytes → Bool) (id : Nat) (state : State α)
    (events : List RunEvent) : Nat :=
  state.countSteps options crashes id (fun _ => Phase.decodes) events

/-- How many checks let the task with an identity go on. -/
def State.passedChecks (options : Options) (crashes : Bytes → Bool) (id : Nat) (state : State α)
    (events : List RunEvent) : Nat :=
  state.countSteps options crashes id Phase.passesCheck events

/-! ## What events make of one task -/

/-- Changes that keep identities change the task that is found. -/
theorem findTask_map {change : Task α → Task α} (hid : ∀ task, (change task).id = task.id)
    (tasks : List (Task α)) : findTask id (tasks.map change) = (findTask id tasks).map change := by
  simp only [findTask, List.find?_map, Function.comp_def, hid]

theorem findTask_putTask (task : Task α) (tasks : List (Task α)) :
    findTask id (putTask task tasks) =
      (findTask id tasks).map fun other => if other.id = task.id then task else other := by
  apply findTask_map
  intro other
  split
  next heq => exact heq.symm
  · rfl

theorem findTask_removeTask_of_ne {other : Nat} (hne : id ≠ other) (tasks : List (Task α)) :
    findTask id (removeTask other tasks) = findTask id tasks := by
  rw [findTask, removeTask, List.find?_filter, findTask]
  congr 1
  funext task
  by_cases hid : task.id = id
  · simp [hid, hne]
  · simp [hid]

/-- The task that works is the one with the identity. -/
theorem findTask_work (state : State α) :
    findTask id (state.work crashes id).active =
      (findTask id state.active).map (Task.work crashes state.abort) := by
  unfold State.work
  cases hfind : findTask id state.active with
  | none => simpa using hfind
  | some task =>
      have hid : task.id = id := id_of_findTask hfind
      simp [findTask_putTask, hfind]

/-- Other tasks stay as they are. -/
theorem findTask_work_of_ne {other : Nat} (hne : id ≠ other) (state : State α) :
    findTask id (state.work crashes other).active = findTask id state.active := by
  unfold State.work
  cases hother : findTask other state.active with
  | none => rfl
  | some task =>
      have hid : task.id = other := id_of_findTask hother
      dsimp only
      rw [findTask_putTask]
      cases hfind : findTask id state.active with
      | none => rfl
      | some found =>
          have hfound : found.id = id := id_of_findTask hfind
          rw [Option.map_some, Task.work_id, hid, hfound, if_neg hne]

/-- The main loop launches at most one task at a time, and that has not started yet. -/
theorem proceed_active (state : State α) :
    state.proceed.active = state.active ∨
      ∃ task : Task α, task.phase = .starting ∧ state.proceed.active = state.active ++ [task] := by
  have hstop : state.stopLaunching.active = state.active := by
    unfold State.stopLaunching
    split <;> rfl
  unfold State.proceed
  split
  · split
    · exact .inl hstop
    · split
      · exact .inr ⟨_, rfl, rfl⟩
      · exact .inl hstop
  · exact .inl rfl

/-- A join takes away the task with the identity, and that has nothing more to do. -/
theorem join_active (state : State α) (id : Nat) :
    (state.join id).active = state.active ∨
      (state.join id).active = removeTask id state.active ∧
        ∃ task outcome, findTask id state.active = some task ∧ task.phase = .released outcome := by
  unfold State.join
  split
  next task hcontrol hfind =>
    have hid : task.id = id := id_of_findTask hfind
    split
    next outcome houtcome =>
      exact .inr ⟨by rw [State.receive_active, hid], task, outcome, hfind,
        Task.phase_of_outcome? houtcome⟩
    · exact .inl rfl
  · exact .inl rfl

/-- A tick may change readers, but neither the identity nor the phase of any task. -/
theorem tick_active (fraction : Numeric.Binary64) (state : State α) (order : List Nat) :
    ∃ change : Task α → Task α, (∀ task, (change task).id = task.id) ∧
      (∀ task, (change task).phase = task.phase) ∧
      (state.tick fraction order).active = state.active.map change := by
  have hsame : ∃ change : Task α → Task α, (∀ task, (change task).id = task.id) ∧
      (∀ task, (change task).phase = task.phase) ∧ state.active = state.active.map change :=
    ⟨fun task => task, fun _ => rfl, fun _ => rfl, (List.map_id' _).symm⟩
  unfold State.tick
  split
  · dsimp only
    split
    · split
      · exact hsame
      next made _ =>
        refine ⟨fun task => if task.id = made.id then { task with reader := made.reader } else task,
          ?_, ?_, rfl⟩ <;>
        · intro task
          dsimp only
          split <;> rfl
    · exact hsame
  · exact hsame

/-- An event that is no step of a task leaves open whether it is about to decode an element. -/
theorem hasTask_step {event : RunEvent} (h : event.isWork id = false) :
    (state.step options crashes event).hasTask id Phase.decodes =
      state.hasTask id Phase.decodes := by
  unfold State.hasTask
  cases event with
  | proceed =>
      rcases proceed_active state with hactive | ⟨task, hphase, hactive⟩
      · rw [State.step, hactive]
      · have hnew : task.phase.decodes = false := congrArg Phase.decodes hphase
        rw [State.step, hactive, findTask, List.find?_append, findTask]
        cases state.active.find? fun task => task.id = id with
        | some found => rfl
        | none =>
            rw [Option.none_or, List.find?_singleton]
            split
            · exact hnew
            · rfl
  | work other =>
      have hne : other ≠ id := by simpa [RunEvent.isWork] using h
      rw [State.step, findTask_work_of_ne hne.symm]
  | join other =>
      rcases join_active state other with hactive | ⟨hactive, task, outcome, hfind, hphase⟩
      · rw [State.step, hactive]
      rw [State.step, hactive]
      by_cases heq : id = other
      · subst heq
        have hgone : findTask id (removeTask id state.active) = none := by
          simp [findTask, removeTask, List.find?_eq_none]
        have hended : task.phase.decodes = false := congrArg Phase.decodes hphase
        rw [hgone, hfind, Option.any_none, Option.any_some, hended]
      · rw [findTask_removeTask_of_ne heq]
  | tick order =>
      obtain ⟨change, hid, hphase, hactive⟩ :=
        tick_active options.splitFraction state order
      rw [State.step, hactive, findTask_map hid]
      simp only [Option.any_map, hphase]

/-- A step of a task makes it decode an element next if it is a check that lets the task go on. -/
theorem hasTask_work (state : State α) :
    (state.work crashes id).hasTask id Phase.decodes =
      state.hasTask id (Phase.passesCheck state.abort) := by
  have hdecodes := fun task : Task α => (task.phaseStep crashes state.abort).decodes_eq
  simp only [State.hasTask, findTask_work, Option.any_map, hdecodes]

/-! ## Elements that one task decodes -/

/-- A task decodes one element for each check that has let it go on, but for an element that it is
about to decode when the counting begins or ends. -/
theorem decodeSteps_run (state : State α) (events : List RunEvent) :
    state.decodeSteps options crashes id events +
        ((state.run options crashes events).hasTask id Phase.decodes).toNat =
      (state.hasTask id Phase.decodes).toNat + state.passedChecks options crashes id events := by
  induction events generalizing state with
  | nil => exact Nat.add_comm _ _
  | cons event rest ih =>
      have hrest := ih (state.step options crashes event)
      have hstep : (event.isWork id && state.hasTask id Phase.decodes).toNat +
          ((state.step options crashes event).hasTask id Phase.decodes).toNat =
            (state.hasTask id Phase.decodes).toNat +
              (event.isWork id && state.hasTask id (Phase.passesCheck state.abort)).toNat := by
        cases hwork : event.isWork id with
        | false => simp [hasTask_step hwork]
        | true =>
            obtain rfl : event = .work id := by
              cases event <;> simp_all [RunEvent.isWork]
            rw [State.step, hasTask_work, Bool.true_and, Bool.true_and]
      simp only [State.decodeSteps, State.passedChecks, State.countSteps, State.run,
        List.foldl_cons] at hrest ⊢
      omega

/-! ## When tasks are told to stop -/

/-- Tasks are told to stop when the run has returned, and not before. -/
structure State.StopsOnReturn (state : State α) : Prop where
  abort_eq : state.abort = state.result?.isSome
  not_cutShort : state.result? = none → ∀ task ∈ state.active, ¬task.phase.CutShort
  /-- A run that succeeds has left no task behind. -/
  active_eq_nil : ∀ report, state.result? = some (.ok report) → state.active = []

theorem State.stopsOnReturn_begin (options : Options) (source : Source α) :
    (State.begin options source).StopsOnReturn where
  abort_eq := by
    by_cases h : permitLimit < options.parallelism <;> simp [State.begin, State.result?, h]
  not_cutShort := fun _ _ htask => nomatch htask
  active_eq_nil := fun _ _ => rfl

/-- Every transition raises the flag if it returns, and only then. -/
theorem Transition.stopsOnReturn {next : State α} (h : Transition options crashes state next)
    (hstops : state.StopsOnReturn) : next.StopsOnReturn := by
  have hcalm : state.result? = none → state.abort = false := fun hresult => by
    simp [hstops.abort_eq, hresult]
  cases h with
  | idle => exact hstops
  | launch bundle queue hcontrol hqueue hpermit =>
      have hresult : state.result? = none := by simp [State.result?, hcontrol]
      have hnext : (state.launch bundle queue).result? = none := hresult
      refine ⟨?_, ?_, ?_⟩
      · exact hstops.abort_eq
      · intro _ task htask
        rcases List.mem_append.mp htask with htask | htask
        · exact hstops.not_cutShort hresult task htask
        · simp [List.mem_singleton.mp htask, Phase.CutShort]
      · intro report hreport
        exact absurd (hnext.symm.trans hreport) nofun
  | complete hcontrol hstuck hactive => exact ⟨rfl, nofun, fun _ _ => hactive⟩
  | wait hcontrol hactive =>
      have hresult : state.result? = none := by simp [State.result?, hcontrol]
      exact ⟨hcalm hresult, fun _ => hstops.not_cutShort hresult, nofun⟩
  | work before after task hactive =>
      refine ⟨hstops.abort_eq, ?_, ?_⟩
      · intro hresult
        have hnot := hstops.not_cutShort hresult
        have htask : task ∈ state.active := by simp [hactive]
        have hstep := task.phaseStep crashes state.abort
        rw [hcalm hresult] at hstep ⊢
        exact forall_mem_replace (hactive ▸ hnot) (hstep.not_cutShort (hnot task htask))
      · intro report hreport
        have hempty : state.active = [] := hstops.active_eq_nil report hreport
        simp [hactive] at hempty
  | receive before after task outcome hcontrol hactive hphase hremove =>
      have hresult : state.result? = none := by simp [State.result?, hcontrol]
      cases outcome with
      | read final values =>
          refine ⟨hcalm hresult, fun _ => ?_, nofun⟩
          rw [State.receive_active, hremove]
          exact forall_mem_remove (hactive ▸ hstops.not_cutShort hresult)
      | failed cause => exact ⟨rfl, nofun, nofun⟩
      | crashed => exact ⟨rfl, nofun, nofun⟩
  | pass hcontrol =>
      have hresult : state.result? = none := by simp [State.result?, hcontrol]
      exact ⟨hcalm hresult, fun _ => hstops.not_cutShort hresult, nofun⟩
  | rebalance before after task reader residual consumed hcontrol hactive hqueue hpermit
      hcandidate hsplit =>
      have hresult : state.result? = none := by simp [State.result?, hcontrol]
      have hnot := hstops.not_cutShort hresult
      refine ⟨hcalm hresult, fun _ => ?_, nofun⟩
      exact forall_mem_replace (hactive ▸ hnot) (hnot task (by simp [hactive]))

theorem State.stopsOnReturn_run (source : Source α) (events : List RunEvent) :
    ((State.begin options source).run options crashes events).StopsOnReturn :=
  State.run_induction (fun _ event hnumbered h => (transition_step hnumbered event).stopsOnReturn h)
    (State.numbered_begin options source) (State.stopsOnReturn_begin options source) events

/-! ## Tasks that are left behind -/

/-- All that events make of a run that has returned: each task works by itself, as often as it is
let. -/
structure LeftBehind (crashes : Bytes → Bool) (state : State α) (events : List RunEvent)
    (later : State α) : Prop where
  result_eq : later.result? = state.result?
  abort_eq : later.abort = state.abort
  launched_eq : later.launched = state.launched
  notices_eq : later.notices = state.notices
  findTask_eq : ∀ id, findTask id later.active =
    (findTask id state.active).map
      (Task.work crashes state.abort)^[events.countP (RunEvent.isWork id)]

theorem LeftBehind.of_eq {later : State α} {event : RunEvent} (h : later = state)
    (hevent : ∀ id, event.isWork id = false) : LeftBehind crashes state [event] later where
  result_eq := by rw [h]
  abort_eq := by rw [h]
  launched_eq := by rw [h]
  notices_eq := by rw [h]
  findTask_eq := fun id => by simp [h, hevent id]

theorem LeftBehind.trans {middle later : State α} {events rest : List RunEvent}
    (h : LeftBehind crashes state events middle) (hrest : LeftBehind crashes middle rest later) :
    LeftBehind crashes state (events ++ rest) later where
  result_eq := hrest.result_eq.trans h.result_eq
  abort_eq := hrest.abort_eq.trans h.abort_eq
  launched_eq := hrest.launched_eq.trans h.launched_eq
  notices_eq := hrest.notices_eq.trans h.notices_eq
  findTask_eq := fun id => by
    rw [hrest.findTask_eq, h.findTask_eq, h.abort_eq, Option.map_map, List.countP_append,
      Nat.add_comm, Function.iterate_add]

/-- The main loop does nothing once it has returned. -/
theorem leftBehind_step {result : Except RunError (Report α)} (h : state.result? = some result)
    (event : RunEvent) :
    LeftBehind crashes state [event] (state.step options crashes event) := by
  have hcontrol := State.control_of_result? h
  cases event with
  | proceed => exact .of_eq (by simp [State.step, State.proceed, hcontrol]) fun _ => rfl
  | join id => exact .of_eq (by simp [State.step, State.join, hcontrol]) fun _ => rfl
  | tick order => exact .of_eq (by simp [State.step, State.tick, hcontrol]) fun _ => rfl
  | work other =>
      have hframe : (state.work crashes other).control = state.control ∧
          (state.work crashes other).abort = state.abort ∧
          (state.work crashes other).launched = state.launched ∧
          (state.work crashes other).notices = state.notices := by
        unfold State.work
        split <;> exact ⟨rfl, rfl, rfl, rfl⟩
      obtain ⟨hcontrol, habort, hlaunched, hnotices⟩ := hframe
      refine ⟨by simp [State.step, State.result?, hcontrol], habort, hlaunched, hnotices, ?_⟩
      intro id
      by_cases heq : id = other
      · subst heq
        simpa [State.step, RunEvent.isWork] using findTask_work state
      · simpa [State.step, RunEvent.isWork, Ne.symm heq] using findTask_work_of_ne heq state

theorem leftBehind_run {result : Except RunError (Report α)} (h : state.result? = some result)
    (events : List RunEvent) :
    LeftBehind crashes state events (state.run options crashes events) := by
  induction events generalizing state with
  | nil => exact ⟨rfl, rfl, rfl, rfl, fun id => by simp [State.run]⟩
  | cons event rest ih =>
      exact (leftBehind_step h event).trans (ih (State.result?_step h event))

/-- No check lets a task go on once the run has returned. -/
theorem passedChecks_of_returned {result : Except RunError (Report α)}
    (h : state.result? = some result) (habort : state.abort = true) (events : List RunEvent) :
    state.passedChecks options crashes id events = 0 := by
  have hchecks : ∀ phase : Phase α, phase.passesCheck true = false := by
    intro phase
    cases phase <;> rfl
  induction events generalizing state with
  | nil => rfl
  | cons event rest ih =>
      have hstep : LeftBehind crashes state [event] (state.step options crashes event) :=
        leftBehind_step h event
      have hrest := ih (hstep.result_eq.trans h) (hstep.abort_eq.trans habort)
      have hnone : state.hasTask id (Phase.passesCheck state.abort) = false := by
        simp only [State.hasTask, habort, hchecks, Option.any_false]
      rw [State.passedChecks, State.countSteps, hnone, Bool.and_false]
      exact (Nat.zero_add _).trans hrest

/-! ## What an abort does -/

/-- A run raises the abort flag when it returns, and not while its main loop goes round. From then
on it launches nothing. Each task that it has left behind decodes at most one more element, none if
no check had let it go on before, and has ended after four steps of its own. If the run succeeds, no
task was ever cut short. -/
theorem abort_stops_tasks (options : Options) (crashes : Bytes → Bool) (source : Source α)
    (before after : List RunEvent) :
    let start := State.begin options source
    let state := start.run options crashes before
    let later := state.run options crashes after
    (state.abort = true ↔ ∃ result, state.result? = some result) ∧
      (state.abort = true →
        later.result? = state.result? ∧ later.launched = state.launched ∧
          later.notices = state.notices ∧
          ∀ id, state.decodeSteps options crashes id after ≤ 1 ∧
            (start.passedChecks options crashes id before = 0 →
              state.decodeSteps options crashes id after = 0) ∧
            ∀ task, findTask id state.active = some task →
              ∃ last, findTask id later.active = some last ∧
                (4 ≤ after.countP (RunEvent.isWork id) →
                  ∃ outcome, last.phase = .released outcome)) ∧
      ∀ report, later.result? = some (.ok report) →
        ∀ task ∈ state.active, ¬task.phase.CutShort := by
  intro start state later
  have hstops : state.StopsOnReturn := State.stopsOnReturn_run source before
  have habort : state.abort = true ↔ ∃ result, state.result? = some result := by
    rw [hstops.abort_eq, Option.isSome_iff_exists]
  refine ⟨habort, ?_, ?_⟩
  · intro hraised
    obtain ⟨result, hresult⟩ := habort.mp hraised
    have hleft : LeftBehind crashes state after later := leftBehind_run hresult after
    refine ⟨hleft.result_eq, hleft.launched_eq, hleft.notices_eq, fun id => ?_⟩
    have hafter : state.decodeSteps options crashes id after +
        (later.hasTask id Phase.decodes).toNat = (state.hasTask id Phase.decodes).toNat := by
      refine (decodeSteps_run state after).trans ?_
      rw [passedChecks_of_returned hresult hraised, Nat.add_zero]
    refine ⟨?_, ?_, ?_⟩
    · have hone := Bool.toNat_le (state.hasTask id Phase.decodes)
      omega
    · intro hunchecked
      have hbefore : start.decodeSteps options crashes id before +
          (state.hasTask id Phase.decodes).toNat = 0 := by
        refine (decodeSteps_run start before).trans ?_
        rw [hunchecked]
        rfl
      omega
    · intro task htask
      have hlast := hleft.findTask_eq id
      rw [htask, hraised, Option.map_some] at hlast
      refine ⟨_, hlast, fun hfour => Phase.eq_released ?_⟩
      have hsteps := task.stepsLeft_iterate crashes (after.countP (RunEvent.isWork id))
      have hfirst := task.phase.stepsLeft_le
      omega
  · intro report hreport
    cases hresult : state.result? with
    | none => exact hstops.not_cutShort hresult
    | some result =>
        have hleft : LeftBehind crashes state after later := leftBehind_run hresult after
        have hempty : state.active = [] :=
          hstops.active_eq_nil report (hleft.result_eq.symm.trans hreport)
        simp [hempty]

/-- The first of three tasks fails. The second is then about to decode an element, which it does and
no more; the third has not started yet, and decodes nothing. -/
theorem abort_stops_tasks_threeTasks :
    let source := Source.ofBuffer (Buffer.ofEncoded (Coder.bigEndian32.share 0)
      [[0, 0], [0, 0, 0, 1], [0, 0, 0, 2], [0, 0, 0, 3], [0, 0, 0, 4], [0, 0, 0, 5]])
    let options : Options := { desiredBundleBytes := 8, maxParallelism := 3 }
    let before : List RunEvent :=
      List.replicate 4 .proceed ++ List.replicate 4 (.work 0) ++ List.replicate 2 (.work 1) ++
        [.join 0]
    let after : List RunEvent := List.replicate 4 (.work 1) ++ List.replicate 3 (.work 2)
    let state := (State.begin options source).run options (fun _ => false) before
    let later := state.run options (fun _ => false) after
    state.abort = true ∧ later.launched = 3 ∧
      state.decodeSteps options (fun _ => false) 1 after = 1 ∧
      state.decodeSteps options (fun _ => false) 2 after = 0 ∧
      ∃ task, findTask 1 later.active = some task ∧ ∃ outcome, task.phase = .released outcome := by
  intro source options before after state later
  have hraised : state.abort = true := by decide +kernel
  obtain ⟨-, hafter, -⟩ := abort_stops_tasks options (fun _ => false) source before after
  obtain ⟨-, hlaunched, -, htasks⟩ := hafter hraised
  obtain ⟨hone, -, hends⟩ := htasks 1
  obtain ⟨-, hnone, -⟩ := htasks 2
  have hfound : (findTask 1 state.active).isSome = true := by decide +kernel
  obtain ⟨task, htask⟩ := Option.isSome_iff_exists.mp hfound
  obtain ⟨last, hlast, hreleased⟩ := hends task htask
  have hpending : 1 ≤ state.decodeSteps options (fun _ => false) 1 after := by decide +kernel
  exact ⟨hraised, hlaunched.trans (by decide +kernel), Nat.le_antisymm hone hpending,
    hnone (by decide +kernel), last, hlast, hreleased (by decide +kernel)⟩

end BundledReading.Executor

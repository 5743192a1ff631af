import BundledReading.Proofs.CheckedCalls
import BundledReading.Proofs.Executor.Shares

/-!
# Checked runs

A run with each call checked: its set-up splits the source, asks for permits and starts a timer, and
its events advance, look at, split and close readers. Whatever the options say and whatever happens,
only one call can be refused, the one for permits: more of them may be asked for than there can be
(`checked_run_is_refused_permits_only`). Options are brought up to the least number of permits and
the shortest period, but not down to the greatest number.

## Implementation notes

A step of a run is checked at the calls that need it and otherwise left as it is. What carries the
proof is that tasks are settled, so their readers are sound, and that all sources of a run keep the
buffer that the first one has (`State.InMemory`).
-/

namespace BundledReading.Executor

open Numeric

variable {α : Type}

/-! ## Checked set-up -/

namespace Checked

/-- Makes permits: at least one, and no more than there can be. -/
def permits (count : Nat) : Checked Nat :=
  if 1 ≤ count ∧ count ≤ permitLimit then .ok count else .error (.permits count)

/-- Starts a timer. -/
def period (millis : Nat) : Checked Nat := if 1 ≤ millis then .ok millis else .error .period

end Checked

/-- The set-up of a run: the static split, the number of elements, the permits and the timer. -/
def State.checkedBegin (options : Options) (source : Source α) : Checked (State α) := do
  let bundles ← source.checkedBundles options.desiredBundleBytes.toNat
  let _ ← source.checkedSize
  let permits ← Checked.permits options.parallelism
  let _ ← Checked.period options.rebalancePeriod
  return {
    queue := bundles.map (⟨·, false⟩)
    permits
    active := []
    finished := []
    dynamicSplits := 0
    launched := 0
    abort := false
    control := .launching
    notices := [] }

/-! ## Checked steps -/

/-- The next step of a task. -/
def Task.checkedWork (crashes : Bytes → Bool) (abort : Bool) (task : Task α) :
    Checked (Task α) :=
  match task.phase with
  | .advancing => do
    match ← task.reader.checkedAdvance with
    | .error cause => return { task with phase := .ended (.failed cause) }
    | .ok (more, reader) =>
      return { task with reader, phase := if more then .checking else .closing }
  | .closing => do
    let final ← task.reader.checkedCurrentSource
    return { task with phase := .ended (.read final task.readBack.reverse) }
  -- Neither starting nor decoding computes an index.
  | _ => return task.work crashes abort

def checkedCandidate? (reader : Reader α) : Checked (Option Binary64) := do
  match ← reader.checkedConsumed with
  | none => return none
  | some consumed => return if consumed.lt (Binary64.ofNat 1) then some consumed else none

def checkedLeastAdvanced :
    List (Nat × Reader α) → Checked (Option (Nat × Reader α × Binary64))
  | [] => return none
  | (id, reader) :: rest => do
    let candidate ← checkedCandidate? reader
    let least ← checkedLeastAdvanced rest
    return match candidate, least with
      | none, least => least
      | some consumed, none => some (id, reader, consumed)
      | some consumed, some (otherId, other, otherConsumed) =>
        if otherConsumed.totalLt consumed then some (otherId, other, otherConsumed)
        else some (id, reader, consumed)

def checkedRebalance (fraction : Binary64) (readers : List (Nat × Reader α)) :
    Checked (Option (Rebalanced α)) := do
  match ← checkedLeastAdvanced readers with
  | none => return none
  | some (id, reader, consumed) =>
    match ← reader.checkedSplit fraction with
    | (some residual, reader) => return some ⟨id, reader, consumed, residual⟩
    | (none, _) => return none

namespace State

def checkedWork (crashes : Bytes → Bool) (state : State α) (id : Nat) : Checked (State α) :=
  match findTask id state.active with
  | none => return state
  | some task => do
    let next ← task.checkedWork crashes state.abort
    return { state with
      active := putTask next state.active
      permits := if task.releases then state.permits + 1 else state.permits }

def checkedTick (fraction : Binary64) (state : State α) (order : List Nat) :
    Checked (State α) :=
  match state.control with
  | .waiting => do
    let state := { state with control := .launching }
    if state.queue.isEmpty && 0 < state.permits then
      let readers := order.filterMap fun id =>
        (findTask id state.active).map fun task => (id, task.reader)
      match ← checkedRebalance fraction readers with
      | none => return state
      | some made =>
        return { state with
          active := state.active.map fun task =>
            if task.id = made.id then { task with reader := made.reader } else task
          queue := state.queue ++ [⟨made.residual, true⟩]
          dynamicSplits := state.dynamicSplits + 1
          notices :=
            .split made.residual.start made.residual.stop made.consumed :: state.notices }
    else return state
  | _ => return state

/-- What an event makes of a state. Launching and joining compute no index. -/
def checkedStep (options : Options) (crashes : Bytes → Bool) (state : State α) :
    RunEvent → Checked (State α)
  | .work id => state.checkedWork crashes id
  | .tick order => state.checkedTick options.splitFraction order
  | event => return state.step options crashes event

/-- A run of a source, from its set-up on. -/
def checkedRun (options : Options) (crashes : Bytes → Bool) (source : Source α)
    (events : List RunEvent) : Checked (State α) := do
  let state ← checkedBegin options source
  events.foldlM (checkedStep options crashes) state

end State

/-! ## Erasing the checks -/

section Erase

variable {reader : Reader α} {readers : List (Nat × Reader α)} {task : Task α} {state : State α}

/-- A reader none of whose calls is refused. -/
structure Checkable (reader : Reader α) : Prop where
  sound : reader.Sound
  fits : reader.source.buffer.FitsMemory

theorem checkedCandidate?_eq (h : Checkable reader) :
    checkedCandidate? reader = .ok (candidate? reader) := by
  rw [checkedCandidate?, candidate?, h.sound.checkedConsumed_eq h.fits]
  dsimp only [bind, Except.bind]
  cases reader.consumed <;> rfl

theorem checkedLeastAdvanced_eq (h : ∀ pair ∈ readers, Checkable pair.2) :
    checkedLeastAdvanced readers = .ok (leastAdvanced readers) := by
  induction readers with
  | nil => rfl
  | cons pair rest ih =>
      obtain ⟨id, reader⟩ := pair
      rw [checkedLeastAdvanced, leastAdvanced, checkedCandidate?_eq (h _ List.mem_cons_self),
        ih fun other hother => h other (List.mem_cons_of_mem _ hother)]
      rfl

/-- Rebalancing makes no call that is refused, whatever the fraction. -/
theorem checkedRebalance_eq (fraction : Binary64) (h : ∀ pair ∈ readers, Checkable pair.2) :
    checkedRebalance fraction readers = .ok (rebalance fraction readers) := by
  rw [checkedRebalance, rebalance, checkedLeastAdvanced_eq h]
  cases hleast : leastAdvanced readers with
  | none => rfl
  | some least =>
      obtain ⟨id, reader, consumed⟩ := least
      have hreader := h _ (leastAdvanced_eq_some hleast).1
      dsimp only [bind, Except.bind, Option.bind]
      rw [hreader.sound.checkedSplit_eq hreader.fits]
      dsimp only
      rcases reader.split fraction with ⟨_ | residual, next⟩ <;> rfl

theorem Task.checkedWork_eq (h : Checkable task.reader) (crashes : Bytes → Bool) (abort : Bool) :
    task.checkedWork crashes abort = .ok (task.work crashes abort) := by
  obtain ⟨id, dynamic, reader, readBack, phase⟩ := task
  cases phase with
  | advancing =>
      dsimp only [Task.checkedWork, Task.work, bind, Except.bind]
      rw [h.sound.checkedAdvance_eq h.fits]
      dsimp only
      cases reader.advance <;> rfl
  | closing =>
      dsimp only [Task.checkedWork, Task.work, bind, Except.bind]
      rw [h.sound.checkedCurrentSource_eq]
      rfl
  | _ => rfl

namespace State

/-- A state none of whose steps is refused a call. -/
def Checkable (state : State α) : Prop := ∀ task ∈ state.active, Executor.Checkable task.reader

theorem Checkable.of_findTask (h : state.Checkable) {id : Nat}
    (hfind : findTask id state.active = some task) : Executor.Checkable task.reader :=
  h task (List.mem_of_find?_eq_some hfind)

theorem Checkable.of_mem_readers (h : state.Checkable) (order : List Nat) :
    ∀ pair ∈ order.filterMap fun id =>
      (findTask id state.active).map fun task => (id, task.reader),
    Executor.Checkable pair.2 := by
  intro pair hpair
  obtain ⟨id, -, hid⟩ := List.mem_filterMap.mp hpair
  obtain ⟨task, hfind, rfl⟩ := Option.map_eq_some_iff.mp hid
  exact h.of_findTask hfind

/-- No step is refused a call, whatever happens. -/
theorem checkedStep_eq (h : state.Checkable) (options : Options) (crashes : Bytes → Bool)
    (event : RunEvent) :
    state.checkedStep options crashes event = .ok (state.step options crashes event) := by
  cases event with
  | proceed => rfl
  | join id => rfl
  | work id =>
      dsimp only [checkedStep, step, State.checkedWork, State.work]
      cases hfind : findTask id state.active with
      | none => rfl
      | some task =>
          dsimp only [bind, Except.bind]
          rw [Task.checkedWork_eq (h.of_findTask hfind)]
          rfl
  | tick order =>
      dsimp only [checkedStep, step, checkedTick, tick]
      cases state.control with
      | waiting =>
          dsimp only
          split
          · have hreaders := h.of_mem_readers order
            rw [checkedRebalance_eq _ hreaders]
            dsimp only [bind, Except.bind]
            cases rebalance options.splitFraction _ <;> rfl
          · rfl
      | _ => rfl

end State

end Erase

/-! ## Runs in memory -/

/-- The buffers of all sources of a run fit the memory. -/
structure State.InMemory (state : State α) : Prop where
  tasks : ∀ task ∈ state.active, task.reader.source.buffer.FitsMemory
  queue : ∀ bundle ∈ state.queue, bundle.source.buffer.FitsMemory

section InMemory

variable {options : Options} {crashes : Bytes → Bool} {state next : State α} {source : Source α}

theorem State.inMemory_begin (hfits : source.buffer.FitsMemory) :
    (State.begin options source).InMemory where
  tasks := by simp [State.begin]
  queue := by
    intro bundle hbundle
    obtain ⟨piece, hpiece, rfl⟩ := List.mem_map.mp hbundle
    dsimp only
    rw [Source.buffer_of_mem_bundles hpiece]
    exact hfits

theorem Task.work_buffer (crashes : Bytes → Bool) (abort : Bool) (task : Task α) :
    (task.work crashes abort).reader.source.buffer = task.reader.source.buffer := by
  have hbuffer := congrArg Source.buffer (task.work_currentSource crashes abort)
  exact hbuffer

/-- No transition brings in another buffer. -/
theorem Transition.inMemory (htransition : Transition options crashes state next)
    (h : state.InMemory) : next.InMemory := by
  cases htransition with
  | launch bundle queue hcontrol hqueue hpermit =>
      have hbundle := h.queue bundle (by simp [hqueue])
      refine ⟨?_, fun other hother => h.queue other (hqueue ▸ List.mem_cons_of_mem bundle hother)⟩
      intro task htask
      rcases List.mem_append.mp htask with htask | htask
      · exact h.tasks task htask
      · rw [List.mem_singleton.mp htask]
        exact hbundle
  | work before after task hactive =>
      refine ⟨forall_mem_replace (hactive ▸ h.tasks) ?_, h.queue⟩
      rw [Task.work_buffer]
      exact h.tasks task (by simp [hactive])
  | receive before after task outcome hcontrol hactive hphase hremove =>
      refine ⟨?_, ?_⟩
      · rw [State.receive_active, hremove]
        exact forall_mem_remove (hactive ▸ h.tasks)
      · rw [State.receive_queue]
        exact h.queue
  | rebalance before after task reader residual consumed hcontrol hactive hqueue hpermit
      hcandidate hsplit =>
      have htask := h.tasks task (by simp [hactive])
      obtain ⟨position, point, -, -, -, rfl, rfl⟩ := Reader.split_eq_some hsplit
      refine ⟨forall_mem_replace (hactive ▸ h.tasks) htask, ?_⟩
      intro bundle hbundle
      rw [List.mem_singleton.mp hbundle]
      exact htask
  | _ => exact ⟨h.tasks, h.queue⟩

/-- What carries a run on: no call is refused in this state, nor in those that follow. -/
structure State.Sustained (options : Options) (source : Source α) (state : State α) : Prop where
  numbered : state.Numbered
  coherent : ∃ lost, state.Coherent options source lost
  inMemory : state.InMemory

theorem State.Sustained.checkable (h : state.Sustained options source) : state.Checkable := by
  obtain ⟨lost, hcoherent⟩ := h.coherent
  intro task htask
  exact ⟨(hcoherent.tasks_settled task htask).reader_sound, h.inMemory.tasks task htask⟩

theorem State.Sustained.step (h : state.Sustained options source) (event : RunEvent) :
    (state.step options crashes event).Sustained options source where
  numbered := (transition_step h.numbered event).numbered h.numbered
  coherent := by
    obtain ⟨lost, hcoherent⟩ := h.coherent
    exact hcoherent.step h.numbered event
  inMemory := (transition_step h.numbered event).inMemory h.inMemory

theorem State.Sustained.foldlM_eq (h : state.Sustained options source) (events : List RunEvent) :
    events.foldlM (checkedStep options crashes) state = .ok (state.run options crashes events) := by
  induction events generalizing state with
  | nil => rfl
  | cons event rest ih =>
      rw [List.foldlM_cons, checkedStep_eq h.checkable]
      exact ih (h.step event)

theorem State.sustained_begin (options : Options) (hvalid : source.Valid)
    (hfits : source.buffer.FitsMemory) : (State.begin options source).Sustained options source where
  numbered := State.numbered_begin options source
  coherent := ⟨[], State.Coherent.begin options hvalid⟩
  inMemory := State.inMemory_begin hfits

theorem Checked.period_eq (options : Options) :
    Checked.period options.rebalancePeriod = .ok options.rebalancePeriod :=
  if_pos (Nat.le_max_right _ _)

/-- The set-up is refused permits above the limit, and nothing else. -/
theorem State.checkedBegin_eq (options : Options) (hvalid : source.Valid)
    (hfits : source.buffer.FitsMemory) :
    State.checkedBegin options source =
      if permitLimit < options.parallelism then .error (.permits options.parallelism)
      else .ok (State.begin options source) := by
  rw [State.checkedBegin, hvalid.checkedBundles_eq hfits, hvalid.checkedSize_eq,
    Checked.period_eq, Checked.permits]
  by_cases hlimit : permitLimit < options.parallelism
  · rw [if_neg fun h => Nat.not_lt.mpr h.2 hlimit, if_pos hlimit]
    rfl
  · rw [if_pos ⟨parallelism_pos options, Nat.le_of_not_lt hlimit⟩, if_neg hlimit]
    simp [State.begin, hlimit, bind, Except.bind, pure, Except.pure]

/-- Nothing that happens in a run makes it ask for permits again. -/
theorem Transition.tooManyPermits_of_next (htransition : Transition options crashes state next)
    (hnext : next.result? = some (.error .tooManyPermits)) :
    state.result? = some (.error .tooManyPermits) := by
  cases htransition with
  | idle => exact hnext
  | work before after task hactive => exact hnext
  | launch bundle queue hcontrol hqueue hpermit =>
      simp [State.result?, State.launch, hcontrol] at hnext
  | receive before after task outcome hcontrol hactive hphase hremove =>
      cases outcome <;> cases hnext
  | _ => cases hnext

theorem State.Sustained.tooManyPermits_iff (h : state.Sustained options source)
    (events : List RunEvent) :
    (state.run options crashes events).result? = some (.error .tooManyPermits) ↔
      state.result? = some (.error .tooManyPermits) := by
  induction events generalizing state with
  | nil => exact Iff.rfl
  | cons event rest ih =>
      refine (ih (h.step event)).trans ⟨?_, fun hresult => State.result?_step hresult event⟩
      exact (transition_step h.numbered event).tooManyPermits_of_next

theorem State.begin_tooManyPermits_iff (options : Options) (source : Source α) :
    (State.begin options source).result? = some (.error .tooManyPermits) ↔
      permitLimit < options.parallelism := by
  by_cases hlimit : permitLimit < options.parallelism <;>
    simp [State.begin, State.result?, hlimit]

end InMemory

/-! ## The only breach -/

theorem permitLimit_lt_parallelism_iff (options : Options) :
    permitLimit < options.parallelism ↔ permitLimit < options.maxParallelism.toNat := by
  have hone : 1 ≤ permitLimit := by decide
  unfold Options.parallelism
  omega

/-- Whatever the options say and whatever happens, a run is refused no call but the one for permits,
and that one exactly if more are asked for than there can be: the run then ends before anything is
launched. Otherwise it gives with all calls checked what it gives without. -/
theorem run_is_refused_permits_only (options : Options) (crashes : Bytes → Bool)
    {source : Source α} (hvalid : source.Valid) (hfits : source.buffer.FitsMemory)
    (events : List RunEvent) :
    State.checkedRun options crashes source events =
        (if permitLimit < options.maxParallelism.toNat then
          .error (.permits options.maxParallelism.toNat)
        else .ok ((State.begin options source).run options crashes events)) ∧
      (((State.begin options source).run options crashes events).result? =
          some (.error .tooManyPermits) ↔
        permitLimit < options.maxParallelism.toNat) := by
  have hsustained := State.sustained_begin options hvalid hfits
  rw [hsustained.tooManyPermits_iff, State.begin_tooManyPermits_iff,
    permitLimit_lt_parallelism_iff, State.checkedRun, State.checkedBegin_eq options hvalid hfits]
  refine ⟨?_, Iff.rfl⟩
  by_cases hlimit : permitLimit < options.maxParallelism.toNat
  · have hone : 1 ≤ permitLimit := by decide
    have hparallelism : options.parallelism = options.maxParallelism.toNat :=
      Nat.max_eq_left (by omega)
    rw [if_pos hlimit, hparallelism, if_pos hlimit]
    rfl
  · rw [if_neg hlimit, if_neg (mt (permitLimit_lt_parallelism_iff options).mp hlimit)]
    exact hsustained.foldlM_eq events

/-- The greatest number of permits is granted, and a run with the largest bundles and without a
rebalance interval goes on to split its reader; one permit more is refused. -/
theorem run_is_refused_permits_only_fourNumbers :
    let most : Options :=
      { desiredBundleBytes := 18446744073709551615, maxParallelism := 2305843009213693951,
        rebalanceMillis := 0 }
    let more : Options := { maxParallelism := 2305843009213693952 }
    let events : List RunEvent := [.proceed, .proceed, .work 0, .tick [0], .proceed]
    let final := (State.begin most Source.fourNumbers).run most (fun _ => false) events
    State.checkedRun most (fun _ => false) Source.fourNumbers events = .ok final ∧
      final.dynamicSplits = 1 ∧
      State.checkedRun more (fun _ => false) Source.fourNumbers events =
        .error (.permits 2305843009213693952) := by
  intro most more events final
  have hvalid : Source.fourNumbers.Valid := Source.valid_ofBuffer _
  have hfits : Source.fourNumbers.buffer.FitsMemory :=
    (by decide : Source.fourNumbers.buffer.size < 2 ^ 63)
  have hmost := (run_is_refused_permits_only most (fun _ => false) hvalid hfits events).1
  have hmore := (run_is_refused_permits_only more (fun _ => false) hvalid hfits events).1
  rw [if_neg (by decide)] at hmost
  rw [if_pos (by decide)] at hmore
  exact ⟨hmost, by decide +kernel, hmore⟩

end BundledReading.Executor

import BundledReading.Proofs.Executor.Tasks

/-!
# Transitions of a run

Events look tasks up by their identities and put them back the same way. Identities are never used
twice, so an event changes one task and leaves the list around it alone; `Transition` lists once
what any event can do to a state, with its guards. Invariants of runs are proved by cases on it.
-/

namespace BundledReading.Executor

variable {α : Type}

/-! ## Lists of tasks -/

section Keyed

variable {β : Type} {before after : List β} {item : β}

/-- Changing the item with a key that no other item has. -/
theorem map_ite_key (key : β → Nat) (change : β → β)
    (hother : ∀ other ∈ before ++ after, key other ≠ key item) :
    (before ++ item :: after).map (fun other =>
      if key other = key item then change other else other) = before ++ change item :: after := by
  have hkeep : ∀ items : List β, (∀ other ∈ items, key other ≠ key item) →
      items.map (fun other => if key other = key item then change other else other) = items := by
    intro items hitems
    induction items with
    | nil => rfl
    | cons head rest ih =>
        rw [List.map_cons, if_neg (hitems head List.mem_cons_self),
          ih fun other hrest => hitems other (List.mem_cons_of_mem head hrest)]
  rw [List.map_append, List.map_cons, if_pos rfl,
    hkeep before fun other h => hother other (List.mem_append_left after h),
    hkeep after fun other h => hother other (List.mem_append_right before h)]

/-- Around an item no other has its key. -/
theorem key_ne_of_nodup (key : β → Nat) (hnodup : ((before ++ item :: after).map key).Nodup) :
    ∀ other ∈ before ++ after, key other ≠ key item := by
  have hperm : ((before ++ item :: after).map key).Perm
      (key item :: (before ++ after).map key) :=
    List.perm_middle.map key
  have hnotMem := (List.nodup_cons.mp (hperm.nodup_iff.mp hnodup)).1
  intro other hother heq
  exact hnotMem (heq ▸ List.mem_map_of_mem hother)

end Keyed

/-- Changing the task with an identity that no other task has. -/
theorem map_ite_id {before after : List (Task α)} {task : Task α} (change : Task α → Task α)
    (hother : ∀ other ∈ before ++ after, other.id ≠ task.id) :
    (before ++ task :: after).map (fun other =>
      if other.id = task.id then change other else other) = before ++ change task :: after :=
  map_ite_key Task.id change hother

theorem putTask_append {before after : List (Task α)} {task next : Task α}
    (hid : next.id = task.id) (hother : ∀ other ∈ before ++ after, other.id ≠ task.id) :
    putTask next (before ++ task :: after) = before ++ next :: after := by
  rw [putTask, hid]
  exact map_ite_id (fun _ => next) hother

theorem removeTask_append {before after : List (Task α)} {task : Task α}
    (hother : ∀ other ∈ before ++ after, other.id ≠ task.id) :
    removeTask task.id (before ++ task :: after) = before ++ after := by
  have hkeep : (before ++ after).filter (fun other => other.id ≠ task.id) = before ++ after := by
    apply List.filter_eq_self.mpr
    simpa using hother
  rw [removeTask, List.filter_append, List.filter_cons_of_neg (by simp), ← List.filter_append,
    hkeep]

/-- The task that is found by an identity has it. -/
theorem id_of_findTask {tasks : List (Task α)} {id : Nat} {task : Task α}
    (h : findTask id tasks = some task) : task.id = id := by
  simpa [findTask] using List.find?_some h

/-- A task that is found by its identity, with the others around it. -/
theorem exists_append_of_findTask {tasks : List (Task α)} {id : Nat} {task : Task α}
    (hnodup : (tasks.map Task.id).Nodup) (h : findTask id tasks = some task) :
    task.id = id ∧ ∃ before after, tasks = before ++ task :: after ∧
      ∀ other ∈ before ++ after, other.id ≠ task.id := by
  obtain ⟨-, before, after, rfl, -⟩ := List.find?_eq_some_iff_append.mp h
  exact ⟨id_of_findTask h, before, after, rfl, key_ne_of_nodup Task.id hnodup⟩

/-- A task is found by the identity that no other task has. -/
theorem findTask_of_mem {tasks : List (Task α)} {task : Task α}
    (hnodup : (tasks.map Task.id).Nodup) (h : task ∈ tasks) :
    findTask task.id tasks = some task := by
  obtain ⟨found, hfound⟩ : ∃ found, findTask task.id tasks = some found :=
    Option.isSome_iff_exists.mp (List.find?_isSome.mpr ⟨task, h, by simp⟩)
  obtain ⟨hid, before, after, rfl, hother⟩ := exists_append_of_findTask hnodup hfound
  rcases List.mem_append.mp h with hbefore | hrest
  · exact absurd hid.symm (hother task (List.mem_append_left after hbefore))
  rcases List.mem_cons.mp hrest with rfl | hafter
  · exact hfound
  · exact absurd hid.symm (hother task (List.mem_append_right before hafter))

/-- What holds of every task still does once one of them is put in another's place. -/
theorem forall_mem_replace {p : Task α → Prop} {before after : List (Task α)} {task next : Task α}
    (h : ∀ other ∈ before ++ task :: after, p other) (hnext : p next) :
    ∀ other ∈ before ++ next :: after, p other := by
  intro other hother
  rcases List.mem_append.mp hother with hother | hother
  · exact h other (List.mem_append_left _ hother)
  · rcases List.mem_cons.mp hother with rfl | hother
    · exact hnext
    · exact h other (List.mem_append_right _ (List.mem_cons_of_mem task hother))

/-- What holds of every task still does once one of them is gone. -/
theorem forall_mem_remove {p : Task α → Prop} {before after : List (Task α)} {task : Task α}
    (h : ∀ other ∈ before ++ task :: after, p other) : ∀ other ∈ before ++ after, p other := by
  intro other hother
  rcases List.mem_append.mp hother with hother | hother
  · exact h other (List.mem_append_left _ hother)
  · exact h other (List.mem_append_right _ (List.mem_cons_of_mem task hother))

/-! ## Identities -/

/-- Every launched task has an identity of its own, and the next identity is new. -/
structure State.Numbered (state : State α) : Prop where
  nodup : (state.active.map Task.id).Nodup
  lt_launched : ∀ task ∈ state.active, task.id < state.launched

theorem State.numbered_begin (options : Options) (source : Source α) :
    (State.begin options source).Numbered where
  nodup := List.nodup_nil
  lt_launched := by simp [State.begin]

/-- Tasks may leave and change, as long as no identity comes in. -/
theorem State.Numbered.of_sublist {state next : State α} (h : state.Numbered)
    (hids : (next.active.map Task.id).Sublist (state.active.map Task.id))
    (hlaunched : next.launched = state.launched) : next.Numbered where
  nodup := hids.nodup h.nodup
  lt_launched := by
    intro task htask
    obtain ⟨other, hother, hid⟩ :=
      List.mem_map.mp (hids.subset (List.mem_map_of_mem (f := Task.id) htask))
    rw [hlaunched, ← hid]
    exact h.lt_launched other hother

theorem State.Numbered.launch {state : State α} (h : state.Numbered) (bundle : Pending α)
    (queue : List (Pending α)) : (state.launch bundle queue).Numbered where
  nodup := by
    simp only [State.launch, List.map_append, List.map_cons, List.map_nil]
    refine List.nodup_append.mpr ⟨h.nodup, List.pairwise_singleton _ _, ?_⟩
    intro id hid other hother
    obtain ⟨task, htask, rfl⟩ := List.mem_map.mp hid
    rw [List.mem_singleton.mp hother]
    exact Nat.ne_of_lt (h.lt_launched task htask)
  lt_launched := by
    intro task htask
    rcases List.mem_append.mp htask with htask | htask
    · exact Nat.lt_succ_of_lt (h.lt_launched task htask)
    · rw [List.mem_singleton.mp htask]
      exact Nat.lt_succ_self _

/-! ## Joins -/

section Receive

variable (state : State α) (task : Task α) (outcome : Outcome α)

@[simp] theorem State.receive_active :
    (state.receive task outcome).active = removeTask task.id state.active := by
  cases outcome <;> rfl

@[simp] theorem State.receive_queue : (state.receive task outcome).queue = state.queue := by
  cases outcome <;> rfl

@[simp] theorem State.receive_permits : (state.receive task outcome).permits = state.permits := by
  cases outcome <;> rfl

@[simp] theorem State.receive_launched :
    (state.receive task outcome).launched = state.launched := by
  cases outcome <;> rfl

@[simp] theorem State.receive_dynamicSplits :
    (state.receive task outcome).dynamicSplits = state.dynamicSplits := by
  cases outcome <;> rfl

end Receive

/-! ## Rebalancing -/

/-- The least advanced of some readers is one of them, and a candidate. -/
theorem leastAdvanced_eq_some {readers : List (Nat × Reader α)} {id : Nat} {reader : Reader α}
    {consumed : Numeric.Binary64} (h : leastAdvanced readers = some (id, reader, consumed)) :
    (id, reader) ∈ readers ∧ candidate? reader = some consumed := by
  induction readers generalizing id reader consumed with
  | nil => simp [leastAdvanced] at h
  | cons head rest ih =>
      obtain ⟨headId, headReader⟩ := head
      simp only [leastAdvanced] at h
      split at h
      · exact (ih h).imp_left (List.mem_cons_of_mem _)
      next hcandidate _ =>
        cases h
        exact ⟨List.mem_cons_self, hcandidate⟩
      next hcandidate hleast =>
        split at h
        · cases h
          exact (ih hleast).imp_left (List.mem_cons_of_mem _)
        · cases h
          exact ⟨List.mem_cons_self, hcandidate⟩

/-- Rebalancing splits one of the readers it is given. -/
theorem rebalance_eq_some {fraction : Numeric.Binary64} {readers : List (Nat × Reader α)}
    {made : Rebalanced α} (h : rebalance fraction readers = some made) :
    ∃ reader, (made.id, reader) ∈ readers ∧ candidate? reader = some made.consumed ∧
      reader.split fraction = (some made.residual, made.reader) := by
  unfold rebalance at h
  cases hleast : leastAdvanced readers with
  | none => simp [hleast] at h
  | some least =>
      obtain ⟨id, reader, consumed⟩ := least
      obtain ⟨hmem, hcandidate⟩ := leastAdvanced_eq_some hleast
      simp only [hleast, Option.bind_eq_bind, Option.bind_some] at h
      split at h
      next hsplit =>
        cases h
        exact ⟨reader, hmem, hcandidate, hsplit⟩
      · simp at h

/-! ## Transitions -/

/-- What an event can make of a state whose tasks have identities of their own. -/
inductive Transition (options : Options) (crashes : Bytes → Bool) (state : State α) :
    State α → Prop
  /-- The event cannot happen. -/
  | idle : Transition options crashes state state
  | launch (bundle : Pending α) (queue : List (Pending α)) (hcontrol : state.control = .launching)
      (hqueue : state.queue = bundle :: queue) (hpermit : 0 < state.permits) :
      Transition options crashes state (state.launch bundle queue)
  /-- No task is left when launching stops. -/
  | complete (hcontrol : state.control = .launching)
      (hstuck : state.queue = [] ∨ state.permits = 0) (hactive : state.active = []) :
      Transition options crashes state
        (state.finish (.ok (report state.finished state.dynamicSplits)))
  /-- Launching stops, and some task is left. -/
  | wait (hcontrol : state.control = .launching) (hactive : state.active ≠ []) :
      Transition options crashes state { state with control := .waiting }
  | work (before after : List (Task α)) (task : Task α)
      (hactive : state.active = before ++ task :: after) :
      Transition options crashes state
        { state with
          active := before ++ task.work crashes state.abort :: after
          permits := if task.releases then state.permits + 1 else state.permits }
  /-- A task that has ended is joined. -/
  | receive (before after : List (Task α)) (task : Task α) (outcome : Outcome α)
      (hcontrol : state.control = .waiting) (hactive : state.active = before ++ task :: after)
      (hphase : task.phase = .released outcome)
      (hremove : removeTask task.id state.active = before ++ after) :
      Transition options crashes state (state.receive task outcome)
  /-- A tick that splits no reader. -/
  | pass (hcontrol : state.control = .waiting) :
      Transition options crashes state { state with control := .launching }
  /-- A tick that splits the reader of a task. -/
  | rebalance (before after : List (Task α)) (task : Task α) (reader : Reader α)
      (residual : Source α) (consumed : Numeric.Binary64) (hcontrol : state.control = .waiting)
      (hactive : state.active = before ++ task :: after) (hqueue : state.queue = [])
      (hpermit : 0 < state.permits) (hcandidate : candidate? task.reader = some consumed)
      (hsplit : task.reader.split options.splitFraction = (some residual, reader)) :
      Transition options crashes state
        { state with
          control := .launching
          active := before ++ { task with reader } :: after
          queue := [⟨residual, true⟩]
          dynamicSplits := state.dynamicSplits + 1
          notices := .split residual.start residual.stop consumed :: state.notices }

variable {options : Options} {crashes : Bytes → Bool} {state : State α}

theorem transition_stopLaunching (hcontrol : state.control = .launching)
    (hstuck : state.queue = [] ∨ state.permits = 0) :
    Transition options crashes state state.stopLaunching := by
  unfold State.stopLaunching
  split
  next hactive => exact Transition.complete hcontrol hstuck (List.isEmpty_iff.mp hactive)
  next hactive => exact Transition.wait hcontrol (mt List.isEmpty_iff.mpr hactive)

theorem transition_proceed : Transition options crashes state state.proceed := by
  unfold State.proceed
  split
  next hcontrol =>
    split
    next hqueue => exact transition_stopLaunching hcontrol (Or.inl hqueue)
    next bundle queue hqueue =>
      split
      next hpermit => exact Transition.launch bundle queue hcontrol hqueue hpermit
      next hpermit =>
        exact transition_stopLaunching hcontrol (Or.inr (Nat.eq_zero_of_not_pos hpermit))
  · exact Transition.idle

theorem transition_work (h : state.Numbered) (id : Nat) :
    Transition options crashes state (state.work crashes id) := by
  unfold State.work
  split
  · exact Transition.idle
  next task hfind =>
    obtain ⟨-, before, after, hactive, hother⟩ := exists_append_of_findTask h.nodup hfind
    rw [hactive, putTask_append (task.work_id crashes state.abort) hother]
    exact Transition.work before after task hactive

theorem transition_join (h : state.Numbered) (id : Nat) :
    Transition options crashes state (state.join id) := by
  unfold State.join
  split
  next task hcontrol hfind =>
    obtain ⟨-, before, after, hactive, hother⟩ := exists_append_of_findTask h.nodup hfind
    split
    next outcome houtcome =>
      have hphase := Task.phase_of_outcome? houtcome
      refine Transition.receive before after task outcome hcontrol hactive hphase ?_
      rw [hactive, removeTask_append hother]
    · exact Transition.idle
  · exact Transition.idle

theorem transition_tick (h : state.Numbered) (order : List Nat) :
    Transition options crashes state (state.tick options.splitFraction order) := by
  unfold State.tick
  split
  next hcontrol =>
    dsimp only
    split
    next hidle =>
      obtain ⟨hqueue, hpermit⟩ : state.queue = [] ∧ 0 < state.permits := by simpa using hidle
      split
      · exact Transition.pass hcontrol
      next made hmade =>
        obtain ⟨reader, hmem, hcandidate, hsplit⟩ := rebalance_eq_some hmade
        obtain ⟨id, -, hpair⟩ := List.mem_filterMap.mp hmem
        obtain ⟨task, hfind, hpair⟩ := Option.map_eq_some_iff.mp hpair
        cases hpair
        obtain ⟨hid, before, after, hactive, hother⟩ := exists_append_of_findTask h.nodup hfind
        rw [hqueue, hactive, ← hid,
          map_ite_id (fun task => { task with reader := made.reader }) hother]
        exact Transition.rebalance before after task made.reader made.residual made.consumed
          hcontrol hactive hqueue hpermit hcandidate hsplit
    · exact Transition.pass hcontrol
  · exact Transition.idle

/-- Whatever happens is one of the transitions. -/
theorem transition_step (h : state.Numbered) (event : RunEvent) :
    Transition options crashes state (state.step options crashes event) := by
  cases event with
  | proceed => exact transition_proceed
  | work id => exact transition_work h id
  | join id => exact transition_join h id
  | tick order => exact transition_tick h order

/-- No transition uses an identity twice. -/
theorem Transition.numbered {next : State α} (h : Transition options crashes state next)
    (hnumbered : state.Numbered) : next.Numbered := by
  cases h with
  | idle => exact hnumbered
  | launch bundle queue hcontrol hqueue hpermit => exact hnumbered.launch bundle queue
  | complete hcontrol hstuck hactive => exact hnumbered.of_sublist (List.Sublist.refl _) rfl
  | wait hcontrol hactive => exact hnumbered.of_sublist (List.Sublist.refl _) rfl
  | work before after task hactive =>
      refine hnumbered.of_sublist ?_ rfl
      simp [hactive]
  | receive before after task outcome hcontrol hactive hphase hremove =>
      refine hnumbered.of_sublist (List.Sublist.map Task.id ?_) ?_
      · cases outcome <;> exact List.filter_sublist
      · cases outcome <;> rfl
  | pass hcontrol => exact hnumbered.of_sublist (List.Sublist.refl _) rfl
  | rebalance before after task reader residual consumed hcontrol hactive hqueue hpermit
      hcandidate hsplit =>
      refine hnumbered.of_sublist ?_ rfl
      simp [hactive]

/-- Tasks have identities of their own all the time. -/
theorem State.Numbered.run (h : state.Numbered) (events : List RunEvent) :
    (state.run options crashes events).Numbered := by
  induction events generalizing state with
  | nil => exact h
  | cons event rest ih => exact ih ((transition_step h event).numbered h)

/-- What every event keeps while tasks have identities of their own, every run keeps. -/
theorem State.run_induction {p : State α → Prop}
    (hstep : ∀ state event, State.Numbered state → p state → p (state.step options crashes event))
    (hnumbered : state.Numbered) (h : p state) (events : List RunEvent) :
    p (state.run options crashes events) := by
  induction events generalizing state with
  | nil => exact h
  | cons event rest ih =>
      exact ih ((transition_step hnumbered event).numbered hnumbered)
        (hstep state event hnumbered h)

/-! ## Permits -/

/-- All permits there are: the free ones, and those of tasks that have not given theirs back. -/
def State.permitTotal (state : State α) : Nat :=
  state.permits + state.active.countP Task.holdsPermit

theorem permitTotal_launch (bundle : Pending α) (queue : List (Pending α))
    (hpermit : 0 < state.permits) :
    (state.launch bundle queue).permitTotal = state.permitTotal := by
  simp only [State.permitTotal, State.launch, List.countP_append, List.countP_singleton,
    Task.holdsPermit, if_true]
  omega

theorem permitTotal_work {before after : List (Task α)} {task : Task α}
    (hactive : state.active = before ++ task :: after) :
    { state with
      active := before ++ task.work crashes state.abort :: after
      permits := if task.releases then state.permits + 1 else state.permits }.permitTotal =
      state.permitTotal := by
  simp only [State.permitTotal, hactive, List.countP_append, List.countP_cons,
    Task.holdsPermit_work]
  cases hreleases : task.releases with
  | false => simp only [Bool.not_false, Bool.and_true, Bool.false_eq_true, if_false]
  | true =>
      have hholds := Task.holdsPermit_of_releases hreleases
      simp only [hholds, if_true, Bool.not_true, Bool.and_false, Bool.false_eq_true, if_false]
      omega

theorem permitTotal_receive {before after : List (Task α)} {task : Task α} {outcome : Outcome α}
    (hactive : state.active = before ++ task :: after) (hphase : task.phase = .released outcome)
    (hremove : removeTask task.id state.active = before ++ after) :
    (state.receive task outcome).permitTotal = state.permitTotal := by
  have hreleased : task.holdsPermit = false := by simp [Task.holdsPermit, hphase]
  rw [State.permitTotal, State.receive_active, State.receive_permits, hremove, State.permitTotal,
    hactive]
  simp [hreleased]

/-- A split leaves the task its permit. -/
theorem permitTotal_rebalance {before after : List (Task α)} {task : Task α} {reader : Reader α}
    (hactive : state.active = before ++ task :: after) :
    { state with active := before ++ { task with reader } :: after }.permitTotal =
      state.permitTotal := by
  simp only [State.permitTotal, hactive, List.countP_append, List.countP_cons]
  rfl

/-- No transition makes a permit or loses one. -/
theorem Transition.permitTotal_eq {next : State α} (h : Transition options crashes state next) :
    next.permitTotal = state.permitTotal := by
  cases h with
  | idle => rfl
  | launch bundle queue hcontrol hqueue hpermit => exact permitTotal_launch bundle queue hpermit
  | complete hcontrol hstuck hactive => rfl
  | wait hcontrol hactive => rfl
  | work before after task hactive => exact permitTotal_work hactive
  | receive before after task outcome hcontrol hactive hphase hremove =>
      exact permitTotal_receive hactive hphase hremove
  | pass hcontrol => rfl
  | rebalance before after task reader residual consumed hcontrol hactive hqueue hpermit
      hcandidate hsplit => exact permitTotal_rebalance hactive

theorem parallelism_pos (options : Options) : 0 < options.parallelism :=
  Nat.lt_of_lt_of_le Nat.zero_lt_one (Nat.le_max_right _ _)

/-- Without tasks, launching only stops once nothing is queued. -/
theorem queue_eq_nil_of_stuck (htotal : 0 < state.permitTotal)
    (hstuck : state.queue = [] ∨ state.permits = 0) (hactive : state.active = []) :
    state.queue = [] := by
  rcases hstuck with hqueue | hpermits
  · exact hqueue
  -- Nobody holds a permit, so all are free, and there is at least one.
  · rw [State.permitTotal, hactive, List.countP_nil, hpermits] at htotal
    exact absurd htotal (Nat.lt_irrefl 0)

/-! ## Results -/

/-- A report goes through what was joined in the order of ranges. -/
theorem report_eq (finished : List (Finished α)) (dynamicSplits : Nat) :
    ∃ inOrder : List (Finished α), inOrder.Perm finished ∧
      inOrder.Pairwise (fun a b =>
        spanLe (a.summary.start, a.summary.stop) (b.summary.start, b.summary.stop)) ∧
      report finished dynamicSplits =
        ⟨inOrder.flatMap Finished.values, inOrder.map Finished.summary, dynamicSplits⟩ := by
  refine ⟨_, List.mergeSort_perm finished _, List.pairwise_mergeSort ?_ ?_ finished, rfl⟩
  · intro a b c
    exact spanLe_trans (a.summary.start, a.summary.stop) _ _
  · intro a b
    exact spanLe_total (a.summary.start, a.summary.stop) _

theorem State.control_of_result? {result : Except RunError (Report α)}
    (h : state.result? = some result) : state.control = .returned result := by
  unfold State.result? at h
  split at h
  next hcontrol => exact hcontrol.trans (congrArg Control.returned (Option.some.inj h))
  · cases h

/-- A run that has returned keeps its result. -/
theorem State.result?_step {result : Except RunError (Report α)}
    (h : state.result? = some result) (event : RunEvent) :
    (state.step options crashes event).result? = some result := by
  have hcontrol := State.control_of_result? h
  cases event with
  | proceed => simp only [step, proceed, hcontrol, h]
  | work id =>
      simp only [step, work]
      split <;> exact h
  | join id => simp only [step, join, hcontrol, h]
  | tick order => simp only [step, tick, hcontrol, h]

end BundledReading.Executor

import BundledReading.Executor.Schedule
import BundledReading.Proofs.Executor.Shares

/-!
# The fixed schedule

The fixed schedule takes one of the interleavings of a run. What is left to do, counted for every
queued bundle, every task and the main loop (`State.workLeft`), grows less with each of its events,
and only ticks would add to it. So it comes to an end, within the number of events that it is
given; and where it ends without closed gates, the run has returned.

## Implementation notes

A task counts three events for each element that its reader has not come past, and a few for its
beginning and its end. The counts say nothing of what the events do.
-/

namespace BundledReading

/-- The number of elements that a reader has before it, the current one included. -/
def Reader.unread {α : Type} (reader : Reader α) : Nat :=
  (reader.range.position.map fun position => reader.range.liveEnd - position).getD 0

theorem Reader.unread_of_start {α : Type} {reader next : Reader α}
    (h : reader.start = .ok (true, next)) : next.unread = reader.currentSource.size := by
  rw [start_eq] at h
  split at h
  · simp at h
  · split at h
    · rw [← (Prod.mk.inj (Except.ok.inj h)).2]
      rfl
    · simp at h

theorem Reader.unread_of_advance {α : Type} {reader next : Reader α}
    (h : reader.advance = .ok (true, next)) : next.unread < reader.unread := by
  rw [advance_eq] at h
  split at h
  · simp at h
  · split at h
    · simp at h
    next position hposition =>
      split at h
      next hmore =>
        rw [← (Prod.mk.inj (Except.ok.inj h)).2, unread, unread, hposition]
        simp only [Option.map_some, Option.getD_some]
        omega
      · simp at h

namespace Executor

variable {α : Type} {options : Options} {crashes : Bytes → Bool} {gates : List Bytes}
  {source : Source α} {state : State α} {task : Task α}

/-! ## What is left to do -/

/-- At least as many events as a task has before it, its join included. -/
def Task.workLeft (task : Task α) : Nat :=
  match task.phase with
  | .starting => 3 * task.reader.currentSource.size + 8
  | .checking => 3 * task.reader.unread + 7
  | .reading => 3 * task.reader.unread + 6
  | .advancing => 3 * task.reader.unread + 5
  | .closing => 4
  | .ended _ => 3
  | .released _ => 2

/-- At least as many events as a queued bundle has before it, its launch included. -/
def Pending.workLeft (bundle : Pending α) : Nat := 3 * bundle.source.size + 9

/-- A launching loop has to stop launching. -/
def Control.workLeft : Control α → Nat
  | .launching => 1
  | _ => 0

/-- At least as many events as a run has before it, but for ticks. -/
def State.workLeft (state : State α) : Nat :=
  (state.queue.map Pending.workLeft).sum + (state.active.map Task.workLeft).sum +
    state.control.workLeft

/-- A task that cannot be joined has less to do after each of its steps. -/
theorem Task.workLeft_work (abort : Bool) (h : task.outcome? = none) :
    (task.work crashes abort).workLeft < task.workLeft := by
  obtain ⟨id, dynamic, reader, readBack, phase⟩ := task
  cases phase with
  | starting =>
      dsimp only [work]
      split
      · simp [workLeft]
      next more next hnext =>
        cases more with
        | false => simp [workLeft]
        | true => simp [workLeft, Reader.unread_of_start hnext]
  | checking => cases abort <;> simp [work, workLeft]
  | reading =>
      dsimp only [work]
      split
      · simp [workLeft]
      · split <;> simp [workLeft]
  | advancing =>
      dsimp only [work]
      split
      · simp [workLeft]
      next more next hnext =>
        cases more with
        | false => simp [workLeft]
        | true =>
            have := Reader.unread_of_advance hnext
            simp only [workLeft, if_true]
            omega
  | closing => simp [work, workLeft]
  | ended outcome => simp [work, workLeft]
  | released outcome => simp [outcome?] at h

/-! ## Events of the schedule -/

theorem State.workLeft_launch {bundle : Pending α} {queue : List (Pending α)}
    (hqueue : state.queue = bundle :: queue) :
    (state.launch bundle queue).workLeft < state.workLeft := by
  have htask : Task.workLeft ⟨state.launched, bundle.dynamic, Reader.ofSource bundle.source, [],
      .starting⟩ + 1 = bundle.workLeft := rfl
  simp only [workLeft, launch, hqueue, List.map_append, List.map_cons, List.map_nil,
    List.sum_append, List.sum_cons, List.sum_nil]
  omega

theorem State.workLeft_proceed (h : state.control = .launching) :
    state.proceed.workLeft < state.workLeft := by
  have hstop : state.stopLaunching.workLeft < state.workLeft := by
    unfold stopLaunching
    split <;> simp [workLeft, finish, Control.workLeft, h]
  simp only [proceed, h]
  split
  · exact hstop
  next bundle queue hqueue =>
    split
    · exact workLeft_launch hqueue
    · exact hstop

theorem State.workLeft_work (hnumbered : state.Numbered) (htask : task ∈ state.active)
    (h : task.outcome? = none) : (state.work crashes task.id).workLeft < state.workLeft := by
  have hfind := findTask_of_mem hnumbered.nodup htask
  obtain ⟨-, before, after, hactive, hother⟩ := exists_append_of_findTask hnumbered.nodup hfind
  have hless : (task.work crashes state.abort).workLeft < task.workLeft :=
    task.workLeft_work state.abort h
  simp only [work, hfind, workLeft]
  rw [hactive, putTask_append (task.work_id crashes state.abort) hother]
  simp only [List.map_append, List.map_cons, List.sum_append, List.sum_cons]
  omega

theorem State.workLeft_join (hnumbered : state.Numbered) (hcontrol : state.control = .waiting)
    (htask : task ∈ state.active) (h : task.outcome?.isSome = true) :
    (state.join task.id).workLeft < state.workLeft := by
  have hfind := findTask_of_mem hnumbered.nodup htask
  obtain ⟨-, before, after, hactive, hother⟩ := exists_append_of_findTask hnumbered.nodup hfind
  obtain ⟨outcome, houtcome⟩ := Option.isSome_iff_exists.mp h
  have hleft : task.workLeft = 2 := by
    rw [Task.workLeft, Task.phase_of_outcome? houtcome]
  have hreceived : (state.receive task outcome).control.workLeft ≤ 1 := by
    cases outcome <;> simp [receive, finish, Control.workLeft]
  simp only [join, hcontrol, hfind, houtcome, workLeft, receive_queue, receive_active]
  rw [hactive, removeTask_append hother]
  simp only [List.map_append, List.map_cons, List.sum_append, List.sum_cons, hleft]
  omega

/-- Every event of the schedule leaves less to do. -/
theorem State.workLeft_step (hnumbered : state.Numbered) {event : RunEvent}
    (h : state.nextEvent? gates = some event) :
    (state.step options crashes event).workLeft < state.workLeft := by
  unfold nextEvent? at h
  split at h
  · simp at h
  next hcontrol =>
    cases h
    exact workLeft_proceed hcontrol
  next hcontrol =>
    split at h
    next task htask =>
      cases h
      have hworks : task.canWork gates = true := List.find?_some htask
      have hends : task.outcome?.isNone = true := (Bool.and_eq_true_iff.mp hworks).1
      exact workLeft_work hnumbered (List.mem_of_find?_eq_some htask) (by simpa using hends)
    · obtain ⟨task, htask, rfl⟩ := Option.map_eq_some_iff.mp h
      exact workLeft_join hnumbered hcontrol (List.mem_of_find?_eq_some htask)
        (by simpa using List.find?_some htask)

/-! ## Settling -/

/-- What settles has been run by some events, and nothing more can go on. -/
theorem State.exists_run_settleFor {fuel : Nat} (hnumbered : state.Numbered)
    (hfuel : state.workLeft ≤ fuel) :
    ∃ events, state.settleFor options crashes gates fuel = state.run options crashes events ∧
      (state.settleFor options crashes gates fuel).nextEvent? gates = none := by
  induction fuel generalizing state with
  | zero =>
      refine ⟨[], rfl, ?_⟩
      cases hnext : state.nextEvent? gates with
      | none => exact hnext
      | some event =>
          have hless : (state.step options crashes event).workLeft < state.workLeft :=
            workLeft_step hnumbered hnext
          omega
  | succ fuel ih =>
      rw [settleFor]
      split
      next hnext => exact ⟨[], rfl, hnext⟩
      next event hnext =>
        have hless : (state.step options crashes event).workLeft < state.workLeft :=
          workLeft_step hnumbered hnext
        have hafter : (state.step options crashes event).Numbered :=
          (transition_step hnumbered event).numbered hnumbered
        obtain ⟨events, hrun, hsettled⟩ := ih hafter (by omega)
        exact ⟨event :: events, hrun, hsettled⟩

/-- With all gates open, a task can work or be joined. -/
theorem Task.canWork_of_outcome? (h : task.outcome? = none) : task.canWork [] = true := by
  have hheld : task.isHeld [] = false := by
    unfold isHeld
    split <;> simp
  simp [canWork, h, hheld]

/-- With all gates open, a run that cannot go on has returned. -/
theorem State.Coherent.isSome_result? {lost : List Share}
    (h : state.Coherent options source lost) (hsettled : state.nextEvent? [] = none) :
    state.result?.isSome = true := by
  unfold State.nextEvent? at hsettled
  split at hsettled
  next result hcontrol => simp [State.result?, hcontrol]
  · simp at hsettled
  next hcontrol =>
    -- A waiting loop has a task, and whatever its phase, there is an event for it.
    obtain ⟨task, htask⟩ := List.exists_mem_of_ne_nil _ (h.waiting_active hcontrol)
    split at hsettled
    · simp at hsettled
    next hworks =>
      have hends := List.find?_eq_none.mp (Option.map_eq_none_iff.mp hsettled) task htask
      have hnone : task.outcome? = none := by simpa using hends
      exact absurd (Task.canWork_of_outcome? hnone) (List.find?_eq_none.mp hworks task htask)

theorem sum_workLeft (bundles : List (Source α)) :
    ((bundles.map fun bundle => (⟨bundle, false⟩ : Pending α)).map Pending.workLeft).sum =
      3 * (bundles.map Source.size).sum + 9 * bundles.length := by
  induction bundles with
  | nil => rfl
  | cons bundle rest ih =>
      simp only [List.map_cons, List.sum_cons, List.length_cons, ih, Pending.workLeft]
      omega

/-- There is enough fuel for a whole run. -/
theorem State.workLeft_begin_le (options : Options) (hvalid : source.Valid) :
    (State.begin options source).workLeft ≤ settleBound source.size := by
  let bundles := source.bundles options.desiredBundleBytes.toNat
  have hsizes : (bundles.map Source.size).sum = source.size := by
    have hlengths :=
      (source.consecutive_bundles options.desiredBundleBytes.toNat hvalid.start_le_stop).sum_lengths
    rwa [List.map_map] at hlengths
  have hcount : bundles.length ≤ max 1 source.size := by
    have hlength :=
      (source.tiles_bundles options.desiredBundleBytes.toNat hvalid.start_le_stop).length_le
    rwa [List.length_map] at hlength
  have hqueue : ((State.begin options source).queue.map Pending.workLeft).sum =
      3 * (bundles.map Source.size).sum + 9 * bundles.length := sum_workLeft bundles
  have hcontrol : (State.begin options source).control.workLeft ≤ 1 := by
    simp only [State.begin]
    split <;> simp [Control.workLeft]
  have hactive : ((State.begin options source).active.map Task.workLeft).sum = 0 := rfl
  rw [workLeft, hqueue, hactive, settleBound, hsizes]
  omega

/-- The fixed schedule returns, and leaves behind what some run leaves behind. -/
theorem runToEnd_returns (options : Options) (hvalid : source.Valid) :
    ∃ events ending, runToEnd options source = some ending ∧
      ((State.begin options source).run options (fun _ => false) events).ending? =
        some ending := by
  let settled := (State.begin options source).settleFor options (fun _ => false) []
    (settleBound source.size)
  obtain ⟨events, hrun, hsettled⟩ : ∃ events,
      settled = (State.begin options source).run options (fun _ => false) events ∧
        settled.nextEvent? [] = none :=
    State.exists_run_settleFor (State.numbered_begin options source)
      (State.workLeft_begin_le options hvalid)
  obtain ⟨lost, hcoherent⟩ : ∃ lost, ((State.begin options source).run options (fun _ => false)
    events).Coherent options source lost := coherent_of_run hvalid events
  rw [← hrun] at hcoherent
  obtain ⟨result, hresult⟩ := Option.isSome_iff_exists.mp (hcoherent.isSome_result? hsettled)
  have hending : settled.ending? =
      some ⟨result, settled.notices.reverse, settled.active.length⟩ := by
    rw [State.ending?, hresult]
    rfl
  exact ⟨events, _, hending, hrun ▸ hending⟩

end Executor

end BundledReading

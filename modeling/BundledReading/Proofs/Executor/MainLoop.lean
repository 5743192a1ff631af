import BundledReading.Proofs.Executor.Shares
import Mathlib.Order.Lattice.Nat

/-!
# The main loop of a run

The main loop keeps books: every bundle that was ever queued has been launched or is still queued,
first in, first out (`State.Ledger`), and the bundles that it has launched, joined and split off are
no more than there are elements. So along an endless sequence of events nothing of this changes any
more from some event on. A loop that goes on fairly cannot stay in such a state while its tasks end:
it would come to wait for a task that has ended, and join it.

## Implementation notes

Permits come back from tasks before these are joined, so the numbers of free permits and of tasks
drift apart; what is kept is their sum over the tasks that have not ended. The order of events is
left open but for fairness: a tick may come whenever the loop waits.
-/

namespace BundledReading.Executor

variable {α : Type} {options : Options} {crashes : Bytes → Bool} {source : Source α}
  {state next : State α}

/-! ## The ledger -/

/-- What was launched, in order. Notices come with the last one first. -/
def launches : List Notice → List Share
  | [] => []
  | .launched start stop dynamic :: earlier => launches earlier ++ [⟨(start, stop), dynamic⟩]
  | _ :: earlier => launches earlier

/-- What was split off, in order. -/
def residuals : List Notice → List Share
  | [] => []
  | .split start stop _ :: earlier => residuals earlier ++ [⟨(start, stop), true⟩]
  | _ :: earlier => residuals earlier

/-- What is queued in the beginning. -/
def staticShares (options : Options) (source : Source α) : List Share :=
  (source.bundles options.desiredBundleBytes.toNat).map fun bundle => ⟨bundle.span, false⟩

/-- The static bundles and what was split off are what was launched and what is still queued, in
this order. -/
structure State.Ledger (options : Options) (source : Source α) (state : State α) : Prop where
  queued_eq : launches state.notices ++ state.queue.map Pending.share =
    staticShares options source ++ residuals state.notices
  launched_eq : (launches state.notices).length = state.launched
  splits_eq : (residuals state.notices).length = state.dynamicSplits

theorem State.ledger_begin (options : Options) (source : Source α) :
    (State.begin options source).Ledger options source where
  queued_eq := by simp [State.begin, launches, residuals, staticShares, Pending.share]
  launched_eq := rfl
  splits_eq := rfl

/-- Launching takes the first of the queue. -/
theorem State.Ledger.launch (h : state.Ledger options source) {bundle : Pending α}
    {queue : List (Pending α)} (hqueue : state.queue = bundle :: queue) :
    (state.launch bundle queue).Ledger options source where
  queued_eq := by
    have hqueued := h.queued_eq
    rw [hqueue, List.map_cons, List.append_cons] at hqueued
    exact hqueued
  launched_eq := by
    rw [State.launch, launches, List.length_append, h.launched_eq]
    rfl
  splits_eq := h.splits_eq

/-- A join only has its own notice. -/
theorem State.Ledger.receive (h : state.Ledger options source) (task : Task α)
    (outcome : Outcome α) : (state.receive task outcome).Ledger options source := by
  cases outcome <;> exact ⟨h.queued_eq, h.launched_eq, h.splits_eq⟩

/-- Every transition keeps the ledger. -/
theorem Transition.ledger (h : Transition options crashes state next)
    (hledger : state.Ledger options source) : next.Ledger options source := by
  cases h with
  | launch bundle queue hcontrol hqueue hpermit => exact hledger.launch hqueue
  | receive before after task outcome hcontrol hactive hphase hremove =>
      exact hledger.receive task outcome
  | rebalance before after task reader residual consumed hcontrol hactive hqueue hpermit
      hcandidate hsplit =>
      have hqueued := hledger.queued_eq
      rw [hqueue, List.map_nil, List.append_nil] at hqueued
      refine ⟨?_, hledger.launched_eq, ?_⟩
      · change launches state.notices ++ [Pending.share ⟨residual, true⟩] = _
        rw [hqueued, residuals, List.append_assoc]
        rfl
      · rw [residuals, List.length_append, hledger.splits_eq]
        rfl
  | _ => exact ⟨hledger.queued_eq, hledger.launched_eq, hledger.splits_eq⟩

/-! ## Bounds -/

namespace State.Coherent

variable {lost : List Share} (h : state.Coherent options source lost)
include h

/-- There are no more static bundles and splits than elements, but for the bundle of an empty
source. -/
theorem splits_le : (source.bundles options.desiredBundleBytes.toNat).length +
    state.dynamicSplits ≤ max 1 source.size := by
  have hle := h.refines.length_le
  rwa [List.length_map] at hle

/-- Everything that is queued, launched and not joined, or joined has a share. -/
theorem length_eq : lost.length + state.queue.length + state.active.length +
    state.finished.length =
      (source.bundles options.desiredBundleBytes.toNat).length + state.dynamicSplits := by
  have hlength := h.refines.length_eq
  rw [List.length_map] at hlength
  simp only [State.shares, List.length_append, List.length_map] at hlength
  omega

end State.Coherent

/-- There are no more launches than static bundles and splits. -/
theorem State.Ledger.length_eq (h : state.Ledger options source) :
    state.launched + state.queue.length =
      (source.bundles options.desiredBundleBytes.toNat).length + state.dynamicSplits := by
  have hlength := congrArg List.length h.queued_eq
  simpa [staticShares, h.launched_eq, h.splits_eq] using hlength

/-! ## What is done for good -/

/-- Counts what is never undone: launches, joins that take up values, and splits. -/
def State.progress (state : State α) : Nat :=
  state.launched + state.finished.length + state.dynamicSplits

/-- No transition undoes a launch, a join or a split. -/
theorem Transition.counts_le (h : Transition options crashes state next) :
    state.launched ≤ next.launched ∧ state.finished.length ≤ next.finished.length ∧
      state.dynamicSplits ≤ next.dynamicSplits := by
  cases h with
  | launch bundle queue hcontrol hqueue hpermit =>
      exact ⟨Nat.le_succ _, Nat.le_refl _, Nat.le_refl _⟩
  | receive before after task outcome hcontrol hactive hphase hremove =>
      refine ⟨by simp, ?_, by simp⟩
      cases outcome <;> simp [State.receive, State.finish]
  | rebalance before after task reader residual consumed hcontrol hactive hqueue hpermit
      hcandidate hsplit => exact ⟨Nat.le_refl _, Nat.le_refl _, Nat.le_succ _⟩
  | _ => exact ⟨Nat.le_refl _, Nat.le_refl _, Nat.le_refl _⟩

/-- A transition that launches nothing, joins nothing with its values, and splits nothing. -/
structure Quiet (state next : State α) : Prop where
  launched_eq : next.launched = state.launched
  finished_eq : next.finished.length = state.finished.length
  splits_eq : next.dynamicSplits = state.dynamicSplits

/-- A tick that splits nothing makes a waiting loop go round, and changes nothing else. -/
theorem tick_of_quiet {fraction : Numeric.Binary64} {order : List Nat}
    (h : Quiet state (state.tick fraction order)) :
    state.tick fraction order = state ∨
      state.tick fraction order = { state with control := .launching } := by
  have hsplits := h.splits_eq
  unfold State.tick at hsplits ⊢
  split at hsplits
  · right
    dsimp only at hsplits ⊢
    split
    next hidle =>
      rw [if_pos hidle] at hsplits
      split at hsplits
      · rfl
      · exact absurd hsplits (Nat.succ_ne_self _)
    · rfl
  · exact .inl rfl

/-- Each task of the first list is in the second as well, and has not come back from its end. -/
def KeepsTasks (tasks others : List (Task α)) : Prop :=
  ∀ task ∈ tasks, ∃ other ∈ others, other.id = task.id ∧
    (task.outcome?.isSome = true → other.outcome?.isSome = true)

theorem KeepsTasks.refl (tasks : List (Task α)) : KeepsTasks tasks tasks :=
  fun task htask => ⟨task, htask, rfl, id⟩

theorem KeepsTasks.trans {tasks others more : List (Task α)} (h : KeepsTasks tasks others)
    (hmore : KeepsTasks others more) : KeepsTasks tasks more := by
  intro task htask
  obtain ⟨other, hother, hid, hends⟩ := h task htask
  obtain ⟨last, hlast, hidLast, hendsLast⟩ := hmore other hother
  exact ⟨last, hlast, hidLast.trans hid, fun h => hendsLast (hends h)⟩

/-- One task may go on by itself. -/
theorem KeepsTasks.replace {before after : List (Task α)} {task other : Task α}
    (hid : other.id = task.id)
    (hends : task.outcome?.isSome = true → other.outcome?.isSome = true) :
    KeepsTasks (before ++ task :: after) (before ++ other :: after) := by
  intro member hmember
  rcases List.mem_append.mp hmember with hbefore | hrest
  · exact ⟨member, List.mem_append_left _ hbefore, rfl, id⟩
  rcases List.mem_cons.mp hrest with rfl | hafter
  · exact ⟨other, by simp, hid, hends⟩
  · exact ⟨member, by simp [hafter], rfl, id⟩

/-- A task that has ended stays as it is. -/
theorem Task.outcome?_work {task : Task α} (abort : Bool) (h : task.outcome?.isSome = true) :
    (task.work crashes abort).outcome?.isSome = true := by
  obtain ⟨outcome, houtcome⟩ := Option.isSome_iff_exists.mp h
  simp [work, outcome?, phase_of_outcome? houtcome]

/-- Only a join takes a task away. -/
theorem Transition.keepsTasks (h : Transition options crashes state next)
    (hfinished : next.finished.length = state.finished.length) (hresult : next.result? = none) :
    KeepsTasks state.active next.active := by
  cases h with
  | launch bundle queue hcontrol hqueue hpermit =>
      exact fun task htask => ⟨task, List.mem_append_left _ htask, rfl, id⟩
  | work before after task hactive =>
      rw [hactive]
      exact KeepsTasks.replace (task.work_id crashes state.abort) (task.outcome?_work state.abort)
  | receive before after task outcome hcontrol hactive hphase hremove =>
      cases outcome with
      | read final values => simp [State.receive] at hfinished
      | failed cause => cases hresult
      | crashed => cases hresult
  | rebalance before after task reader residual consumed hcontrol hactive hqueue hpermit
      hcandidate hsplit =>
      rw [hactive]
      exact KeepsTasks.replace rfl id
  | _ => exact .refl _

/-- A launching loop that goes on launches a bundle, returns, or waits. -/
theorem proceed_of_launching (h : state.control = .launching) :
    state.proceed.launched = state.launched + 1 ∨ state.proceed.result? ≠ none ∨
      state.proceed.control = .waiting := by
  have hstop : state.stopLaunching.result? ≠ none ∨ state.stopLaunching.control = .waiting := by
    unfold State.stopLaunching
    split
    · exact .inl (Option.some_ne_none _)
    · exact .inr rfl
  simp only [State.proceed, h]
  split
  · exact .inr hstop
  · split
    · exact .inl rfl
    · exact .inr hstop

/-! ## Endless sequences of events -/

/-- The state that a run comes to by the first `count` events of an endless sequence. -/
def stateAfter (options : Options) (crashes : Bytes → Bool) (source : Source α)
    (events : Nat → RunEvent) (count : Nat) : State α :=
  (State.begin options source).run options crashes ((List.range count).map events)

/-- The main loop can join a task at once. -/
def State.CanJoin (state : State α) : Prop :=
  state.control = .waiting ∧ ∃ task ∈ state.active, task.outcome?.isSome = true

/-- The main loop joins a task by this event. -/
def State.Joins (state : State α) (event : RunEvent) : Prop :=
  state.control = .waiting ∧
    ∃ task ∈ state.active, task.outcome?.isSome = true ∧ event = .join task.id

/-- A main loop that does not stand still while it launches, and that does not take ticks forever
when it can join a task over and over again. -/
structure FairLoop (states : Nat → State α) (events : Nat → RunEvent) : Prop where
  proceeds : ∀ n, ∃ m ≥ n, (states m).control = .launching → events m = .proceed
  joins : (∀ n, ∃ m ≥ n, (states m).CanJoin) → ∀ n, ∃ m ≥ n, (states m).Joins (events m)

/-- Every launched task comes to its end at some time. -/
def TasksEnd (states : Nat → State α) : Prop :=
  ∀ n, ∀ task ∈ (states n).active, ∃ m ≥ n, ∀ other ∈ (states m).active, other.id = task.id →
    other.outcome?.isSome = true

/-- A join takes up values or ends the run. -/
theorem step_of_joins (hnumbered : state.Numbered) {event : RunEvent} (h : state.Joins event) :
    (state.step options crashes event).finished.length = state.finished.length + 1 ∨
      (state.step options crashes event).result? ≠ none := by
  obtain ⟨hcontrol, task, htask, hends, rfl⟩ := h
  have hfind := findTask_of_mem hnumbered.nodup htask
  obtain ⟨outcome, houtcome⟩ := Option.isSome_iff_exists.mp hends
  simp only [State.step, State.join, hcontrol, hfind, houtcome]
  cases outcome with
  | read final values => exact .inl (by simp [State.receive])
  | failed cause => exact .inr (Option.some_ne_none _)
  | crashed => exact .inr (Option.some_ne_none _)

/-- A bounded sequence that never falls is constant from some place on. -/
theorem exists_constant {f : Nat → Nat} {bound : Nat} (hmono : Monotone f)
    (hbound : ∀ n, f n ≤ bound) : ∃ n, ∀ m ≥ n, f m = f n := by
  have hbounded : BddAbove (Set.range f) := ⟨bound, Set.forall_mem_range.mpr hbound⟩
  obtain ⟨n, hn⟩ := Nat.sSup_mem (Set.range_nonempty f) hbounded
  refine ⟨n, fun m hm => Nat.le_antisymm ?_ (hmono hm)⟩
  rw [hn]
  exact le_csSup hbounded (Set.mem_range_self m)

section Endless

variable (options : Options) (crashes : Bytes → Bool) (source : Source α)
  (events : Nat → RunEvent)

theorem stateAfter_succ (n : Nat) : stateAfter options crashes source events (n + 1) =
    (stateAfter options crashes source events n).step options crashes (events n) := by
  simp [stateAfter, State.run, List.range_succ]

theorem numbered_stateAfter (n : Nat) :
    (stateAfter options crashes source events n).Numbered :=
  (State.numbered_begin options source).run _

theorem ledger_stateAfter (n : Nat) :
    (stateAfter options crashes source events n).Ledger options source :=
  State.run_induction (fun _ event hnumbered h => (transition_step hnumbered event).ledger h)
    (State.numbered_begin options source) (State.ledger_begin options source) _

theorem transition_stateAfter (n : Nat) :
    Transition options crashes (stateAfter options crashes source events n)
      (stateAfter options crashes source events (n + 1)) := by
  rw [stateAfter_succ]
  exact transition_step (numbered_stateAfter options crashes source events n) (events n)

variable {source}

theorem coherent_stateAfter (hvalid : source.Valid) (n : Nat) :
    ∃ lost, (stateAfter options crashes source events n).Coherent options source lost :=
  coherent_of_run hvalid _

/-- No more bundles are launched than there are elements, but for the bundle of an empty source. -/
theorem launched_le (hvalid : source.Valid) (n : Nat) :
    (stateAfter options crashes source events n).launched ≤ max 1 source.size := by
  obtain ⟨lost, hcoherent⟩ := coherent_stateAfter options crashes events hvalid n
  have hledger := (ledger_stateAfter options crashes source events n).length_eq
  have hsplits := hcoherent.splits_le
  omega

theorem progress_le (hvalid : source.Valid) (n : Nat) :
    (stateAfter options crashes source events n).progress ≤ 3 * max 1 source.size := by
  obtain ⟨lost, hcoherent⟩ := coherent_stateAfter options crashes events hvalid n
  have hlaunched := launched_le options crashes events hvalid n
  have hshares := hcoherent.length_eq
  have hsplits := hcoherent.splits_le
  rw [State.progress]
  omega

/-- From some event on nothing is launched, nothing joined with its values, and nothing split. -/
theorem exists_quiet (hvalid : source.Valid) : ∃ n, ∀ m ≥ n,
    Quiet (stateAfter options crashes source events m)
      (stateAfter options crashes source events (m + 1)) := by
  have hcounts := fun n => (transition_stateAfter options crashes source events n).counts_le
  have hmono : Monotone fun n => (stateAfter options crashes source events n).progress := by
    refine monotone_nat_of_le_succ fun n => ?_
    obtain ⟨hlaunched, hfinished, hsplits⟩ := hcounts n
    exact Nat.add_le_add (Nat.add_le_add hlaunched hfinished) hsplits
  obtain ⟨n, hn⟩ := exists_constant hmono (progress_le options crashes events hvalid)
  refine ⟨n, fun m hm => ?_⟩
  have hnow := hn m hm
  have hnext := hn (m + 1) (Nat.le_succ_of_le hm)
  obtain ⟨hlaunched, hfinished, hsplits⟩ := hcounts m
  simp only [State.progress] at hnow hnext
  exact ⟨by omega, by omega, by omega⟩

end Endless

/-! ## Fair main loops -/

section Fair

variable {events : Nat → RunEvent} {quiet n m : Nat}
  (hquiet : ∀ m ≥ quiet, Quiet (stateAfter options crashes source events m)
    (stateAfter options crashes source events (m + 1)))
  (hnever : ∀ n, (stateAfter options crashes source events n).result? = none)
include hquiet hnever

/-- A launching loop would launch once more, or return; so it comes to wait. -/
theorem exists_waiting (hfair : FairLoop (stateAfter options crashes source events) events)
    (hn : quiet ≤ n) :
    ∃ m ≥ n, (stateAfter options crashes source events m).control = .waiting := by
  obtain ⟨m, hm, hproceeds⟩ := hfair.proceeds n
  cases hcontrol : (stateAfter options crashes source events m).control with
  | waiting => exact ⟨m, hm, hcontrol⟩
  | returned result =>
      have hnone := hnever m
      simp [State.result?, hcontrol] at hnone
  | launching =>
      have hnext := stateAfter_succ options crashes source events m
      rw [hproceeds hcontrol] at hnext
      have hsame := (hquiet m (Nat.le_trans hn hm)).launched_eq
      have hnone := hnever (m + 1)
      rw [hnext] at hsame hnone
      refine ⟨m + 1, Nat.le_succ_of_le hm, ?_⟩
      rcases proceed_of_launching hcontrol with hlaunched | hreturned | hwaiting
      · exact absurd (hlaunched.symm.trans hsame) (Nat.succ_ne_self _)
      · exact absurd hnone hreturned
      · rw [hnext]
        exact hwaiting

/-- Tasks stay as long as nothing is joined. -/
theorem keepsTasks_of_le (hn : quiet ≤ n) (hm : n ≤ m) :
    KeepsTasks (stateAfter options crashes source events n).active
      (stateAfter options crashes source events m).active := by
  induction m, hm using Nat.le_induction with
  | base => exact KeepsTasks.refl _
  | succ m hm ih =>
      refine ih.trans ?_
      exact (transition_stateAfter options crashes source events m).keepsTasks
        (hquiet m (Nat.le_trans hn hm)).finished_eq (hnever (m + 1))

/-- A task that has ended can be joined whenever the loop waits. -/
theorem exists_canJoin (hvalid : source.Valid)
    (hfair : FairLoop (stateAfter options crashes source events) events)
    (hend : TasksEnd (stateAfter options crashes source events)) (n : Nat) :
    ∃ m ≥ n, (stateAfter options crashes source events m).CanJoin := by
  obtain ⟨first, hfirst, hwaiting⟩ := exists_waiting hquiet hnever hfair (Nat.le_refl quiet)
  obtain ⟨lost, hcoherent⟩ := coherent_stateAfter options crashes events hvalid first
  obtain ⟨task, htask⟩ := List.exists_mem_of_ne_nil _ (hcoherent.waiting_active hwaiting)
  obtain ⟨ended, hended, hends⟩ := hend first task htask
  obtain ⟨other, hother, hid, -⟩ := keepsTasks_of_le hquiet hnever hfirst hended task htask
  have hquietEnded : quiet ≤ ended := Nat.le_trans hfirst hended
  obtain ⟨m, hm, hcontrol⟩ := exists_waiting hquiet hnever hfair
    (Nat.le_trans hquietEnded (Nat.le_max_right n ended))
  obtain ⟨last, hlast, -, hlastEnds⟩ := keepsTasks_of_le hquiet hnever hquietEnded
    (Nat.le_trans (Nat.le_max_right n ended) hm) other hother
  exact ⟨m, Nat.le_trans (Nat.le_max_left n ended) hm, hcontrol, last, hlast,
    hlastEnds (hends other hother hid)⟩

end Fair

variable {events : Nat → RunEvent}

/-- A fair main loop whose tasks all end returns at some time. -/
theorem exists_result (hvalid : source.Valid)
    (hfair : FairLoop (stateAfter options crashes source events) events)
    (hend : TasksEnd (stateAfter options crashes source events)) :
    ∃ n, (stateAfter options crashes source events n).result? ≠ none := by
  by_contra hall
  have hnever : ∀ n, (stateAfter options crashes source events n).result? = none := by
    simpa using hall
  obtain ⟨quiet, hquiet⟩ := exists_quiet options crashes events hvalid
  obtain ⟨m, hm, hjoins⟩ :=
    hfair.joins (exists_canJoin hquiet hnever hvalid hfair hend) quiet
  have hsame := (hquiet m hm).finished_eq
  have hnone := hnever (m + 1)
  rw [stateAfter_succ] at hsame hnone
  rcases step_of_joins (numbered_stateAfter options crashes source events m) hjoins with
    hjoined | hreturned
  · exact absurd (hjoined.symm.trans hsame) (Nat.succ_ne_self _)
  · exact hreturned hnone

/-- A run that has returned has done so for good. -/
theorem result?_stateAfter {result : Except RunError (Report α)} {n m : Nat}
    (h : (stateAfter options crashes source events n).result? = some result) (hm : n ≤ m) :
    (stateAfter options crashes source events m).result? = some result := by
  induction m, hm using Nat.le_induction with
  | base => exact h
  | succ m hm ih =>
      rw [stateAfter_succ]
      exact State.result?_step ih (events m)

/-- Nothing more is asked of a main loop that has returned. -/
theorem fairLoop_of_result {result : Except RunError (Report α)} {n : Nat}
    (h : (stateAfter options crashes source events n).result? = some result) :
    FairLoop (stateAfter options crashes source events) events where
  proceeds := by
    intro m
    refine ⟨max m n, Nat.le_max_left m n, fun hcontrol => ?_⟩
    have hresult := result?_stateAfter h (Nat.le_max_right m n)
    simp [State.result?, hcontrol] at hresult
  joins := by
    intro hcan
    obtain ⟨m, hm, hcontrol, -⟩ := hcan n
    have hresult := result?_stateAfter h hm
    simp [State.result?, hcontrol] at hresult

/-- Every task has ended once a report is returned. -/
theorem tasksEnd_of_report (hvalid : source.Valid) {report : Report α} {n : Nat}
    (h : (stateAfter options crashes source events n).result? = some (.ok report)) :
    TasksEnd (stateAfter options crashes source events) := by
  intro m task htask
  refine ⟨max m n, Nat.le_max_left m n, fun other hother => ?_⟩
  obtain ⟨lost, hcoherent⟩ := coherent_stateAfter options crashes events hvalid (max m n)
  have hactive :=
    (hcoherent.complete report (result?_stateAfter h (Nat.le_max_right m n))).2.1
  rw [hactive] at hother
  exact absurd hother List.not_mem_nil

/-- The permits of a task are back exactly if it can be joined. -/
theorem Task.holdsPermit_eq (task : Task α) : task.holdsPermit = task.outcome?.isNone := by
  obtain ⟨id, dynamic, reader, readBack, phase⟩ := task
  cases phase <;> rfl

/-- In every state of a main loop the free permits and the tasks that have not ended make up the
parallelism, and all that was ever queued was launched in its order or is still queued. A report is
returned only once all of it has been launched, and all that was launched has been joined. No more
bundles are launched than there are elements, but for the bundle of an empty source; so from some
event on ticks only make the loop go round, and if the loop is fair and every task ends, it
returns. -/
theorem main_loop_is_bounded (hvalid : source.Valid) (events : Nat → RunEvent) :
    let states := stateAfter options crashes source events
    (∀ n, (states n).permits + (states n).active.countP (fun task => task.outcome?.isNone) =
        max 1 options.maxParallelism.toNat) ∧
      (∀ n, (states n).Ledger options source) ∧
      (∀ n report, (states n).result? = some (.ok report) →
        (states n).queue = [] ∧ (states n).active = [] ∧
          launches (states n).notices =
            staticShares options source ++ residuals (states n).notices ∧
          (states n).finished.length = (states n).launched) ∧
      (∀ n, (states n).launched ≤ max 1 source.size ∧
        (source.bundles options.desiredBundleBytes.toNat).length + (states n).dynamicSplits ≤
          max 1 source.size) ∧
      (∃ n, ∀ m ≥ n, ∀ order, events m = .tick order →
        states (m + 1) = states m ∨ states (m + 1) = { states m with control := .launching }) ∧
      (FairLoop states events → TasksEnd states → ∃ n, (states n).result? ≠ none) := by
  intro states
  have hledger : ∀ n, (states n).Ledger options source :=
    ledger_stateAfter options crashes source events
  have hcoherent : ∀ n, ∃ lost, (states n).Coherent options source lost :=
    coherent_stateAfter options crashes events hvalid
  refine ⟨?_, hledger, ?_, ?_, ?_, exists_result hvalid⟩
  · intro n
    obtain ⟨lost, hstate⟩ := hcoherent n
    have hpermits := hstate.permits_eq
    rw [State.permitTotal, show Task.holdsPermit = fun task : Task α => task.outcome?.isNone from
      funext Task.holdsPermit_eq, Options.parallelism, Nat.max_comm] at hpermits
    exact hpermits
  · intro n report hreport
    obtain ⟨lost, hstate⟩ := hcoherent n
    obtain ⟨hqueue, hactive, -⟩ := hstate.complete report hreport
    have hlost := hstate.lost_eq_nil hreport
    refine ⟨hqueue, hactive, ?_, ?_⟩
    · have hqueued := (hledger n).queued_eq
      rwa [hqueue, List.map_nil, List.append_nil] at hqueued
    · have hlaunches := (hledger n).length_eq
      have hshares := hstate.length_eq
      simp only [hlost, hqueue, hactive, List.length_nil] at hlaunches hshares
      omega
  · intro n
    obtain ⟨lost, hstate⟩ := hcoherent n
    exact ⟨launched_le options crashes events hvalid n, hstate.splits_le⟩
  · obtain ⟨n, hquiet⟩ := exists_quiet options crashes events hvalid
    refine ⟨n, fun m hm order htick => ?_⟩
    have hnext : states (m + 1) = (states m).tick options.splitFraction order := by
      have hstep := stateAfter_succ options crashes source events m
      rwa [htick] at hstep
    have hstill : Quiet (states m) (states (m + 1)) := hquiet m hm
    rw [hnext] at hstill ⊢
    exact tick_of_quiet hstill

/-- The only bundle of four numbers is split while it is read. The run comes to its end, and from
then on its main loop is asked to go on in vain. -/
theorem main_loop_is_bounded_fourNumbers :
    let script : List RunEvent :=
      [.proceed, .proceed, .work 0, .tick [0], .proceed, .proceed] ++ List.replicate 9 (.work 1) ++
        [.join 1, .proceed] ++ List.replicate 8 (.work 0) ++ [.join 0, .proceed]
    let events : Nat → RunEvent := fun n => script.getD n .proceed
    let states := stateAfter {} (fun _ => false) Source.fourNumbers events
    (states 27).dynamicSplits = 1 ∧ FairLoop states events ∧ TasksEnd states ∧
      (∃ n, (states n).result? ≠ none) ∧
      ∀ n, (states n).permits + (states n).active.countP (fun task => task.outcome?.isNone) = 4 ∧
        (states n).launched ≤ 4 := by
  intro script events states
  have hvalid : Source.fourNumbers.Valid := Source.valid_ofBuffer _
  have hreturns : ((states 27).result?.any fun result => result.toOption.isSome) = true := by
    decide +kernel
  obtain ⟨result, hresult, hok⟩ := (Option.any_eq_true _ _).mp hreturns
  obtain ⟨hpermits, -, -, hlaunched, -, hends⟩ := main_loop_is_bounded hvalid events
  cases result with
  | error error => cases hok
  | ok report =>
      have hfair : FairLoop states events := fairLoop_of_result hresult
      have htasks : TasksEnd states := tasksEnd_of_report hvalid hresult
      exact ⟨by decide +kernel, hfair, htasks, hends hfair htasks,
        fun n => ⟨hpermits n, (hlaunched n).1⟩⟩

end BundledReading.Executor

import BundledReading.Proofs.Executor.Transitions

/-!
# Shares of a run

What is queued, what the launched readers cover and what was joined are the shares of a run, each
marked if it was split off a running reader. A transition takes shares up, hands them on and gives
them back as they are; a rebalance cuts one in two and marks the part behind the cut, and a failing
join loses one (`ShareChange`). So the shares, with those that were lost, tile the source and refine
the static bundles that the run has begun with (`Refines`), in every state that a run can come to.

## Implementation notes

Nothing here depends on what the coder does: a task may fail or break down at any element, and keeps
its share until it is joined. What was lost is no part of a state, so `State.Coherent` takes it as a
parameter, and only a run that has failed has lost something.
-/

namespace BundledReading.Executor

variable {α : Type} {options : Options} {crashes : Bytes → Bool} {state next : State α}
  {source : Source α}

/-! ## Settled tasks -/

/-- What a phase tells about the end of the reader, whatever the coder does. -/
def Phase.Settled (reader : Reader α) : Phase α → Prop
  | .closing => reader.range.done = true
  | .ended (.read final _) => reader.range.done = true ∧ final = reader.currentSource
  | .released (.read final _) => reader.range.done = true ∧ final = reader.currentSource
  | _ => True

/-- A task that has come to the end of its reader says truly what it covers. -/
structure Task.Settled (task : Task α) : Prop where
  reader_sound : task.reader.Sound
  phase_settled : task.phase.Settled task.reader

variable {task : Task α}

theorem Task.settled_launched {piece : Source α} (hpiece : piece.Valid) (id : Nat)
    (dynamic : Bool) : Task.Settled ⟨id, dynamic, Reader.ofSource piece, [], .starting⟩ where
  reader_sound := Reader.sound_ofSource hpiece
  phase_settled := trivial

/-- Settled phases after `start` and `advance`. -/
theorem Phase.settled_after {reader : Reader α} {more : Bool}
    (h : more = false → reader.range.done = true) :
    Phase.Settled reader (if more then .checking else .closing) := by
  cases more with
  | false => exact h rfl
  | true => trivial

theorem Task.Settled.work (h : task.Settled) (crashes : Bytes → Bool) (abort : Bool) :
    (task.work crashes abort).Settled := by
  obtain ⟨id, dynamic, reader, readBack, phase⟩ := task
  obtain ⟨hreader, hphase⟩ := h
  dsimp only at hreader hphase
  cases phase with
  | starting =>
      dsimp only [Task.work]
      cases hstart : reader.start with
      | error cause => exact ⟨hreader, trivial⟩
      | ok answer =>
          obtain ⟨more, next⟩ := answer
          refine ⟨(Reader.change_of_start hstart).sound hreader, Phase.settled_after ?_⟩
          rintro rfl
          exact Reader.done_of_start hstart
  | checking =>
      dsimp only [Task.work]
      cases abort <;> exact ⟨hreader, trivial⟩
  | reading =>
      dsimp only [Task.work]
      split
      · exact ⟨hreader, trivial⟩
      · split <;> exact ⟨hreader, trivial⟩
  | advancing =>
      dsimp only [Task.work]
      cases hadvance : reader.advance with
      | error cause => exact ⟨hreader, trivial⟩
      | ok answer =>
          obtain ⟨more, next⟩ := answer
          refine ⟨(Reader.change_of_advance hadvance).sound hreader, Phase.settled_after ?_⟩
          rintro rfl
          exact Reader.done_of_advance hadvance
  | closing => exact ⟨hreader, hphase, rfl⟩
  | ended outcome => exact ⟨hreader, by cases outcome <;> exact hphase⟩
  | released outcome => exact ⟨hreader, hphase⟩

/-- No split undoes what a phase tells. -/
theorem Phase.Settled.split {reader : Reader α} {phase : Phase α} (h : phase.Settled reader)
    (fraction : Numeric.Binary64) : phase.Settled (reader.split fraction).2 := by
  unfold Phase.Settled at h ⊢
  split at h
  · rwa [Reader.split_of_done h]
  · rwa [Reader.split_of_done h.1]
  · rwa [Reader.split_of_done h.1]
  · trivial

theorem Task.Settled.split (h : task.Settled) (fraction : Numeric.Binary64) :
    Task.Settled { task with reader := (task.reader.split fraction).2 } where
  reader_sound := (Reader.change_of_split task.reader fraction).sound h.reader_sound
  phase_settled := h.phase_settled.split fraction

/-! ## Shares -/

/-- A range of the source, and whether it was split off a running reader. -/
structure Share where
  span : Span
  dynamic : Bool
  deriving DecidableEq

/-- The share of a queued bundle. -/
def Pending.share (bundle : Pending α) : Share := ⟨bundle.source.span, bundle.dynamic⟩

/-- The share of a launched bundle: what its reader will have read in the end. -/
def Task.share (task : Task α) : Share := ⟨task.reader.liveSpan, task.dynamic⟩

/-- The share of a joined bundle. -/
def Summary.share (summary : Summary) : Share := ⟨(summary.start, summary.stop), summary.dynamic⟩

@[simp] theorem Summary.share_span (summary : Summary) :
    summary.share.span = (summary.start, summary.stop) := rfl

@[simp] theorem Summary.share_dynamic (summary : Summary) :
    summary.share.dynamic = summary.dynamic := rfl

/-- All shares of a run. -/
def State.shares (state : State α) : List Share :=
  state.queue.map Pending.share ++ state.active.map Task.share ++
    state.finished.map fun bundle => bundle.summary.share

@[simp] theorem Task.share_work (crashes : Bytes → Bool) (abort : Bool) (task : Task α) :
    (task.work crashes abort).share = task.share := by
  have hspan : (task.work crashes abort).reader.liveSpan = task.reader.liveSpan :=
    congrArg Source.span (task.work_currentSource crashes abort)
  rw [share, hspan, Task.work_dynamic, share]

/-- The share of one task, and all others. -/
theorem shares_perm_of_active {before after : List (Task α)} {task : Task α}
    (hactive : state.active = before ++ task :: after) :
    state.shares.Perm (task.share :: { state with active := before ++ after }.shares) := by
  simp only [State.shares, hactive, List.map_append, List.map_cons, List.append_assoc,
    List.cons_append]
  rw [← List.append_assoc, ← List.append_assoc (state.queue.map Pending.share)]
  exact List.perm_middle

/-- Whether a run has failed. -/
def State.Failed (state : State α) : Prop := ∃ error, state.result? = some (.error error)

theorem State.Failed.step (h : state.Failed) (event : RunEvent) :
    (state.step options crashes event).Failed := by
  obtain ⟨error, herror⟩ := h
  exact ⟨error, state.result?_step herror event⟩

/-! ## Changes of shares -/

/-- What a transition does with the shares of a run. -/
inductive ShareChange (state next : State α) : Prop
  /-- A failing join loses the share of its task. -/
  | lost (share : Share) (hfailed : next.Failed) (hperm : state.shares.Perm (share :: next.shares))
      (hsplits : next.dynamicSplits = state.dynamicSplits)
  /-- Shares are handed on. -/
  | kept (hperm : state.shares.Perm next.shares)
      (hsplits : next.dynamicSplits = state.dynamicSplits)
  /-- One share is cut in two, and the part behind the cut is marked. -/
  | cut (start point stop : Nat) (dynamic : Bool) (rest : List Share) (hstart : start < point)
      (hstop : point < stop) (hbefore : state.shares.Perm (⟨(start, stop), dynamic⟩ :: rest))
      (hafter : next.shares.Perm (⟨(start, point), dynamic⟩ :: ⟨(point, stop), true⟩ :: rest))
      (hsplits : next.dynamicSplits = state.dynamicSplits + 1)

section Changes

variable {before after : List (Task α)}

theorem shareChange_launch {bundle : Pending α} {queue : List (Pending α)}
    (hqueue : state.queue = bundle :: queue) :
    ShareChange state (state.launch bundle queue) := by
  refine .kept ?_ rfl
  have hactive : (state.launch bundle queue).active = state.active ++
      ⟨state.launched, bundle.dynamic, Reader.ofSource bundle.source, [], .starting⟩ :: [] := rfl
  refine .trans ?_ (shares_perm_of_active hactive).symm
  rw [List.append_nil]
  simp only [State.shares, State.launch, hqueue, List.map_cons, List.cons_append]
  exact .refl _

theorem shareChange_work (permits : Nat) (hactive : state.active = before ++ task :: after) :
    ShareChange state
      { state with active := before ++ task.work crashes state.abort :: after, permits } := by
  refine .kept ?_ rfl
  simp [State.shares, hactive]

theorem shareChange_receive {outcome : Outcome α} (hsettled : task.Settled)
    (hactive : state.active = before ++ task :: after) (hphase : task.phase = .released outcome)
    (hremove : removeTask task.id state.active = before ++ after) :
    ShareChange state (state.receive task outcome) := by
  have hperm : state.shares.Perm
      (task.share :: { state with active := removeTask task.id state.active }.shares) :=
    hremove ▸ shares_perm_of_active hactive
  cases outcome with
  | crashed => exact .lost task.share ⟨_, rfl⟩ hperm rfl
  | failed cause => exact .lost task.share ⟨_, rfl⟩ hperm rfl
  | read final values =>
      have hfinal := hsettled.phase_settled
      rw [hphase] at hfinal
      obtain ⟨-, rfl⟩ := hfinal
      have hshares : (state.receive task (.read task.reader.currentSource values)).shares =
          { state with active := removeTask task.id state.active }.shares ++ [task.share] := by
        simp only [State.shares, State.receive, List.map_append, List.append_assoc]
        rfl
      exact .kept (hperm.trans (hshares ▸ (List.perm_append_singleton _ _).symm)) rfl

theorem shareChange_rebalance {reader : Reader α} {residual : Source α}
    {fraction : Numeric.Binary64} (hsettled : task.Settled)
    (hactive : state.active = before ++ task :: after) (hqueue : state.queue = [])
    (hsplit : task.reader.split fraction = (some residual, reader)) (notices : List Notice) :
    ShareChange state
      { state with
        control := .launching
        active := before ++ { task with reader } :: after
        queue := [⟨residual, true⟩]
        dynamicSplits := state.dynamicSplits + 1
        notices } := by
  obtain ⟨position, point, hcurrent, hunread, hlive, rfl, rfl⟩ := Reader.split_eq_some hsplit
  have hstart : task.reader.source.start < point :=
    Nat.lt_of_le_of_lt (Nat.le_succ_of_le (hsettled.reader_sound.current_mem hcurrent).1) hunread
  refine .cut task.reader.source.start point task.reader.range.liveEnd task.dynamic _ hstart
    hlive (shares_perm_of_active hactive) ?_ rfl
  refine (shares_perm_of_active rfl).trans ?_
  simp only [State.shares, hqueue, List.map_cons, List.map_nil, List.nil_append,
    List.cons_append]
  exact .refl _

end Changes

/-- Every transition changes shares in one of these ways. -/
theorem Transition.shareChange (h : Transition options crashes state next)
    (hsettled : ∀ task ∈ state.active, task.Settled) : ShareChange state next := by
  cases h with
  | idle => exact .kept (.refl _) rfl
  | launch bundle queue hcontrol hqueue hpermit => exact shareChange_launch hqueue
  | complete hcontrol hstuck hactive => exact .kept (.refl _) rfl
  | wait hcontrol hactive => exact .kept (.refl _) rfl
  | work before after task hactive => exact shareChange_work _ hactive
  | receive before after task outcome hcontrol hactive hphase hremove =>
      exact shareChange_receive (hsettled task (by simp [hactive])) hactive hphase hremove
  | pass hcontrol => exact .kept (.refl _) rfl
  | rebalance before after task reader residual consumed hcontrol hactive hqueue hpermit
      hcandidate hsplit =>
      exact shareChange_rebalance (hsettled task (by simp [hactive])) hactive hqueue hsplit _

/-! ## Refinements of the static bundles -/

/-- Shares that tile a source and refine its static bundles: each lies in one of these, an unmarked
one from its start on and a marked one behind its start. -/
structure Refines (source : Source α) (statics : List Span) (shares : List Share)
    (splits : Nat) : Prop where
  tiles : Tiles (shares.map Share.span) source.start source.stop
  splits_eq : splits = shares.countP Share.dynamic
  starts_perm : ((shares.filter fun share => !share.dynamic).map fun share => share.span.1).Perm
    (statics.map Prod.fst)
  inside : ∀ share ∈ shares, ∃ span ∈ statics, share.span.2 ≤ span.2 ∧
    if share.dynamic then span.1 < share.span.1 else span.1 = share.span.1
  stops : ∀ span ∈ statics, ∃ share ∈ shares, share.span.2 = span.2

namespace Refines

variable {statics : List Span} {shares others rest : List Share} {splits : Nat}

theorem perm (h : Refines source statics shares splits) (hperm : shares.Perm others) :
    Refines source statics others splits where
  tiles := h.tiles.perm (hperm.map Share.span)
  splits_eq := h.splits_eq.trans (hperm.countP_eq _)
  starts_perm := ((hperm.filter _).map _).symm.trans h.starts_perm
  inside := fun share hshare => h.inside share (hperm.mem_iff.mpr hshare)
  stops := by
    intro span hspan
    obtain ⟨share, hshare, hstop⟩ := h.stops span hspan
    exact ⟨share, hperm.mem_iff.mp hshare, hstop⟩

/-- Cutting one share and marking the part behind the cut gives a refinement again. -/
theorem cut {start point stop : Nat} {dynamic : Bool}
    (h : Refines source statics (⟨(start, stop), dynamic⟩ :: rest) splits)
    (hstart : start < point) (hstop : point < stop) :
    Refines source statics (⟨(start, point), dynamic⟩ :: ⟨(point, stop), true⟩ :: rest)
      (splits + 1) where
  tiles := h.tiles.cut hstart hstop
  splits_eq := by
    rw [h.splits_eq, List.countP_cons, List.countP_cons, List.countP_cons]
    simp only [if_true]
    omega
  starts_perm := by
    refine .trans ?_ h.starts_perm
    cases dynamic <;> exact .refl _
  inside := by
    obtain ⟨span, hspan, hle, hbegin⟩ := h.inside _ List.mem_cons_self
    dsimp only at hle hbegin
    intro share hshare
    rcases List.mem_cons.mp hshare with rfl | hshare
    · exact ⟨span, hspan, by dsimp only; omega, hbegin⟩
    rcases List.mem_cons.mp hshare with rfl | hshare
    · refine ⟨span, hspan, hle, ?_⟩
      dsimp only
      cases dynamic with
      | false => exact Nat.lt_of_le_of_lt (Nat.le_of_eq hbegin) hstart
      | true => exact Nat.lt_trans hbegin hstart
    · exact h.inside share (List.mem_cons_of_mem _ hshare)
  stops := by
    intro span hspan
    obtain ⟨share, hshare, heq⟩ := h.stops span hspan
    rcases List.mem_cons.mp hshare with rfl | hshare
    · exact ⟨⟨(point, stop), true⟩, by simp, heq⟩
    · exact ⟨share, by simp [hshare], heq⟩

/-- A static bundle is refined by itself. -/
theorem self (desiredBytes : Nat) (h : source.start ≤ source.stop) :
    Refines source ((source.bundles desiredBytes).map Source.span)
      ((source.bundles desiredBytes).map fun bundle => ⟨bundle.span, false⟩) 0 where
  tiles := by
    rw [List.map_map]
    exact Source.tiles_bundles desiredBytes h
  splits_eq := by
    symm
    rw [List.countP_map, List.countP_eq_zero]
    exact fun _ _ => Bool.false_ne_true
  starts_perm := by
    rw [List.filter_eq_self.mpr (by simp), List.map_map, List.map_map]
    exact .refl _
  inside := by
    intro share hshare
    obtain ⟨bundle, hbundle, rfl⟩ := List.mem_map.mp hshare
    exact ⟨bundle.span, List.mem_map_of_mem hbundle, Nat.le_refl _, rfl⟩
  stops := by
    intro span hspan
    obtain ⟨bundle, hbundle, rfl⟩ := List.mem_map.mp hspan
    exact ⟨⟨bundle.span, false⟩, List.mem_map_of_mem hbundle, rfl⟩

/-- There is one share for each static bundle, and one more for each split. -/
theorem length_eq (h : Refines source statics shares splits) :
    shares.length = statics.length + splits := by
  have hstatic := h.starts_perm.length_eq
  rw [List.length_map, List.length_map, ← List.countP_eq_length_filter] at hstatic
  rw [← hstatic, h.splits_eq, Nat.add_comm]
  simpa using List.length_eq_countP_add_countP Share.dynamic

/-- There are no more shares than indices, but for the share of an empty source. -/
theorem length_le (h : Refines source statics shares splits) :
    statics.length + splits ≤ max 1 source.size := by
  have hle := h.tiles.length_le
  rw [List.length_map, h.length_eq] at hle
  exact hle

end Refines

/-! ## Coherent states -/

/-- What holds in every state that a run can come to, with what it has lost. -/
structure State.Coherent (options : Options) (source : Source α) (lost : List Share)
    (state : State α) : Prop where
  permits_eq : state.permitTotal = options.parallelism
  refines : Refines source
    ((source.bundles options.desiredBundleBytes.toNat).map Source.span) (lost ++ state.shares)
    state.dynamicSplits
  failed_of_lost : lost ≠ [] → state.Failed
  tasks_settled : ∀ task ∈ state.active, task.Settled
  queue_valid : ∀ bundle ∈ state.queue, bundle.source.Valid
  /-- The main loop only waits if there is something to wait for. -/
  waiting_active : state.control = .waiting → state.active ≠ []
  /-- The main loop only returns a report once nothing is left to do. -/
  complete : ∀ report, state.result? = some (.ok report) → state.queue = [] ∧ state.active = [] ∧
    report = Executor.report state.finished state.dynamicSplits

namespace State.Coherent

variable {lost : List Share}

theorem begin (options : Options) (hvalid : source.Valid) :
    (State.begin options source).Coherent options source [] where
  permits_eq := rfl
  refines := by
    have hshares : ([] ++ (State.begin options source).shares : List Share) =
        (source.bundles options.desiredBundleBytes.toNat).map fun bundle =>
          ⟨bundle.span, false⟩ := by
      simp [shares, State.begin, Pending.share]
    rw [hshares]
    exact .self _ hvalid.start_le_stop
  failed_of_lost := fun h => absurd rfl h
  tasks_settled := by simp [State.begin]
  queue_valid := by
    intro bundle hbundle
    obtain ⟨piece, hpiece, rfl⟩ := List.mem_map.mp hbundle
    exact (Covers.bundles _ hvalid.start_le_stop).valid hvalid hpiece
  waiting_active := by
    dsimp only [State.begin]
    split <;> simp
  complete := by
    by_cases hlimit : permitLimit < options.parallelism <;> simp [State.begin, result?, hlimit]

/-- A run that returns a report has lost nothing. -/
theorem lost_eq_nil (h : state.Coherent options source lost) {report : Report α}
    (hresult : state.result? = some (.ok report)) : lost = [] := by
  by_contra hne
  obtain ⟨error, herror⟩ := h.failed_of_lost hne
  rw [hresult] at herror
  simp at herror

variable (h : state.Coherent options source lost)
  (htransition : Transition options crashes state next)
include h htransition

theorem tasks_settled_next : ∀ task ∈ next.active, task.Settled := by
  cases htransition with
  | idle => exact h.tasks_settled
  | launch bundle queue hcontrol hqueue hpermit =>
      intro task htask
      rcases List.mem_append.mp htask with htask | htask
      · exact h.tasks_settled task htask
      · rw [List.mem_singleton.mp htask]
        exact Task.settled_launched (h.queue_valid bundle (by simp [hqueue])) _ _
  | complete hcontrol hstuck hactive => exact h.tasks_settled
  | wait hcontrol hactive => exact h.tasks_settled
  | work before after task hactive =>
      exact forall_mem_replace (hactive ▸ h.tasks_settled)
        ((h.tasks_settled task (by simp [hactive])).work crashes state.abort)
  | receive before after task outcome hcontrol hactive hphase hremove =>
      rw [receive_active, hremove]
      exact forall_mem_remove (hactive ▸ h.tasks_settled)
  | pass hcontrol => exact h.tasks_settled
  | rebalance before after task reader residual consumed hcontrol hactive hqueue hpermit
      hcandidate hsplit =>
      have hnext := (h.tasks_settled task (by simp [hactive])).split options.splitFraction
      rw [hsplit] at hnext
      exact forall_mem_replace (hactive ▸ h.tasks_settled) hnext

theorem queue_valid_next : ∀ bundle ∈ next.queue, bundle.source.Valid := by
  cases htransition with
  | launch bundle queue hcontrol hqueue hpermit =>
      intro other hother
      exact h.queue_valid other (hqueue ▸ List.mem_cons_of_mem bundle hother)
  | receive before after task outcome hcontrol hactive hphase hremove =>
      rw [receive_queue]
      exact h.queue_valid
  | rebalance before after task reader residual consumed hcontrol hactive hqueue hpermit
      hcandidate hsplit =>
      intro other hother
      have hsound := (h.tasks_settled task (by simp [hactive])).reader_sound
      rw [List.mem_singleton.mp hother]
      exact (hsound.covers_split hsplit).valid hsound.valid_currentSource (by simp)
  | _ => exact h.queue_valid

theorem waiting_active_next : next.control = .waiting → next.active ≠ [] := by
  cases htransition with
  | idle => exact h.waiting_active
  | wait hcontrol hactive => exact fun _ => hactive
  | launch bundle queue hcontrol hqueue hpermit => simp [launch, hcontrol]
  | receive before after task outcome hcontrol hactive hphase hremove =>
      cases outcome <;> simp [receive, finish]
  | work before after task hactive => simp
  | _ => simp [finish]

theorem complete_next : ∀ report, next.result? = some (.ok report) →
    next.queue = [] ∧ next.active = [] ∧
      report = Executor.report next.finished next.dynamicSplits := by
  intro report hreport
  cases htransition with
  | idle => exact h.complete report hreport
  | complete hcontrol hstuck hactive =>
      have htotal : 0 < state.permitTotal := h.permits_eq ▸ parallelism_pos options
      cases hreport
      exact ⟨queue_eq_nil_of_stuck htotal hstuck hactive, hactive, rfl⟩
  | work before after task hactive =>
      have hempty := (h.complete report hreport).2.1
      simp [hactive] at hempty
  | launch bundle queue hcontrol hqueue hpermit =>
      simp [result?, launch, hcontrol] at hreport
  | receive before after task outcome hcontrol hactive hphase hremove =>
      cases outcome <;> cases hreport
  | _ => cases hreport

/-- Coherence is kept, with one more share lost at the most. -/
theorem exists_refines : ∃ lost', (lost' = lost ∨ next.Failed) ∧
    Refines source ((source.bundles options.desiredBundleBytes.toNat).map Source.span)
      (lost' ++ next.shares) next.dynamicSplits := by
  cases htransition.shareChange h.tasks_settled with
  | lost share hfailed hperm hsplits =>
      refine ⟨share :: lost, .inr hfailed, hsplits ▸ h.refines.perm ?_⟩
      exact (hperm.append_left lost).trans List.perm_middle
  | kept hperm hsplits => exact ⟨lost, .inl rfl, hsplits ▸ h.refines.perm (hperm.append_left lost)⟩
  | cut start point stop dynamic rest hstart hstop hbefore hafter hsplits =>
      refine ⟨lost, .inl rfl, hsplits ▸ Refines.perm ?_ (hafter.append_left lost).symm⟩
      have hfront := h.refines.perm ((hbefore.append_left lost).trans List.perm_middle)
      refine (hfront.cut hstart hstop).perm ?_
      exact (List.Perm.cons _ List.perm_middle.symm).trans List.perm_middle.symm

end State.Coherent

/-- Whatever happens, coherence is kept, with one more share lost at the most. -/
theorem State.Coherent.step {lost : List Share} (h : state.Coherent options source lost)
    (hnumbered : state.Numbered) (event : RunEvent) :
    ∃ lost, (state.step options crashes event).Coherent options source lost := by
  have htransition : Transition options crashes state (state.step options crashes event) :=
    transition_step hnumbered event
  obtain ⟨lost', hlost, hrefines⟩ := h.exists_refines htransition
  refine ⟨lost', htransition.permitTotal_eq.trans h.permits_eq, hrefines, ?_,
    h.tasks_settled_next htransition, h.queue_valid_next htransition,
    h.waiting_active_next htransition, h.complete_next htransition⟩
  rcases hlost with rfl | hfailed
  · exact fun hne => (h.failed_of_lost hne).step event
  · exact fun _ => hfailed

/-- Every state that a run can come to is coherent. -/
theorem coherent_of_run (hvalid : source.Valid) (events : List RunEvent) :
    ∃ lost, ((State.begin options source).run options crashes events).Coherent options source
      lost := by
  have hstep : ∀ (state : State α) event, state.Numbered →
      (∃ lost, state.Coherent options source lost) →
      ∃ lost, (state.step options crashes event).Coherent options source lost := by
    rintro state event hnumbered ⟨lost, h⟩
    exact h.step hnumbered event
  exact State.run_induction hstep (State.numbered_begin options source)
    ⟨[], State.Coherent.begin options hvalid⟩ events

end BundledReading.Executor

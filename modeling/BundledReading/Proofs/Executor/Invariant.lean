import BundledReading.Proofs.Executor.Transitions
import Mathlib.Data.List.Basic

/-!
# The invariant of a run

As long as a run goes on, what is queued, what the launched readers will have read in the end and
what has been joined together cover the source; every task tells the truth about its reader; what
was joined was read in full; and every permit is free or held by one task that has not given it
back. The last fact is what keeps the main loop from returning early: without tasks all permits are
free, so launching only stops at an empty queue.

A run that returns has an answer for its source, and keeps it.
-/

namespace BundledReading.Executor

variable {α : Type} {source : Source α}

/-! ## Answers -/

/-- The part of a source that a summary is about. -/
def Summary.part (source : Source α) (summary : Summary) : Source α :=
  source.withRange summary.start summary.stop

/-- A bundle that was read in full, with nothing besides. -/
structure Finished.Sound (source : Source α) (finished : Finished α) : Prop where
  elements_eq : (finished.summary.part source).elements = finished.values.map .ok
  records_eq : finished.summary.records = finished.values.length

/-- A report that accounts for every element of the source. -/
structure Report.Sound (source : Source α) (report : Report α) : Prop where
  elements_eq : source.elements = report.values.map .ok
  consecutive : Consecutive source.start
    (report.bundles.map fun summary => (summary.start, summary.stop)) source.stop
  records_eq : ∀ summary ∈ report.bundles, summary.records = summary.stop - summary.start
  filled : ∀ summary ∈ report.bundles, summary.start = summary.stop → source.start = source.stop
  single : source.start = source.stop → report.bundles.length = 1

/-- What a run may return for a source: a full report, or what decoding an element failed with. -/
def Answers (source : Source α) : Except RunError (Report α) → Prop
  | .ok report => report.Sound source
  | .error error => ∃ cause, error = .source cause ∧ .error cause ∈ source.elements

theorem Finished.Sound.records_eq_sub {finished : Finished α} (h : finished.Sound source) :
    finished.summary.records = finished.summary.stop - finished.summary.start := by
  have hlength := congrArg List.length h.elements_eq
  rw [List.length_map] at hlength
  rw [h.records_eq, ← hlength]
  exact Buffer.length_slice _ _ _

/-- Once the joined bundles cover the source, their report accounts for every element. -/
theorem report_sound {finished : List (Finished α)} (dynamicSplits : Nat)
    (hcovers : Covers source (finished.map fun bundle => bundle.summary.part source))
    (hfinished : ∀ bundle ∈ finished, bundle.Sound source) :
    (report finished dynamicSplits).Sound source := by
  obtain ⟨inOrder, hperm, hsorted, hreport⟩ := report_eq finished dynamicSplits
  have hspans : Consecutive source.start
      (inOrder.map fun bundle => (bundle.summary.part source).span) source.stop := by
    apply hcovers.tiles.consecutive_of_sorted
    · rw [List.map_map]
      exact hperm.map _
    · rw [List.pairwise_map]
      exact hsorted
  rw [hreport]
  refine ⟨?_, ?_, ?_, ?_, ?_⟩
  · calc
      source.elements = inOrder.flatMap fun bundle => (bundle.summary.part source).elements := by
        rw [Source.elements, ← hspans.flatMap_slice source.buffer, List.flatMap_map]
        rfl
      _ = inOrder.flatMap fun bundle => bundle.values.map .ok := by
        apply List.flatMap_congr
        intro bundle hbundle
        exact (hfinished bundle (hperm.mem_iff.mp hbundle)).elements_eq
      _ = (inOrder.flatMap Finished.values).map .ok := List.map_flatMap.symm
  · change Consecutive source.start ((inOrder.map Finished.summary).map _) source.stop
    rw [List.map_map]
    exact hspans
  · intro summary hsummary
    obtain ⟨bundle, hbundle, rfl⟩ := List.mem_map.mp hsummary
    exact (hfinished bundle (hperm.mem_iff.mp hbundle)).records_eq_sub
  · intro summary hsummary
    obtain ⟨bundle, hbundle, rfl⟩ := List.mem_map.mp hsummary
    apply hcovers.tiles.filled (bundle.summary.part source).span
    rw [List.map_map]
    exact List.mem_map_of_mem (hperm.mem_iff.mp hbundle)
  · intro hempty
    have hlength := hcovers.tiles.single hempty
    rw [List.length_map, List.length_map] at hlength
    change (inOrder.map Finished.summary).length = 1
    rw [List.length_map, hperm.length_eq, hlength]

/-! ## Running -/

/-- Everything that together makes up the source: queued, launched and joined. -/
def pieces (source : Source α) (queue : List (Pending α)) (tasks : List (Task α))
    (finished : List (Finished α)) : List (Source α) :=
  queue.map Pending.source ++ tasks.map (fun task => task.reader.currentSource) ++
    finished.map fun bundle => bundle.summary.part source

/-- What holds of a run as long as it goes on. -/
structure State.Running (options : Options) (source : Source α) (state : State α) : Prop where
  abort_eq : state.abort = false
  permits_eq : state.permits + state.active.countP Task.holdsPermit = options.parallelism
  covers : Covers source (pieces source state.queue state.active state.finished)
  tasks_sound : ∀ task ∈ state.active, task.Sound source
  finished_sound : ∀ bundle ∈ state.finished, bundle.Sound source

/-- A run goes on as it should, or has returned an answer. -/
inductive State.Sound (options : Options) (source : Source α) (state : State α) : Prop
  | running (hresult : state.result? = none) (hnumbered : state.Numbered)
      (h : state.Running options source)
  | returned (result : Except RunError (Report α)) (hresult : state.result? = some result)
      (h : Answers source result)

variable {options : Options} {crashes : Bytes → Bool} {state : State α}

/-- A run within the limit of permits begins with the static bundles of its source. -/
theorem State.sound_begin (hlimit : options.parallelism ≤ permitLimit) (hvalid : source.Valid) :
    (State.begin options source).Sound options source := by
  have hallowed : ¬ permitLimit < options.parallelism := Nat.not_lt.mpr hlimit
  refine State.Sound.running ?_ (State.numbered_begin options source) ⟨?_, ?_, ?_, ?_, ?_⟩
  · simp [State.begin, State.result?, hallowed]
  · simp [State.begin, hallowed]
  · simp [State.begin]
  · simpa [pieces, State.begin, Function.comp_def] using
      Covers.bundles options.desiredBundleBytes.toNat hvalid.start_le_stop
  · simp [State.begin]
  · simp [State.begin]

section Pieces

variable {queue : List (Pending α)} {before after : List (Task α)} {task : Task α}
  {finished : List (Finished α)}

/-- The piece of a task, and all others. -/
theorem pieces_task : (pieces source queue (before ++ task :: after) finished).Perm
    (task.reader.currentSource :: pieces source queue (before ++ after) finished) := by
  simp only [pieces, List.map_append, List.map_cons, List.append_assoc, List.cons_append]
  rw [← List.append_assoc, ← List.append_assoc (queue.map Pending.source)]
  exact List.perm_middle

theorem mem_pieces (hactive : state.active = before ++ task :: after) :
    task.reader.currentSource ∈ pieces source state.queue state.active state.finished := by
  rw [hactive]
  exact pieces_task.mem_iff.mpr List.mem_cons_self

end Pieces

namespace State.Running

variable {before after : List (Task α)} {task : Task α}

theorem buffer_eq (h : state.Running options source)
    (hactive : state.active = before ++ task :: after) :
    task.reader.source.buffer = source.buffer :=
  h.covers.buffer_eq task.reader.currentSource (mem_pieces hactive)

/-- Where the main loop is does not matter to a run that goes on. -/
theorem withControl (h : state.Running options source) (control : Control α) :
    { state with control }.Running options source where
  abort_eq := h.abort_eq
  permits_eq := h.permits_eq
  covers := h.covers
  tasks_sound := h.tasks_sound
  finished_sound := h.finished_sound

theorem launch (h : state.Running options source) (hvalid : source.Valid) {bundle : Pending α}
    {queue : List (Pending α)} (hqueue : state.queue = bundle :: queue)
    (hpermit : 0 < state.permits) : (state.launch bundle queue).Running options source where
  abort_eq := h.abort_eq
  permits_eq := (permitTotal_launch bundle queue hpermit).trans h.permits_eq
  covers := by
    let task : Task α :=
      ⟨state.launched, bundle.dynamic, Reader.ofSource bundle.source, [], .starting⟩
    have hperm : (pieces source queue (state.active ++ [task]) state.finished).Perm
        (bundle.source :: pieces source queue (state.active ++ []) state.finished) := pieces_task
    have hcovers := h.covers
    rw [hqueue, ← List.append_nil state.active] at hcovers
    exact hcovers.perm hperm.symm
  tasks_sound := by
    intro task htask
    rcases List.mem_append.mp htask with htask | htask
    · exact h.tasks_sound task htask
    · have hpiece : bundle.source ∈ pieces source state.queue state.active state.finished := by
        simp [pieces, hqueue]
      rw [List.mem_singleton.mp htask]
      exact Task.Sound.launched (h.covers.valid hvalid hpiece) _ _
  finished_sound := h.finished_sound

theorem work (h : state.Running options source) (hcalm : Calm crashes source)
    (hactive : state.active = before ++ task :: after) :
    { state with
      active := before ++ task.work crashes state.abort :: after
      permits := if task.releases then state.permits + 1 else state.permits }.Running options
        source := by
  have htask : task ∈ state.active := by simp [hactive]
  have hbounds := h.covers.bounds (mem_pieces hactive)
  refine ⟨h.abort_eq, (permitTotal_work hactive).trans h.permits_eq, ?_, ?_, h.finished_sound⟩
  · have hcovers := h.covers
    rw [hactive] at hcovers
    simpa [pieces] using hcovers
  · rw [h.abort_eq]
    exact forall_mem_replace (hactive ▸ h.tasks_sound)
      ((h.tasks_sound task htask).work hcalm (h.buffer_eq hactive) hbounds.1 hbounds.2.2)

theorem complete (h : state.Running options source)
    (hstuck : state.queue = [] ∨ state.permits = 0) (hactive : state.active = []) :
    (report state.finished state.dynamicSplits).Sound source := by
  have hcovers := h.covers
  have htotal : 0 < state.permitTotal :=
    Nat.lt_of_lt_of_eq (parallelism_pos options) h.permits_eq.symm
  rw [queue_eq_nil_of_stuck htotal hstuck hactive, hactive] at hcovers
  exact report_sound _ hcovers h.finished_sound

/-- Joining a task that has read everything takes up its values. -/
theorem receive_read (h : state.Running options source)
    (hactive : state.active = before ++ task :: after) {final : Source α} {values : List α}
    (hphase : task.phase = .released (.read final values))
    (hremove : removeTask task.id state.active = before ++ after) :
    (state.receive task (.read final values)).Running options source := by
  have htask : task ∈ state.active := by simp [hactive]
  have hsound := (h.tasks_sound task htask).phase_sound
  rw [hphase] at hsound
  obtain ⟨rfl, hreached⟩ := hsound
  have hbuffer := h.buffer_eq hactive
  refine ⟨h.abort_eq, (permitTotal_receive hactive hphase hremove).trans h.permits_eq, ?_, ?_, ?_⟩
  · have hsame : Summary.part source ⟨task.reader.currentSource.start,
        task.reader.currentSource.stop, values.length, task.dynamic⟩ =
        task.reader.currentSource := by
      simp [Summary.part, Reader.currentSource, Source.withRange, hbuffer]
    have hpieces : pieces source state.queue (before ++ after) (state.finished ++
        [⟨⟨task.reader.currentSource.start, task.reader.currentSource.stop, values.length,
          task.dynamic⟩, values⟩]) =
        pieces source state.queue (before ++ after) state.finished ++
          [task.reader.currentSource] := by
      simp [pieces, hsame]
    have hcovers := h.covers
    rw [hactive] at hcovers
    simp only [State.receive, hremove, hpieces]
    exact hcovers.perm (pieces_task.trans (List.perm_append_singleton _ _).symm)
  · intro other hother
    rw [State.receive_active, hremove] at hother
    exact forall_mem_remove (hactive ▸ h.tasks_sound) other hother
  · intro bundle hbundle
    rcases List.mem_append.mp hbundle with hbundle | hbundle
    · exact h.finished_sound bundle hbundle
    · rw [List.mem_singleton.mp hbundle]
      refine ⟨?_, rfl⟩
      simpa [Summary.part, Reader.currentSource, Source.withRange, Source.elements, hbuffer]
        using hreached.2

/-- A split takes its residual out of what the reader covers and puts it into the queue. -/
theorem rebalance (h : state.Running options source)
    (hactive : state.active = before ++ task :: after) (hqueue : state.queue = [])
    {reader : Reader α} {residual : Source α} (notices : List Notice)
    (hsplit : task.reader.split options.splitFraction = (some residual, reader)) :
    { state with
      control := .launching
      active := before ++ { task with reader } :: after
      queue := [⟨residual, true⟩]
      dynamicSplits := state.dynamicSplits + 1
      notices }.Running options source := by
  have htask : task ∈ state.active := by simp [hactive]
  have hsound := h.tasks_sound task htask
  refine ⟨h.abort_eq, (permitTotal_rebalance hactive).trans h.permits_eq, ?_, ?_, h.finished_sound⟩
  · have hcovers := h.covers
    rw [hactive, hqueue] at hcovers
    have hperm : (pieces source [⟨residual, true⟩] (before ++ { task with reader } :: after)
        state.finished).Perm (reader.currentSource :: residual ::
          pieces source [] (before ++ after) state.finished) := pieces_task
    exact hcovers.refine pieces_task (hsound.reader_sound.covers_split hsplit) hperm.symm
  · have hnext := hsound.split options.splitFraction
    rw [hsplit] at hnext
    exact forall_mem_replace (hactive ▸ h.tasks_sound) hnext

end State.Running

/-! ## Runs -/

/-- No transition loses anything, and none returns but with an answer. -/
theorem Transition.sound {next : State α} (h : Transition options crashes state next)
    (hvalid : source.Valid) (hcalm : Calm crashes source) (hresult : state.result? = none)
    (hnumbered : state.Numbered) (hrunning : state.Running options source) :
    next.Sound options source := by
  have hnext := h.numbered hnumbered
  cases h with
  | idle => exact State.Sound.running hresult hnext hrunning
  | launch bundle queue hcontrol hqueue hpermit =>
      refine State.Sound.running ?_ hnext (hrunning.launch hvalid hqueue hpermit)
      simp [State.result?, State.launch, hcontrol]
  | complete hcontrol hstuck hactive =>
      exact State.Sound.returned _ rfl (hrunning.complete hstuck hactive)
  | wait hcontrol hactive => exact State.Sound.running rfl hnext (hrunning.withControl _)
  | work before after task hactive =>
      exact State.Sound.running hresult hnext (hrunning.work hcalm hactive)
  | receive before after task outcome hcontrol hactive hphase hremove =>
      have htask : task ∈ state.active := by simp [hactive]
      have hphaseSound := (hrunning.tasks_sound task htask).phase_sound
      rw [hphase] at hphaseSound
      cases outcome with
      | read final values =>
          exact State.Sound.running rfl hnext (hrunning.receive_read hactive hphase hremove)
      | failed cause => exact State.Sound.returned _ rfl ⟨cause, rfl, hphaseSound⟩
      | crashed => exact absurd hphaseSound id
  | pass hcontrol => exact State.Sound.running rfl hnext (hrunning.withControl _)
  | rebalance before after task reader residual consumed hcontrol hactive hqueue hpermit
      hcandidate hsplit =>
      exact State.Sound.running rfl hnext (hrunning.rebalance hactive hqueue _ hsplit)

theorem State.Sound.step (h : state.Sound options source) (hvalid : source.Valid)
    (hcalm : Calm crashes source) (event : RunEvent) :
    (state.step options crashes event).Sound options source := by
  cases h with
  | running hresult hnumbered hrunning =>
      exact (transition_step hnumbered event).sound hvalid hcalm hresult hnumbered hrunning
  | returned result hresult hanswers =>
      exact State.Sound.returned result (State.result?_step hresult event) hanswers

theorem State.Sound.run (h : state.Sound options source) (hvalid : source.Valid)
    (hcalm : Calm crashes source) (events : List RunEvent) :
    (state.run options crashes events).Sound options source := by
  induction events generalizing state with
  | nil => exact h
  | cons event rest ih => exact ih (h.step hvalid hcalm event)

end BundledReading.Executor

import BundledReading.Proofs.SessionSplits
import BundledReading.Proofs.WholeReading

/-!
# Reading exactly once while others split

One consumer reads a reader to its end: it starts the reader, then takes the current element and
advances in turn, until a call says that there is nothing more. Between any two of its steps, before
the first and after the last, anybody may split the reader, directly or through handles and
clones of handles. What the consumer is given and what the residuals hold is together what the
source holds, each element once.

## Implementation notes

The invariant relates the live end of the reader to the stack of residuals: read in reverse order
of acceptance, they hold the elements from the live end on. Steps of the consumer leave both
sides alone, and a split moves one piece across.
-/

namespace BundledReading

open Contract

variable {α : Type}

/-- A consumer at work on the reader `0` of a session. -/
structure Consumption (α : Type) where
  session : Session α
  /-- The elements that the consumer was given, in order. -/
  delivered : List α
  /-- What the consumer does next, or the failure that has ended its loop. -/
  progress : Except Failure Reader.Progress

/-- What may happen while a consumer is at work. -/
inductive ConsumptionEvent where
  /-- The consumer does its next step. -/
  | consume
  /-- Somebody makes a handle on the reader. -/
  | handle
  /-- Somebody clones a handle. -/
  | clone (handle : Nat)
  /-- Somebody splits. -/
  | split (splitter : Splitter) (fraction : Numeric.Binary64)
  deriving DecidableEq

namespace Consumption

/-- A consumer that is about to start a fresh reader of `source`. -/
def begin (source : Source α) : Consumption α :=
  ⟨((Session.ofSource source).openSource source).2, [], .ok .unstarted⟩

/-- Notes the answer of `start` or `advance`. -/
def onMove (consumption : Consumption α) (answer : Except Failure (Bool × Reader α)) :
    Consumption α :=
  match answer with
  | .error cause => { consumption with progress := .error cause }
  | .ok (more, reader) =>
    { consumption with
      session := consumption.session.setReader 0 reader
      progress := .ok (.after more) }

/-- Notes the answer of `current`. -/
def onRead (consumption : Consumption α) (answer : Except Failure α) : Consumption α :=
  match answer with
  | .error cause => { consumption with progress := .error cause }
  | .ok value =>
    { consumption with delivered := consumption.delivered ++ [value], progress := .ok .served }

/-- The consumer's next step. -/
def consume (consumption : Consumption α) : Consumption α :=
  match consumption.session.readers[0]?, consumption.progress with
  | some reader, .ok .unstarted => consumption.onMove reader.start
  | some reader, .ok .standing => consumption.onRead reader.current
  | some reader, .ok .served => consumption.onMove reader.advance
  | _, _ => consumption

/-- What an event makes of a consumption. -/
def step (consumption : Consumption α) : ConsumptionEvent → Consumption α
  | .consume => consumption.consume
  | .handle => { consumption with session := consumption.session.handleOn 0 }
  | .clone handle => { consumption with session := consumption.session.cloneHandle handle }
  | .split splitter fraction =>
    { consumption with session := consumption.session.splitBy splitter fraction }

/-- What a sequence of events makes of a consumption. -/
def run (consumption : Consumption α) (events : List ConsumptionEvent) : Consumption α :=
  events.foldl step consumption

/-- The residuals of the accepted splits, in the order of acceptance. -/
def residuals (consumption : Consumption α) : List (Source α) :=
  consumption.session.sources.toList.tail

/-- How many steps a consumer will still do that was given `count` elements, unless splits make
it fewer. -/
def stepsLeft (span : Span) (count : Nat) : Reader.Progress → Nat
  | .unstarted => 2 * (span.2 - span.1) + 1
  | .standing => 2 * (span.2 - (span.1 + count))
  | .served => 2 * (span.2 - (span.1 + count)) + 1
  | .exhausted => 0

/-! ## The invariant -/

/-- The consumer has come somewhere with its reader, and the residuals hold the rest. -/
structure Consistent (source : Source α) (reader : Reader α) (progress : Reader.Progress)
    (consumption : Consumption α) : Prop where
  readers_eq : consumption.session.readers = #[reader]
  sources_eq : consumption.session.sources.toList = source :: consumption.residuals
  source_eq : reader.source = source
  sound : reader.Sound
  progress_eq : consumption.progress = .ok progress
  reached : reader.Reached consumption.delivered progress
  rest_eq : consumption.residuals.reverse.flatMap Source.elements =
    source.buffer.slice reader.range.liveEnd source.stop

theorem consistent_begin {source : Source α} (h : source.Valid) :
    Consistent source (Reader.ofSource source) .unstarted (begin source) where
  readers_eq := rfl
  sources_eq := rfl
  source_eq := rfl
  sound := Reader.sound_ofSource h
  progress_eq := rfl
  reached := Reader.reached_ofSource source
  rest_eq := (Buffer.slice_self _ _).symm

variable {source : Source α} {reader next : Reader α} {progress : Reader.Progress}
  {consumption : Consumption α} {values : List α} {more : Bool}

/-- A move of the consumer that keeps the live end leaves the residuals as they are. -/
theorem Consistent.onMove (h : Consistent source reader progress consumption)
    (hchange : Reader.Change reader next)
    (hreached : next.Reached consumption.delivered (.after more))
    (hlive : next.liveSpan = reader.liveSpan) :
    Consistent source next (.after more) (consumption.onMove (.ok (more, next))) where
  readers_eq := by simp [Consumption.onMove, Session.setReader, h.readers_eq]
  sources_eq := h.sources_eq
  source_eq := hchange.source_eq.trans h.source_eq
  sound := hchange.sound h.sound
  progress_eq := rfl
  reached := hreached
  rest_eq := by
    have hend : next.range.liveEnd = reader.range.liveEnd := congrArg Prod.snd hlive
    rw [hend]
    exact h.rest_eq

/-- The consumer's next step succeeds, and brings it nearer to its end. -/
theorem Consistent.consume (hvalues : source.elements = values.map .ok)
    (h : Consistent source reader progress consumption) :
    ∃ next progress', Consistent source next progress' consumption.consume ∧
      stepsLeft next.liveSpan consumption.consume.delivered.length progress' ≤
        stepsLeft reader.liveSpan consumption.delivered.length progress - 1 := by
  have hreader : consumption.session.readers[0]? = some reader := by simp [h.readers_eq]
  cases progress with
  | unstarted =>
      obtain ⟨more, next, hstart, hreached, hlive⟩ := h.reached.start h.sound
      refine ⟨next, .after more, ?_, ?_⟩
      · simp only [Consumption.consume, hreader, h.progress_eq, hstart]
        exact h.onMove (Reader.change_of_start hstart) hreached hlive
      · rw [hlive]
        cases more <;> simp [Reader.Progress.after, stepsLeft]
        omega
  | standing =>
      obtain ⟨position, hstart, hstop, _, hread, hserved⟩ := h.reached.current h.sound
      have hdecodes := Buffer.exists_values_iff.mp ⟨values, hvalues⟩ position
        (h.source_eq ▸ hstart) (Nat.lt_of_lt_of_le hstop (h.source_eq ▸ h.sound.liveEnd_le_stop))
      obtain ⟨value, hvalue⟩ := hdecodes
      rw [h.source_eq] at hread hserved
      have hconsume : consumption.consume =
          { consumption with
            delivered := consumption.delivered ++ [value], progress := .ok .served } := by
        simp only [Consumption.consume, hreader, h.progress_eq, hread, hvalue, Consumption.onRead]
      have hlt := h.reached.lt_liveEnd h.sound
      refine ⟨reader, .served, ?_, ?_⟩
      · rw [hconsume]
        exact { h with progress_eq := rfl, reached := hserved value hvalue }
      · simp only [hconsume, stepsLeft, List.length_append, List.length_singleton,
          Reader.liveSpan]
        omega
  | served =>
      obtain ⟨more, next, hadvance, hreached, hlive⟩ := h.reached.advance h.sound
      refine ⟨next, .after more, ?_, ?_⟩
      · simp only [Consumption.consume, hreader, h.progress_eq, hadvance]
        exact h.onMove (Reader.change_of_advance hadvance) hreached hlive
      · rw [hlive]
        simp only [Consumption.consume, hreader, h.progress_eq, hadvance, Consumption.onMove]
        cases more <;> simp [Reader.Progress.after, stepsLeft]
  | exhausted =>
      refine ⟨reader, .exhausted, ?_, Nat.zero_le _⟩
      simp only [Consumption.consume, hreader, h.progress_eq]
      exact h

/-- A split moves the elements behind its point from the reader to the residuals. -/
theorem Consistent.split (h : Consistent source reader progress consumption) (splitter : Splitter)
    (fraction : Numeric.Binary64) :
    ∃ next, Consistent source next progress (consumption.step (.split splitter fraction)) ∧
      next.range.liveEnd ≤ reader.range.liveEnd := by
  rcases consumption.session.splitBy_cases splitter fraction with
    hnone | ⟨number, other, position, point, hother, hcurrent, hunread, hlive, hsplit, hsome⟩
  · refine ⟨reader, ?_, Nat.le_refl _⟩
    simp only [step, hnone]
    exact h
  · obtain ⟨rfl, rfl⟩ : number = 0 ∧ reader = other := by
      rw [h.readers_eq] at hother
      obtain ⟨hlt, heq⟩ := Array.getElem?_eq_some_iff.mp hother
      obtain rfl : number = 0 := by simpa using hlt
      exact ⟨rfl, heq⟩
    have hsources : (consumption.step (.split splitter fraction)).session.sources.toList =
        source :: (consumption.residuals ++ [source.withRange point reader.range.liveEnd]) := by
      simp [step, hsome, Session.afterSplit, h.sources_eq, h.source_eq]
    have hresidual : (consumption.step (.split splitter fraction)).residuals =
        consumption.residuals ++ [source.withRange point reader.range.liveEnd] := by
      rw [residuals, hsources, List.tail_cons]
    have hchange := Reader.change_of_split reader fraction
    have hreached := h.reached.split fraction
    rw [hsplit] at hchange hreached
    refine ⟨{ reader with range := { reader.range with liveEnd := point } }, ?_,
      Nat.le_of_lt hlive⟩
    refine ⟨?_, ?_, h.source_eq, hchange.sound h.sound, h.progress_eq, hreached, ?_⟩
    · simp [step, hsome, Session.afterSplit, h.readers_eq]
    · rw [hsources, hresidual]
    · rw [hresidual, List.reverse_append, List.flatMap_append, h.rest_eq]
      have hstop : reader.range.liveEnd ≤ source.stop := h.source_eq ▸ h.sound.liveEnd_le_stop
      simpa [Source.elements, Source.withRange] using
        source.buffer.slice_append (Nat.le_of_lt hlive) hstop

theorem stepsLeft_mono {start liveEnd liveEnd' count : Nat} (h : liveEnd ≤ liveEnd')
    (progress : Reader.Progress) :
    stepsLeft (start, liveEnd) count progress ≤ stepsLeft (start, liveEnd') count progress := by
  cases progress <;> simp only [stepsLeft] <;> omega

theorem Consistent.step (hvalues : source.elements = values.map .ok)
    (h : Consistent source reader progress consumption) (event : ConsumptionEvent) :
    ∃ next progress', Consistent source next progress' (consumption.step event) ∧
      stepsLeft next.liveSpan (consumption.step event).delivered.length progress' ≤
        stepsLeft reader.liveSpan consumption.delivered.length progress -
          [event].count .consume := by
  cases event with
  | consume => exact h.consume hvalues
  | handle =>
      refine ⟨reader, progress, ?_, Nat.le_refl _⟩
      obtain ⟨hreaders, hsources, hsource, hsound, hprogress, hreached, hrest⟩ := h
      constructor <;> simpa [Consumption.step, residuals]
  | clone handle =>
      refine ⟨reader, progress, ?_, Nat.le_refl _⟩
      obtain ⟨hreaders, hsources, hsource, hsound, hprogress, hreached, hrest⟩ := h
      constructor <;> simpa [Consumption.step, residuals]
  | split splitter fraction =>
      obtain ⟨next, hnext, hlive⟩ := h.split splitter fraction
      refine ⟨next, progress, hnext, ?_⟩
      rw [Reader.liveSpan, hnext.source_eq, Reader.liveSpan, h.source_eq]
      exact stepsLeft_mono hlive progress

theorem Consistent.run (hvalues : source.elements = values.map .ok)
    (h : Consistent source reader progress consumption) (events : List ConsumptionEvent) :
    ∃ next progress', Consistent source next progress' (consumption.run events) ∧
      stepsLeft next.liveSpan (consumption.run events).delivered.length progress' ≤
        stepsLeft reader.liveSpan consumption.delivered.length progress -
          events.count .consume := by
  induction events generalizing reader progress consumption with
  | nil => exact ⟨reader, progress, h, Nat.le_refl _⟩
  | cons event rest ih =>
      obtain ⟨next, progress', hnext, hsteps⟩ := h.step hvalues event
      obtain ⟨last, progress'', hlast, hrest⟩ := ih hnext
      refine ⟨last, progress'', hlast, hrest.trans ?_⟩
      rw [show event :: rest = [event] ++ rest from rfl, List.count_append]
      omega

/-- A consumer without steps left has run out of elements. -/
theorem Consistent.eq_exhausted (h : Consistent source reader progress consumption)
    (hsteps : stepsLeft reader.liveSpan consumption.delivered.length progress = 0) :
    progress = .exhausted := by
  cases progress with
  | unstarted => simp [stepsLeft] at hsteps
  | standing =>
      have := h.reached.lt_liveEnd h.sound
      simp only [stepsLeft, Reader.liveSpan] at hsteps
      omega
  | served => simp [stepsLeft] at hsteps
  | exhausted => rfl

/-- Whoever splits a reader at whatever time and fraction, its consumer never fails and is through
after as many steps as an undisturbed one would need at most. Then it was given the elements up to
the final live end, the residuals, the last one first, hold all others in order, and reading what
the reader says it has covered gives what the consumer was given. -/
theorem delivered_append_residuals (hvalid : source.Valid)
    (hvalues : source.elements = values.map .ok) (events : List ConsumptionEvent) :
    let final := (begin source).run events
    (∀ cause, final.progress ≠ .error cause) ∧
      (2 * source.size < events.count .consume → final.progress = .ok .exhausted) ∧
      (final.progress = .ok .exhausted →
        ∃ reader, final.session.readers = #[reader] ∧
          final.delivered.length = reader.range.liveEnd - source.start ∧
          final.delivered.map .ok ++ final.residuals.reverse.flatMap Source.elements =
            source.elements ∧
          ∀ budget, source.size ≤ budget →
            (inMemory α).readAll budget reader.currentSource () = .ok final.delivered ()) := by
  intro final
  obtain ⟨reader, progress, hfinal, hsteps⟩ := (consistent_begin hvalid).run hvalues events
  refine ⟨?_, ?_, ?_⟩
  · intro cause hcause
    have := hfinal.progress_eq.symm.trans hcause
    simp at this
  · intro hcount
    rw [hfinal.progress_eq, hfinal.eq_exhausted]
    have hbegin : stepsLeft (Reader.ofSource source).liveSpan (begin source).delivered.length
        .unstarted = 2 * source.size + 1 := rfl
    omega
  · intro hexhausted
    obtain rfl : progress = .exhausted :=
      Except.ok.inj (hfinal.progress_eq.symm.trans hexhausted)
    obtain ⟨-, hread⟩ := hfinal.reached
    have hsource := hfinal.source_eq
    have hslice : source.buffer.slice source.start reader.range.liveEnd =
        final.delivered.map .ok := by
      rw [← hsource]
      exact hread
    refine ⟨reader, hfinal.readers_eq, ?_, ?_, ?_⟩
    · have hlength := congrArg List.length hslice
      simpa using hlength.symm
    · rw [hfinal.rest_eq, ← hslice]
      exact source.buffer.slice_append (hsource ▸ hfinal.sound.start_le_liveEnd)
        (hsource ▸ hfinal.sound.liveEnd_le_stop)
    · intro budget hbudget
      have hsize : reader.currentSource.size ≤ budget := by
        have hstop := hfinal.sound.liveEnd_le_stop
        simp only [Reader.currentSource, Source.withRange, Source.size, hsource] at hbudget hstop ⊢
        omega
      rw [readAll_inMemory hfinal.sound.valid_currentSource hsize, Source.read_eq_ok hread]
      rfl

/-- A consumer of four numbers, with two of them split off right after its start. -/
theorem delivered_append_residuals_fourNumbers :
    let events := [.consume, .handle, .clone 0, .split (.handle 1) (.ofQuotient false 1 2)] ++
      List.replicate 9 .consume
    let final := (begin Source.fourNumbers).run events
    final.progress = .ok .exhausted ∧ final.residuals.length = 1 ∧
      final.delivered.map .ok ++ final.residuals.reverse.flatMap Source.elements =
        [1, 2, 3, 4].map .ok := by
  intro events final
  obtain ⟨-, hends, hdelivered⟩ := delivered_append_residuals
    (Source.valid_ofBuffer _) Source.elements_fourNumbers events
  have hexhausted : final.progress = .ok .exhausted := hends (by decide)
  obtain ⟨reader, -, -, hall, -⟩ := hdelivered hexhausted
  refine ⟨hexhausted, by decide +kernel, ?_⟩
  rw [← Source.elements_fourNumbers]
  exact hall

end Consumption

end BundledReading

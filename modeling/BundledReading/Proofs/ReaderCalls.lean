import BundledReading.Proofs.SessionSplits

/-!
# Calls on a reader

Whoever holds a reader or a handle on it may call it at any time and in any order. Over all
sequences of calls the range of the reader stays within its source and only ever closes in: the
position goes up one element at a time, the live end goes down, and an exhausted reader does not
change any more. A call that fails and a split that is rejected leave no trace, and an accepted
split moves the live end alone.

## Implementation notes

Calls answer and leave a session behind, also where they fail. What single calls do is said once by
`ReaderCall.Effect`; the induction over a sequence of calls carries `Reader.Sound` alone.
-/

namespace BundledReading

variable {α : Type}

/-- A call on a reader, or on a handle that was made of it. -/
inductive ReaderCall where
  | start
  | advance
  | current
  /-- Asks for the share of the live range that was read. -/
  | consumed
  | currentSource
  /-- Makes a handle. -/
  | handle
  /-- Clones a handle. -/
  | clone (handle : Nat)
  | split (splitter : Splitter) (fraction : Numeric.Binary64)
  deriving DecidableEq

/-- What a call answers. -/
inductive ReaderAnswer (α : Type) where
  /-- Whether the reader stands on an element now. -/
  | moved (more : Bool)
  | value (value : α)
  | share (consumed : Option Numeric.Binary64)
  | source (source : Source α)
  /-- The outcome of a split. -/
  | residual (residual : Option (Source α))
  | failed (cause : Failure)
  /-- Nothing but that a handle was made. -/
  | made
  /-- There is no such reader or handle. -/
  | missing

namespace Session

/-- A session with a fresh reader of a source. -/
def opened (source : Source α) : Session α := ((ofSource source).openSource source).2

/-- Starts or advances the reader. A call that fails changes nothing. -/
def move (session : Session α) (action : Reader α → Except Failure (Bool × Reader α)) :
    ReaderAnswer α × Session α :=
  match session.readers[0]? with
  | none => (.missing, session)
  | some reader =>
    match action reader with
    | .error cause => (.failed cause, session)
    | .ok (more, next) => (.moved more, session.setReader 0 next)

/-- Asks the reader something. -/
def ask (session : Session α) (question : Reader α → ReaderAnswer α) : ReaderAnswer α :=
  (session.readers[0]?.map question).getD .missing

/-- Performs a call. -/
def perform (session : Session α) : ReaderCall → ReaderAnswer α × Session α
  | .start => session.move Reader.start
  | .advance => session.move Reader.advance
  | .current =>
    (session.ask fun reader =>
      match reader.current with
      | .error cause => .failed cause
      | .ok value => .value value, session)
  | .consumed => (session.ask fun reader => .share reader.consumed, session)
  | .currentSource => (session.ask fun reader => .source reader.currentSource, session)
  | .handle => (.made, session.handleOn 0)
  | .clone handle => (.made, session.cloneHandle handle)
  | .split splitter fraction =>
    match session.target? splitter with
    | none => (.missing, session)
    | some (number, reader) =>
      let (residual, session) := session.split number reader fraction
      (.residual (residual.map Prod.fst), session)

/-- Performs calls one after the other. -/
def performAll (session : Session α) (calls : List ReaderCall) : Session α :=
  calls.foldl (fun session call => (session.perform call).2) session

end Session

/-- How the range of a reader of a source from `start` on may go on. -/
structure ReadRange.Follows (start : Nat) (range next : ReadRange) : Prop where
  enters : range.position = none → next.position = none ∨ next.position = some start
  /-- The position never goes back, and goes up by one at most. -/
  moves : ∀ position, range.position = some position →
    next.position = some position ∨ next.position = some (position + 1)
  liveEnd_le : next.liveEnd ≤ range.liveEnd
  /-- Nothing changes once the reader is exhausted. -/
  settled : range.done = true → next = range

/-- When a call fails. -/
def ReaderCall.Fails (source : Source α) (range : ReadRange) : ReaderCall → Prop
  | .start => range.position.isSome = true ∨ range.done = true
  | .advance => range.position = none ∧ range.done = false
  | .current => ∀ position, range.current? = some position →
      ∃ cause, source.buffer.decode position = .error cause
  | _ => False

/-- What a call on a reader of a source answers, and what it does to the reader's range. -/
structure ReaderCall.Effect (source : Source α) (call : ReaderCall) (range : ReadRange)
    (answer : ReaderAnswer α) (next : ReadRange) : Prop where
  follows : range.Follows source.start next
  fails_iff : (∃ cause, answer = .failed cause) ↔ call.Fails source range
  /-- A call that fails leaves the range as it was. -/
  failed : ∀ cause, answer = .failed cause → next = range
  /-- A rejected split leaves the range as it was. -/
  rejected : answer = .residual none → next = range
  /-- A split is accepted only at a fraction between zero and one, while the reader stands on an
  element. It moves the live end alone, leaves an element to read, and gives the rest away. -/
  accepted : ∀ residual, answer = .residual (some residual) →
    ∃ splitter fraction position, call = .split splitter fraction ∧
      (Numeric.Binary64.zero false).lt fraction = true ∧
      fraction.lt (Numeric.Binary64.ofNat 1) = true ∧
      range.done = false ∧ range.position = some position ∧
      next = { range with liveEnd := next.liveEnd } ∧
      position + 1 < next.liveEnd ∧ next.liveEnd < range.liveEnd ∧
      residual = source.withRange next.liveEnd range.liveEnd

namespace ReadRange.Follows

variable {start : Nat} {range : ReadRange}

theorem refl (start : Nat) (range : ReadRange) : range.Follows start range where
  enters := Or.inl
  moves := fun _ => Or.inl
  liveEnd_le := Nat.le_refl _
  settled := fun _ => rfl

end ReadRange.Follows

namespace Reader

variable {reader next : Reader α} {more : Bool} {fraction : Numeric.Binary64}

/-- A start that succeeds finds the reader neither started nor exhausted. -/
theorem follows_of_start (h : reader.start = .ok (more, next)) :
    reader.range.Follows reader.source.start next.range := by
  have hdone : reader.range.done = false := by
    rw [start_eq] at h
    split at h
    · simp at h
    next hfresh => simp_all
  obtain ⟨hfresh, ⟨-, rfl⟩ | ⟨-, rfl⟩⟩ := start_eq_ok h
  · refine ⟨fun _ => Or.inr rfl, ?_, Nat.le_refl _, ?_⟩
    · simp [hfresh]
    · simp [hdone]
  · refine ⟨Or.inl, fun _ => Or.inl, Nat.le_refl _, ?_⟩
    simp [hdone]

theorem follows_of_advance (h : reader.advance = .ok (more, next)) :
    reader.range.Follows reader.source.start next.range := by
  rcases advance_eq_ok h with rfl | ⟨position, hcurrent, hcases⟩
  · exact ReadRange.Follows.refl _ _
  · obtain ⟨hdone, hposition⟩ := ReadRange.current?_eq_some_iff.mp hcurrent
    rcases hcases with ⟨-, rfl⟩ | ⟨-, rfl⟩
    · refine ⟨?_, ?_, Nat.le_refl _, ?_⟩
      · simp [hposition]
      · simp [hposition]
      · simp [hdone]
    · refine ⟨Or.inl, fun _ => Or.inl, Nat.le_refl _, ?_⟩
      simp [hdone]

theorem follows_of_split (reader : Reader α) (fraction : Numeric.Binary64) :
    reader.range.Follows reader.source.start (reader.split fraction).2.range := by
  rcases reader.split_cases fraction with h | ⟨position, point, hcurrent, -, hlive, h⟩
  · rw [h]
    exact ReadRange.Follows.refl _ _
  · have hdone := (ReadRange.current?_eq_some_iff.mp hcurrent).1
    rw [h]
    refine ⟨Or.inl, fun _ => Or.inl, Nat.le_of_lt hlive, ?_⟩
    simp [hdone]

end Reader

/-! ## Single calls -/

/-- What a call does that does not ask for a split. -/
theorem ReaderCall.Effect.of_not_residual {source : Source α} {call : ReaderCall}
    {range next : ReadRange} {answer : ReaderAnswer α}
    (follows : range.Follows source.start next)
    (fails_iff : (∃ cause, answer = .failed cause) ↔ call.Fails source range)
    (failed : ∀ cause, answer = .failed cause → next = range)
    (hanswer : ∀ residual, answer ≠ .residual residual) :
    call.Effect source range answer next where
  follows := follows
  fails_iff := fails_iff
  failed := failed
  rejected := fun h => absurd h (hanswer none)
  accepted := fun residual h => absurd h (hanswer (some residual))

/-- A question leaves the reader as it is. -/
theorem ReaderCall.Effect.of_question {source : Source α} {call : ReaderCall} {range : ReadRange}
    {answer : ReaderAnswer α}
    (fails_iff : (∃ cause, answer = .failed cause) ↔ call.Fails source range)
    (hanswer : ∀ residual, answer ≠ .residual residual) :
    call.Effect source range answer range :=
  .of_not_residual (.refl _ _) fails_iff (fun _ _ => rfl) hanswer

namespace Session

variable {session : Session α} {reader next : Reader α} {splitter : Splitter}
  {fraction : Numeric.Binary64}

/-- The only reader of the session. -/
theorem getElem?_of_readers_eq (hreaders : session.readers = #[reader]) :
    session.readers[0]? = some reader := by
  simp [hreaders]

theorem move_of_error (hreaders : session.readers = #[reader])
    {action : Reader α → Except Failure (Bool × Reader α)} {cause : Failure}
    (haction : action reader = .error cause) : session.move action = (.failed cause, session) := by
  simp only [move, getElem?_of_readers_eq hreaders, haction]

theorem move_of_ok (hreaders : session.readers = #[reader])
    {action : Reader α → Except Failure (Bool × Reader α)} {more : Bool}
    (haction : action reader = .ok (more, next)) :
    session.move action = (.moved more, session.setReader 0 next) := by
  simp only [move, getElem?_of_readers_eq hreaders, haction]

theorem ask_eq (hreaders : session.readers = #[reader]) (question : Reader α → ReaderAnswer α) :
    session.ask question = question reader := by
  simp only [ask, getElem?_of_readers_eq hreaders, Option.map_some, Option.getD_some]

theorem target?_eq (hreaders : session.readers = #[reader]) {number : Nat} {found : Reader α}
    (h : session.target? splitter = some (number, found)) : number = 0 ∧ found = reader := by
  have hfound := readers_of_target? h
  rw [hreaders] at hfound
  obtain ⟨hlt, rfl⟩ := Array.getElem?_eq_some_iff.mp hfound
  obtain rfl : number = 0 := by simpa using hlt
  exact ⟨rfl, rfl⟩

/-- A split answers what the reader answers, and leaves of the reader what that leaves. -/
theorem perform_split (hreaders : session.readers = #[reader])
    (htarget : session.target? splitter = some (0, reader)) (fraction : Numeric.Binary64) :
    (session.perform (.split splitter fraction)).1 = .residual (reader.split fraction).1 ∧
      (session.perform (.split splitter fraction)).2.readers = #[(reader.split fraction).2] := by
  simp only [perform, htarget, split, setReader, hreaders]
  cases (reader.split fraction).1 <;> simp [addResidual, addSource]

/-- Starting and advancing leave a trace only where they succeed. -/
theorem move_effect (hreaders : session.readers = #[reader])
    {action : Reader α → Except Failure (Bool × Reader α)} {call : ReaderCall}
    (hok : ∀ more next, action reader = .ok (more, next) →
      Reader.Change reader next ∧ reader.range.Follows reader.source.start next.range)
    (hfails : (∃ cause, action reader = .error cause) ↔ call.Fails reader.source reader.range) :
    ∃ next, (session.move action).2.readers = #[next] ∧ Reader.Change reader next ∧
      call.Effect reader.source reader.range (session.move action).1 next.range := by
  cases haction : action reader with
  | error cause =>
      rw [move_of_error hreaders haction]
      refine ⟨reader, hreaders, .stay, .of_question ?_ (by simp)⟩
      rw [← hfails, haction]
      simp
  | ok result =>
      obtain ⟨more, next⟩ := result
      obtain ⟨hchange, hfollows⟩ := hok more next haction
      rw [move_of_ok hreaders haction]
      refine ⟨next, by simp [setReader, hreaders], hchange, .of_not_residual hfollows ?_ ?_ ?_⟩
      · rw [← hfails, haction]
        simp
      · simp
      · simp

/-- A split is accepted or leaves no trace, whoever asks for it. -/
theorem split_effect (hreaders : session.readers = #[reader]) (splitter : Splitter)
    (fraction : Numeric.Binary64) :
    ∃ next, (session.perform (.split splitter fraction)).2.readers = #[next] ∧
      Reader.Change reader next ∧
      (ReaderCall.split splitter fraction).Effect reader.source reader.range
        (session.perform (.split splitter fraction)).1 next.range := by
  cases htarget : session.target? splitter with
  | none =>
      simp only [perform, htarget]
      exact ⟨reader, hreaders, .stay, .of_question (by simp [ReaderCall.Fails]) (by simp)⟩
  | some found =>
      obtain ⟨number, other⟩ := found
      obtain ⟨rfl, rfl⟩ := target?_eq hreaders htarget
      obtain ⟨hanswer, hnext⟩ := perform_split hreaders htarget fraction
      have hfollows := other.follows_of_split fraction
      refine ⟨_, hnext, other.change_of_split fraction, hfollows, ?_, ?_, ?_, ?_⟩
      · simp [hanswer, ReaderCall.Fails]
      · simp [hanswer]
      · intro hnone
        rcases other.split_cases fraction with h | ⟨position, point, -, -, -, h⟩
        · rw [h]
        · simp [hanswer, h] at hnone
      · intro residual hsome
        rcases other.split_cases fraction with h | ⟨position, point, hcurrent, hunread, hlive, h⟩
        · simp [hanswer, h] at hsome
        · obtain ⟨hdone, hposition⟩ := ReadRange.current?_eq_some_iff.mp hcurrent
          have hfraction := Reader.isSplitFraction_of_split h
          simp only [ReadRange.isSplitFraction, Bool.and_eq_true] at hfraction
          rw [hanswer, h] at hsome
          obtain rfl := Option.some.inj (ReaderAnswer.residual.inj hsome)
          rw [h]
          exact ⟨splitter, fraction, position, rfl, hfraction.1, hfraction.2, hdone, hposition,
            rfl, hunread, hlive, rfl⟩

/-- What any call does to the only reader of a session. -/
theorem perform_effect (hreaders : session.readers = #[reader]) (call : ReaderCall) :
    ∃ next, (session.perform call).2.readers = #[next] ∧ Reader.Change reader next ∧
      call.Effect reader.source reader.range (session.perform call).1 next.range := by
  cases call with
  | start =>
      refine move_effect hreaders ?_ ?_
      · intro more next h
        exact ⟨Reader.change_of_start h, Reader.follows_of_start h⟩
      · rw [Reader.start_eq, ReaderCall.Fails]
        split
        next h => simpa using h
        next h =>
          split <;> simpa using h
  | advance =>
      refine move_effect hreaders ?_ ?_
      · intro more next h
        exact ⟨Reader.change_of_advance h, Reader.follows_of_advance h⟩
      · rw [Reader.advance_eq, ReaderCall.Fails]
        split
        next h => simp [h]
        next h =>
          cases hposition : reader.range.position with
          | none => simpa using h
          | some position =>
              dsimp only
              split <;> simp
  | current =>
      refine ⟨reader, hreaders, .stay, .of_question ?_ ?_⟩
      · simp only [perform, ask_eq hreaders, ReaderCall.Fails, Reader.current]
        cases hcurrent : reader.range.current? with
        | none => simp
        | some position =>
            cases hdecode : reader.source.buffer.decode position <;> simp [hdecode]
      · simp only [perform, ask_eq hreaders]
        cases reader.current <;> simp
  | consumed =>
      refine ⟨reader, hreaders, .stay, .of_question ?_ ?_⟩
      · simp [perform, ask_eq hreaders, ReaderCall.Fails]
      · simp [perform, ask_eq hreaders]
  | currentSource =>
      refine ⟨reader, hreaders, .stay, .of_question ?_ ?_⟩
      · simp [perform, ask_eq hreaders, ReaderCall.Fails]
      · simp [perform, ask_eq hreaders]
  | handle =>
      refine ⟨reader, by simpa [perform] using hreaders, .stay, .of_question ?_ ?_⟩
      · simp [perform, ReaderCall.Fails]
      · simp [perform]
  | clone handle =>
      refine ⟨reader, by simpa [perform] using hreaders, .stay, .of_question ?_ ?_⟩
      · simp [perform, ReaderCall.Fails]
      · simp [perform]
  | split splitter fraction => exact split_effect hreaders splitter fraction

/-! ## Sequences of calls -/

theorem performAll_sound (hreaders : session.readers = #[reader]) (hsound : reader.Sound)
    (calls : List ReaderCall) :
    ∃ next, (session.performAll calls).readers = #[next] ∧ next.source = reader.source ∧
      next.Sound := by
  induction calls generalizing session reader with
  | nil => exact ⟨reader, hreaders, rfl, hsound⟩
  | cons call rest ih =>
      obtain ⟨next, hnext, hchange, -⟩ := perform_effect hreaders call
      obtain ⟨last, hlast, hsource, hlastSound⟩ := ih hnext (hchange.sound hsound)
      exact ⟨last, hlast, hsource.trans hchange.source_eq, hlastSound⟩

/-- After whatever calls, the live end of a reader lies within its source, and its position, if
there is one, before the live end. The next call, whichever it is, moves the position on by at most
one, the live end at most back, and nothing of an exhausted reader; a call that fails and a rejected
split change nothing, and an accepted split moves the live end alone. -/
theorem reader_stays_in_range {source : Source α} (hvalid : source.Valid)
    (calls : List ReaderCall) :
    let session := (opened source).performAll calls
    ∃ range : ReadRange, session.readers = #[⟨source, range⟩] ∧
      source.start ≤ range.liveEnd ∧ range.liveEnd ≤ source.stop ∧
      (∀ position, range.position = some position →
        source.start ≤ position ∧ position < range.liveEnd) ∧
      ∀ call, ∃ next : ReadRange, (session.perform call).2.readers = #[⟨source, next⟩] ∧
        ReaderCall.Effect source call range (session.perform call).1 next := by
  intro session
  have hopened : (opened source).readers = #[Reader.ofSource source] := rfl
  obtain ⟨⟨_, range⟩, hreaders, rfl, hsound⟩ :=
    performAll_sound hopened (Reader.sound_ofSource hvalid) calls
  refine ⟨range, hreaders, hsound.start_le_liveEnd, hsound.liveEnd_le_stop, hsound.position_mem,
    fun call => ?_⟩
  obtain ⟨⟨_, next⟩, hnext, hchange, heffect⟩ := perform_effect hreaders call
  obtain rfl := hchange.source_eq
  exact ⟨next, hnext, heffect⟩

/-- A reader of four numbers stands on the second when a clone of a handle splits off the last. -/
theorem reader_stays_in_range_fourNumbers :
    let calls := [.start, .handle, .clone 0, .advance]
    let call := ReaderCall.split (.handle 1) (.ofQuotient false 3 4)
    ∃ range next : ReadRange,
      ((opened Source.fourNumbers).performAll calls).readers = #[⟨Source.fourNumbers, range⟩] ∧
      (((opened Source.fourNumbers).performAll calls).perform call).2.readers =
        #[⟨Source.fourNumbers, next⟩] ∧
      range = ⟨some 1, 4, false⟩ ∧ next = ⟨some 1, 3, false⟩ ∧ range.Follows 0 next := by
  intro calls call
  have hvalid : Source.fourNumbers.Valid := Source.valid_ofBuffer _
  obtain ⟨range, hrange, -, -, -, hcalls⟩ := reader_stays_in_range hvalid calls
  obtain ⟨next, hnext, heffect⟩ := hcalls call
  have hbefore : ((opened Source.fourNumbers).performAll calls).readers.map Reader.range =
      #[⟨some 1, 4, false⟩] := by decide +kernel
  have hafter : (((opened Source.fourNumbers).performAll calls).perform call).2.readers.map
      Reader.range = #[⟨some 1, 3, false⟩] := by decide +kernel
  rw [hrange] at hbefore
  rw [hnext] at hafter
  exact ⟨range, next, hrange, hnext, by simpa using hbefore, by simpa using hafter,
    heffect.follows⟩

end Session

end BundledReading

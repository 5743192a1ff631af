import BundledReading.Proofs.Elements
import BundledReading.Reader

/-!
# Steps of readers

Starting, advancing and splitting change a reader in few ways, and `Change` lists them once, each
with its guard. All of them keep the reader's position within its live range and its live range
within its source. What a consumer has read so far is told by its progress: no split changes it,
and each of the consumer's own steps carries it on.
-/

namespace BundledReading

variable {α : Type}

theorem ReadRange.current?_eq_some_iff {range : ReadRange} {position : Nat} :
    range.current? = some position ↔ range.done = false ∧ range.position = some position := by
  cases hdone : range.done <;> simp [ReadRange.current?, hdone]

namespace Reader

/-- The range that a reader will have read in the end, as things stand. -/
def liveSpan (reader : Reader α) : Span := (reader.source.start, reader.range.liveEnd)

/-- The position of a reader lies in its live range, and that in the range of its source. -/
structure Sound (reader : Reader α) : Prop where
  valid : reader.source.Valid
  start_le_liveEnd : reader.source.start ≤ reader.range.liveEnd
  liveEnd_le_stop : reader.range.liveEnd ≤ reader.source.stop
  position_mem : ∀ position, reader.range.position = some position →
    reader.source.start ≤ position ∧ position < reader.range.liveEnd

theorem sound_ofSource {source : Source α} (h : source.Valid) : (ofSource source).Sound where
  valid := h
  start_le_liveEnd := h.start_le_stop
  liveEnd_le_stop := Nat.le_refl _
  position_mem := by simp [ofSource, ReadRange.fresh]

namespace Sound

variable {reader : Reader α}

theorem current_mem (h : reader.Sound) {position : Nat}
    (hcurrent : reader.range.current? = some position) :
    reader.source.start ≤ position ∧ position < reader.range.liveEnd :=
  h.position_mem position (ReadRange.current?_eq_some_iff.mp hcurrent).2

theorem liveEnd_le_size (h : reader.Sound) : reader.range.liveEnd ≤ reader.source.buffer.size :=
  Nat.le_trans h.liveEnd_le_stop h.valid.stop_le_size

theorem valid_currentSource (h : reader.Sound) : reader.currentSource.Valid :=
  h.valid.withRange h.start_le_liveEnd h.liveEnd_le_stop

end Sound

/-! ## Changes -/

/-- What a reader may become by starting, advancing or splitting. -/
inductive Change (reader : Reader α) : Reader α → Prop
  /-- A call that fails, a split that is rejected, or an advance past the end. -/
  | stay : Change reader reader
  /-- A start that finds an element. -/
  | enter (hfresh : reader.range.position = none)
      (hmore : reader.source.start < reader.range.liveEnd) :
      Change reader { reader with
        range := { reader.range with position := some reader.source.start } }
  /-- A start that finds none. -/
  | skip (hfresh : reader.range.position = none)
      (hempty : reader.range.liveEnd ≤ reader.source.start) :
      Change reader { reader with range := { reader.range with done := true } }
  /-- An advance to the next element. -/
  | move (position : Nat) (hcurrent : reader.range.current? = some position)
      (hmore : position + 1 < reader.range.liveEnd) :
      Change reader { reader with range := { reader.range with position := some (position + 1) } }
  /-- An advance from the last element. -/
  | exhaust (position : Nat) (hcurrent : reader.range.current? = some position)
      (hlast : reader.range.liveEnd ≤ position + 1) :
      Change reader { reader with range := { reader.range with done := true } }
  /-- An accepted split. -/
  | truncate (position point : Nat) (hcurrent : reader.range.current? = some position)
      (hunread : position + 1 < point) (hresidual : point < reader.range.liveEnd) :
      Change reader { reader with range := { reader.range with liveEnd := point } }

namespace Change

variable {reader next : Reader α}

theorem source_eq (h : Change reader next) : next.source = reader.source := by
  cases h <;> rfl

/-- No change takes a sound reader out of its bounds. -/
theorem sound (h : Change reader next) (hsound : reader.Sound) : next.Sound := by
  obtain ⟨hvalid, hstart, hstop, hposition⟩ := hsound
  cases h with
  | stay => exact ⟨hvalid, hstart, hstop, hposition⟩
  | enter _ hmore =>
      refine ⟨hvalid, hstart, hstop, ?_⟩
      rintro _ ⟨⟩
      exact ⟨Nat.le_refl _, hmore⟩
  | skip _ _ => exact ⟨hvalid, hstart, hstop, hposition⟩
  | move position hcurrent hmore =>
      refine ⟨hvalid, hstart, hstop, ?_⟩
      rintro _ ⟨⟩
      have := hposition position (ReadRange.current?_eq_some_iff.mp hcurrent).2
      exact ⟨Nat.le_succ_of_le this.1, hmore⟩
  | exhaust _ _ _ => exact ⟨hvalid, hstart, hstop, hposition⟩
  | truncate position point hcurrent hunread hresidual =>
      have hsome := (ReadRange.current?_eq_some_iff.mp hcurrent).2
      have hbounds := hposition position hsome
      refine ⟨hvalid, by dsimp only; omega, by dsimp only; omega, ?_⟩
      intro other hother
      obtain rfl : position = other := Option.some.inj (hsome.symm.trans hother)
      exact ⟨hbounds.1, by dsimp only; omega⟩

end Change

/-! ## Calls -/

variable {reader next : Reader α} {more : Bool}

/-- What starting a reader gives. -/
theorem start_eq (reader : Reader α) :
    reader.start =
      if reader.range.position.isSome || reader.range.done then .error .alreadyStarted
      else if reader.source.start < reader.range.liveEnd then
        .ok (true, { reader with
          range := { reader.range with position := some reader.source.start } })
      else .ok (false, { reader with range := { reader.range with done := true } }) := by
  simp only [start, ReadRange.begin]
  split
  · rfl
  · split <;> rfl

/-- A start that succeeds enters the first element, or ends the reader if there is none. -/
theorem start_eq_ok (h : reader.start = .ok (more, next)) :
    reader.range.position = none ∧
      (reader.source.start < reader.range.liveEnd ∧
          next = { reader with
            range := { reader.range with position := some reader.source.start } } ∨
        reader.range.liveEnd ≤ reader.source.start ∧
          next = { reader with range := { reader.range with done := true } }) := by
  rw [start_eq] at h
  split at h
  · simp at h
  next hfresh =>
    refine ⟨by simp_all, ?_⟩
    split at h
    next hmore => exact Or.inl ⟨hmore, (Prod.mk.inj (Except.ok.inj h)).2.symm⟩
    next hempty => exact Or.inr ⟨Nat.le_of_not_lt hempty, (Prod.mk.inj (Except.ok.inj h)).2.symm⟩

theorem change_of_start (h : reader.start = .ok (more, next)) : Change reader next := by
  rcases start_eq_ok h with ⟨hfresh, ⟨hmore, rfl⟩ | ⟨hempty, rfl⟩⟩
  · exact Change.enter hfresh hmore
  · exact Change.skip hfresh hempty

theorem currentSource_of_start (h : reader.start = .ok (more, next)) :
    next.currentSource = reader.currentSource := by
  rcases start_eq_ok h with ⟨-, ⟨-, rfl⟩ | ⟨-, rfl⟩⟩ <;> rfl

/-- A start that finds no element ends the reader. -/
theorem done_of_start (h : reader.start = .ok (false, next)) : next.range.done = true := by
  rw [start_eq] at h
  split at h
  · simp at h
  · split at h
    · simp at h
    · rw [← (Prod.mk.inj (Except.ok.inj h)).2]

/-- What advancing a reader gives. -/
theorem advance_eq (reader : Reader α) :
    reader.advance =
      if reader.range.done then .ok (false, reader)
      else
        match reader.range.position with
        | none => .error .noCurrent
        | some position =>
          if position + 1 < reader.range.liveEnd then
            .ok (true, { reader with
              range := { reader.range with position := some (position + 1) } })
          else .ok (false, { reader with range := { reader.range with done := true } }) := by
  simp only [advance, ReadRange.advance]
  split
  · rfl
  · cases reader.range.position with
    | none => rfl
    | some position =>
        dsimp only
        split <;> rfl

/-- An advance that succeeds finds the reader at its end, moves it on, or ends it. -/
theorem advance_eq_ok (h : reader.advance = .ok (more, next)) :
    next = reader ∨
      ∃ position, reader.range.current? = some position ∧
        (position + 1 < reader.range.liveEnd ∧
            next = { reader with
              range := { reader.range with position := some (position + 1) } } ∨
          reader.range.liveEnd ≤ position + 1 ∧
            next = { reader with range := { reader.range with done := true } }) := by
  rw [advance_eq] at h
  split at h
  · exact Or.inl (Prod.mk.inj (Except.ok.inj h)).2.symm
  next hdone =>
    split at h
    · simp at h
    next position hposition =>
      refine Or.inr ⟨position,
        ReadRange.current?_eq_some_iff.mpr ⟨by simpa using hdone, hposition⟩, ?_⟩
      split at h
      next hmore => exact Or.inl ⟨hmore, (Prod.mk.inj (Except.ok.inj h)).2.symm⟩
      next hlast => exact Or.inr ⟨Nat.le_of_not_lt hlast, (Prod.mk.inj (Except.ok.inj h)).2.symm⟩

theorem change_of_advance (h : reader.advance = .ok (more, next)) : Change reader next := by
  rcases advance_eq_ok h with rfl | ⟨position, hcurrent, ⟨hmore, rfl⟩ | ⟨hlast, rfl⟩⟩
  · exact Change.stay
  · exact Change.move position hcurrent hmore
  · exact Change.exhaust position hcurrent hlast

theorem currentSource_of_advance (h : reader.advance = .ok (more, next)) :
    next.currentSource = reader.currentSource := by
  rcases advance_eq_ok h with rfl | ⟨_, -, ⟨-, rfl⟩ | ⟨-, rfl⟩⟩ <;> rfl

/-- An advance that finds no element ends the reader, or finds it ended. -/
theorem done_of_advance (h : reader.advance = .ok (false, next)) : next.range.done = true := by
  rw [advance_eq] at h
  split at h
  next hdone => rwa [← (Prod.mk.inj (Except.ok.inj h)).2]
  · split at h
    · simp at h
    · split at h
      · simp at h
      · rw [← (Prod.mk.inj (Except.ok.inj h)).2]

/-- A split is rejected, or gives away what lies behind a point past the current element and
before the live end. -/
theorem split_cases (reader : Reader α) (fraction : Numeric.Binary64) :
    reader.split fraction = (none, reader) ∨
      ∃ position point, reader.range.current? = some position ∧ position + 1 < point ∧
        point < reader.range.liveEnd ∧
        reader.split fraction =
          (some (reader.source.withRange point reader.range.liveEnd),
            { reader with range := { reader.range with liveEnd := point } }) := by
  cases hpoint : reader.range.splitPoint reader.source.start fraction with
  | none =>
      left
      simp only [split, ReadRange.split_of_none hpoint, Option.map_none]
  | some point =>
      right
      obtain ⟨_, position, hcurrent, _, hunread, hresidual⟩ :=
        ReadRange.splitPoint_eq_some_iff.mp hpoint
      refine ⟨position, point, hcurrent, hunread, hresidual, ?_⟩
      simp only [split, ReadRange.split_of_some hpoint, Option.map_some]

theorem change_of_split (reader : Reader α) (fraction : Numeric.Binary64) :
    Change reader (reader.split fraction).2 := by
  rcases reader.split_cases fraction with h | ⟨position, point, hcurrent, hunread, hresidual, h⟩
  · rw [h]
    exact Change.stay
  · rw [h]
    exact Change.truncate position point hcurrent hunread hresidual

/-- A split that is accepted gives away what lies behind a point past the current element. -/
theorem split_eq_some {fraction : Numeric.Binary64} {residual : Source α}
    (h : reader.split fraction = (some residual, next)) :
    ∃ position point, reader.range.current? = some position ∧ position + 1 < point ∧
      point < reader.range.liveEnd ∧
      residual = reader.source.withRange point reader.range.liveEnd ∧
      next = { reader with range := { reader.range with liveEnd := point } } := by
  rcases reader.split_cases fraction with
    hnone | ⟨position, point, hcurrent, hunread, hlive, hsome⟩
  · rw [hnone] at h
    exact absurd (congrArg Prod.fst h) (by simp)
  · rw [hsome] at h
    cases h
    exact ⟨position, point, hcurrent, hunread, hlive, rfl, rfl⟩

/-- Splits are accepted only at fractions between zero and one. -/
theorem isSplitFraction_of_split {fraction : Numeric.Binary64} {residual : Source α}
    (h : reader.split fraction = (some residual, next)) :
    ReadRange.isSplitFraction fraction = true := by
  cases hpoint : reader.range.splitPoint reader.source.start fraction with
  | none => simp [split, ReadRange.split_of_none hpoint] at h
  | some point => exact (ReadRange.splitPoint_eq_some_iff.mp hpoint).1

/-- A split that is rejected leaves the reader as it was. -/
theorem eq_of_split_eq_none {fraction : Numeric.Binary64}
    (h : reader.split fraction = (none, next)) : next = reader := by
  rcases reader.split_cases fraction with hnone | ⟨position, point, -, -, -, hsome⟩
  · exact (congrArg Prod.snd (h.symm.trans hnone) :)
  · exact absurd (congrArg Prod.fst (h.symm.trans hsome)) (by simp)

/-- Nothing can be split off a reader that has run out of elements. -/
theorem split_of_done (h : reader.range.done = true) (fraction : Numeric.Binary64) :
    reader.split fraction = (none, reader) := by
  rcases reader.split_cases fraction with hnone | ⟨position, point, hcurrent, -, -, -⟩
  · exact hnone
  · have hdone := (ReadRange.current?_eq_some_iff.mp hcurrent).1
    exact absurd (hdone.symm.trans h) (by simp)

/-- A split cuts in two what the reader covers. -/
theorem Sound.covers_split (h : reader.Sound) {fraction : Numeric.Binary64} {residual : Source α}
    (hsplit : reader.split fraction = (some residual, next)) :
    Covers reader.currentSource [next.currentSource, residual] := by
  obtain ⟨position, point, hcurrent, hunread, hlive, rfl, rfl⟩ := split_eq_some hsplit
  have hleft : reader.source.start < point :=
    Nat.lt_of_le_of_lt (Nat.le_succ_of_le (h.current_mem hcurrent).1) hunread
  refine ⟨(Tiles.whole h.start_le_liveEnd).cut hleft hlive, ?_⟩
  simp [currentSource, Source.withRange]

/-! ## Progress -/

/-- How far the consumer of a reader has come. -/
inductive Progress where
  /-- The reader has not started. -/
  | unstarted
  /-- The reader stands on an element that has not been read. -/
  | standing
  /-- The reader stands on the element that was read last. -/
  | served
  /-- The reader has run out of elements. -/
  | exhausted

/-- The consumer of a reader has come so far, and has read `values`. -/
def Reached (reader : Reader α) (values : List α) : Progress → Prop
  | .unstarted => reader.range.position = none ∧ reader.range.done = false ∧ values = []
  | .standing => ∃ position, reader.range.current? = some position ∧
      reader.source.buffer.slice reader.source.start position = values.map .ok
  | .served => ∃ position, reader.range.current? = some position ∧
      reader.source.buffer.slice reader.source.start (position + 1) = values.map .ok
  | .exhausted => reader.range.done = true ∧ reader.currentSource.elements = values.map .ok

/-- The progress that the answer of `start` or `advance` tells. -/
def Progress.after (more : Bool) : Progress := if more then .standing else .exhausted

variable {values : List α} {progress : Progress}

theorem reached_ofSource (source : Source α) : (ofSource source).Reached [] .unstarted :=
  ⟨rfl, rfl, rfl⟩

/-- The first start of a reader succeeds. -/
theorem Reached.start (h : reader.Reached values .unstarted) (hsound : reader.Sound) :
    ∃ more next, reader.start = .ok (more, next) ∧ next.Reached values (.after more) ∧
      next.liveSpan = reader.liveSpan := by
  obtain ⟨hposition, hdone, rfl⟩ := h
  rw [start_eq, if_neg (by simp [hposition, hdone])]
  split
  · refine ⟨true, _, rfl, ⟨reader.source.start, ?_, by simp⟩, rfl⟩
    exact ReadRange.current?_eq_some_iff.mpr ⟨hdone, rfl⟩
  next hempty =>
    have heq : reader.range.liveEnd = reader.source.start :=
      Nat.le_antisymm (Nat.le_of_not_lt hempty) hsound.start_le_liveEnd
    refine ⟨false, _, rfl, ⟨rfl, ?_⟩, rfl⟩
    simp [currentSource, Source.elements, Source.withRange, heq]

/-- Reading where the reader stands gives what decoding gives there. -/
theorem Reached.current (h : reader.Reached values .standing) (hsound : reader.Sound) :
    ∃ position, reader.source.start ≤ position ∧ position < reader.range.liveEnd ∧
      reader.range.current? = some position ∧
      reader.current = reader.source.buffer.decode position ∧
      ∀ value, reader.source.buffer.decode position = .ok value →
        reader.Reached (values ++ [value]) .served := by
  obtain ⟨position, hcurrent, hvalues⟩ := h
  have hbounds := hsound.current_mem hcurrent
  refine ⟨position, hbounds.1, hbounds.2, hcurrent, by simp [Reader.current, hcurrent], ?_⟩
  intro value hvalue
  refine ⟨position, hcurrent, ?_⟩
  rw [Buffer.slice_concat _ hbounds.1, hvalues, hvalue, List.map_append]
  rfl

/-- Advancing past an element that was read succeeds. -/
theorem Reached.advance (h : reader.Reached values .served) (hsound : reader.Sound) :
    ∃ more next, reader.advance = .ok (more, next) ∧ next.Reached values (.after more) ∧
      next.liveSpan = reader.liveSpan := by
  obtain ⟨position, hcurrent, hvalues⟩ := h
  obtain ⟨hdone, hposition⟩ := ReadRange.current?_eq_some_iff.mp hcurrent
  have hbounds := hsound.current_mem hcurrent
  simp only [advance_eq, hdone, hposition, Bool.false_eq_true, if_false]
  split
  · refine ⟨true, _, rfl, ⟨position + 1, ?_, hvalues⟩, rfl⟩
    exact ReadRange.current?_eq_some_iff.mpr ⟨rfl, rfl⟩
  next hlast =>
    have heq : reader.range.liveEnd = position + 1 := by omega
    refine ⟨false, _, rfl, ⟨rfl, ?_⟩, rfl⟩
    simpa [currentSource, Source.elements, Source.withRange, heq] using hvalues

/-- A consumer that is to read the current element has read fewer than there are to read. -/
theorem Reached.lt_liveEnd (h : reader.Reached values .standing) (hsound : reader.Sound) :
    reader.source.start + values.length < reader.range.liveEnd := by
  obtain ⟨position, hcurrent, hvalues⟩ := h
  have hbounds := hsound.current_mem hcurrent
  have hlength := Buffer.length_of_slice_eq hvalues
  omega

/-- What was read ends with the current element at the latest. -/
theorem Reached.length_le (h : reader.Reached values progress) (hsound : reader.Sound)
    {position : Nat} (hcurrent : reader.range.current? = some position) :
    reader.source.start + values.length ≤ position + 1 := by
  obtain ⟨hdone, hposition⟩ := ReadRange.current?_eq_some_iff.mp hcurrent
  have hstart := (hsound.current_mem hcurrent).1
  cases progress with
  | unstarted => exact absurd (hposition.symm.trans h.1) (by simp)
  | standing =>
      obtain ⟨found, hfound, hvalues⟩ := h
      obtain rfl : found = position := Option.some.inj (hfound.symm.trans hcurrent)
      have hlength := Buffer.length_of_slice_eq hvalues
      omega
  | served =>
      obtain ⟨found, hfound, hvalues⟩ := h
      obtain rfl : found = position := Option.some.inj (hfound.symm.trans hcurrent)
      have hlength := Buffer.length_of_slice_eq hvalues
      omega
  | exhausted => exact absurd (hdone.symm.trans h.1) (by simp)

/-- Splits do not touch what the consumer has read. -/
theorem Reached.split (h : reader.Reached values progress) (fraction : Numeric.Binary64) :
    (reader.split fraction).2.Reached values progress := by
  rcases reader.split_cases fraction with hnone | ⟨position, point, hcurrent, -, -, hsome⟩
  · rw [hnone]
    exact h
  · obtain ⟨hdone, hposition⟩ := ReadRange.current?_eq_some_iff.mp hcurrent
    rw [hsome]
    cases progress with
    | unstarted => exact absurd (hposition.symm.trans h.1) (by simp)
    | standing => exact h
    | served => exact h
    | exhausted => exact absurd (hdone.symm.trans h.1) (by simp)

end Reader

end BundledReading

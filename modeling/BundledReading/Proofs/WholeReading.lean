import BundledReading.Contract.Reading
import BundledReading.Proofs.ReaderSteps

/-!
# Reading a whole source

A fresh reader that is read to its end gives the elements of its source in order, or the failure
of the first of them that does not decode. This holds for every budget that is no smaller than the
source.

## Implementation notes

A call that answers a plain result leaves the shared state alone, so what a check makes of a call
is that result next to a state (`answer`).
-/

namespace BundledReading

open Contract

variable {σ R S α β γ : Type}

/-- The elements of a source, or the first failure to decode one. -/
def Source.read (source : Source α) : Except Failure (List α) := source.elements.mapM id

theorem mapM_id_map_ok (values : List α) :
    (values.map (Except.ok (ε := Failure))).mapM id = .ok values := by
  induction values with
  | nil => rfl
  | cons value rest ih =>
      rw [List.map_cons, List.mapM_cons, ih]
      rfl

theorem Source.read_eq_ok {source : Source α} {values : List α}
    (h : source.elements = values.map .ok) : source.read = .ok values := by
  rw [Source.read, h, mapM_id_map_ok]

namespace Contract

/-- What a check makes of a plain result. -/
def answer (result : Except Failure β) (state : σ) : EStateM.Result CheckError σ β :=
  match result with
  | .ok value => .ok value state
  | .error cause => .error (.failure cause) state

theorem bind_of_ok {action : Check σ β} {next : β → Check σ γ} {state after : σ} {value : β}
    (h : action state = .ok value after) : (action >>= next) state = next value after := by
  simp only [bind, EStateM.bind, h]

theorem bind_of_error {action : Check σ β} {next : β → Check σ γ} {state after : σ}
    {cause : CheckError} (h : action state = .error cause after) :
    (action >>= next) state = .error cause after := by
  simp only [bind, EStateM.bind, h]

theorem map_of_answer {action : Check σ β} {f : β → γ} {state after : σ}
    {result : Except Failure β} (h : action state = answer result after) :
    (action >>= fun value => pure (f value)) state =
      answer (result >>= fun value => pure (f value)) after := by
  cases result with
  | ok value => exact bind_of_ok h
  | error cause => exact bind_of_error h

theorem withReader_of_ok {reader next : R} {action : Check (R × σ) β} {state after : σ} {value : β}
    (h : action (reader, state) = .ok value (next, after)) :
    withReader reader action state = .ok (value, next) after := by
  simp only [withReader, h]

theorem withReader_of_error {reader next : R} {action : Check (R × σ) β} {state after : σ}
    {cause : CheckError} (h : action (reader, state) = .error cause (next, after)) :
    withReader reader action state = .error cause after := by
  simp only [withReader, h]

theorem withReader_of_answer {reader next : R} {state : σ} {action : Check (R × σ) β}
    {result : Except Failure β} (h : action (reader, state) = answer result (next, state)) :
    withReader reader action state = answer (result.map (·, next)) state := by
  cases result with
  | ok value => exact withReader_of_ok h
  | error cause => exact withReader_of_error h

theorem perform_current (reader : Reader α) :
    perform (inMemory α).current (reader, ()) = answer reader.current (reader, ()) := by
  cases h : reader.current <;> simp [perform, inMemory, onReader, answer, h, Except.map]

theorem perform_openSource (source : Source α) :
    perform ((inMemory α).openSource source) () = .ok (Reader.ofSource source) () := rfl

theorem perform_start {reader next : Reader α} {more : Bool}
    (h : reader.start = .ok (more, next)) :
    perform (inMemory α).start (reader, ()) = .ok more (next, ()) := by
  simp [perform, inMemory, onReader, h]

theorem perform_advance {reader next : Reader α} {more : Bool}
    (h : reader.advance = .ok (more, next)) :
    perform (inMemory α).advance (reader, ()) = .ok more (next, ()) := by
  simp [perform, inMemory, onReader, h]

/-- A reader that stands on an element is read to its live end. -/
theorem readWhile_inMemory {budget position : Nat} {reader : Reader α}
    (hcurrent : reader.range.current? = some position)
    (hposition : position < reader.range.liveEnd)
    (hbudget : reader.range.liveEnd - position ≤ budget) :
    ∃ next, (inMemory α).readWhile budget true (reader, ()) =
      answer ((reader.source.buffer.slice position reader.range.liveEnd).mapM id) (next, ()) := by
  induction budget generalizing reader position with
  | zero => omega
  | succ budget ih =>
      rw [Buffer.slice_cons _ hposition, List.mapM_cons, SourceModel.readWhile]
      have hread : perform (inMemory α).current (reader, ()) =
          answer (reader.source.buffer.decode position) (reader, ()) := by
        rw [perform_current]
        simp [Reader.current, hcurrent]
      cases hdecode : reader.source.buffer.decode position with
      | error cause =>
          rw [hdecode] at hread
          exact ⟨reader, bind_of_error hread⟩
      | ok value =>
          rw [hdecode] at hread
          obtain ⟨hdone, hsome⟩ := ReadRange.current?_eq_some_iff.mp hcurrent
          by_cases hmore : position + 1 < reader.range.liveEnd
          · let moved : Reader α :=
              { reader with range := { reader.range with position := some (position + 1) } }
            have hadvance : reader.advance = .ok (true, moved) := by
              simp [Reader.advance_eq, hdone, hsome, hmore, moved]
            have hmoved : moved.range.current? = some (position + 1) :=
              ReadRange.current?_eq_some_iff.mpr ⟨hdone, rfl⟩
            obtain ⟨next, hrest⟩ := ih hmoved hmore (by simp only [moved]; omega)
            refine ⟨next, ?_⟩
            rw [bind_of_ok hread, bind_of_ok (perform_advance hadvance)]
            exact map_of_answer hrest
          · let ended : Reader α := { reader with range := { reader.range with done := true } }
            have hadvance : reader.advance = .ok (false, ended) := by
              simp [Reader.advance_eq, hdone, hsome, hmore, ended]
            refine ⟨ended, ?_⟩
            rw [bind_of_ok hread, bind_of_ok (perform_advance hadvance),
              show reader.range.liveEnd = position + 1 by omega, Buffer.slice_self]
            cases budget <;> rfl

/-- Reading a whole source gives its elements, or the first failure to decode one. -/
theorem readAll_inMemory {budget : Nat} {source : Source α} (hvalid : source.Valid)
    (hbudget : source.size ≤ budget) :
    (inMemory α).readAll budget source () = answer source.read () := by
  have hrest : ∃ next, (inMemory α).readRest budget false (Reader.ofSource source, ()) =
      answer source.read (next, ()) := by
    by_cases hmore : source.start < source.stop
    · let entered : Reader α :=
        { Reader.ofSource source with
          range := { ReadRange.fresh source.stop with position := some source.start } }
      have hstart : (Reader.ofSource source).start = .ok (true, entered) := by
        simp [Reader.start_eq, Reader.ofSource, ReadRange.fresh, hmore, entered]
      have hcurrent : entered.range.current? = some source.start := rfl
      obtain ⟨next, hread⟩ := readWhile_inMemory hcurrent hmore hbudget
      exact ⟨next, (bind_of_ok (perform_start hstart)).trans hread⟩
    · let skipped : Reader α :=
        { Reader.ofSource source with range := { ReadRange.fresh source.stop with done := true } }
      have hstart : (Reader.ofSource source).start = .ok (false, skipped) := by
        simp [Reader.start_eq, Reader.ofSource, ReadRange.fresh, hmore, skipped]
      have hempty : source.read = .ok [] := by
        have heq : source.start = source.stop := by
          have := hvalid.start_le_stop
          omega
        simp [Source.read, Source.elements, heq]
        rfl
      have hread : (inMemory α).readWhile budget false (skipped, ()) = .ok [] (skipped, ()) := by
        cases budget <;> rfl
      refine ⟨skipped, ?_⟩
      rw [hempty]
      exact (bind_of_ok (perform_start hstart)).trans hread
  obtain ⟨next, hrest⟩ := hrest
  rw [SourceModel.readAll, bind_of_ok (perform_openSource source)]
  refine (map_of_answer (withReader_of_answer hrest)).trans ?_
  cases source.read <;> rfl

end Contract

end BundledReading

import BundledReading.Proofs.BundleReading

/-!
# How checks read sources in memory

The readings that checks are put together of are followed here on sources in memory. What a
consumer has read at any time and the progress of its reader are one statement, `Underway`, that
every call keeps, a split at any time included. A reading only fails at the first element that does
not decode (`FailsAt`), and so never on a source whose elements all decode. What is split off always
is what lies behind the live end (`SplitOff`), so in the end nothing is missing and nothing comes
twice.
-/

namespace BundledReading.Contract

open Reader (Progress)

variable {α β γ : Type}

/-- A consumer of a source has read `read` with its reader, and has come so far. -/
structure Underway (source : Source α) (read : List α) (progress : Progress)
    (reader : Reader α) : Prop where
  source_eq : reader.source = source
  sound : reader.Sound
  reached : reader.Reached read progress

/-- Where a check reads on: before the start, or after an element that was read, or at the end. -/
inductive Resumes : Bool → Progress → Prop
  | fresh : Resumes false .unstarted
  | served : Resumes true .served
  | exhausted : Resumes true .exhausted

/-- A check that has started its reader is not before the start. -/
theorem Resumes.started_of_ne {started : Bool} {progress : Progress}
    (h : Resumes started progress) (hne : progress ≠ .unstarted) : started = true := by
  cases h with
  | fresh => exact absurd rfl hne
  | served => rfl
  | exhausted => rfl

/-- What was split off a reader of a source: nothing, or what lies behind its live end. -/
def SplitOff (source : Source α) (liveEnd : Nat) : Option (Source α) → Prop
  | none => liveEnd = source.stop
  | some rest => rest = source.withRange liveEnd source.stop ∧ liveEnd < source.stop

/-- What was split off while a split is under way. -/
def RaceSplitOff (source : Source α) (liveEnd : Nat) : SourceModel.Race (Source α) → Prop
  | .pending _ => liveEnd = source.stop
  | .landed residual => SplitOff source liveEnd residual

/-- A reading has failed at the element of a source with this index, the first that does not
decode. -/
def FailsAt (source : Source α) (index : Nat)
    (result : EStateM.Result CheckError (Reader α × Unit) β) : Prop :=
  ∃ cause last, result = .error (.failure (.decode index cause)) (last, ()) ∧
    source.buffer.RefusedFirst source.start source.stop index cause

variable {source rest : Source α} {values read : List α} {progress : Progress}
  {reader next : Reader α} {budget : Nat} {started more : Bool} {fraction : Numeric.Binary64}

section FailsAt

variable {index : Nat} {result : EStateM.Result CheckError (Reader α × Unit) β}
  {action : Check (Reader α × Unit) β} {next : β → Check (Reader α × Unit) γ}
  {state : Reader α × Unit}

theorem FailsAt.bind (h : FailsAt source index (action state)) :
    FailsAt source index ((action >>= next) state) := by
  obtain ⟨cause, last, hfails, hfirst⟩ := h
  exact ⟨cause, last, bind_of_error hfails, hfirst⟩

/-- Nothing fails on a source whose elements all decode. -/
theorem not_failsAt (hvalues : source.elements = values.map .ok) :
    ¬FailsAt source index result := by
  rintro ⟨cause, last, -, hfirst⟩
  have hread : source.read = .error (.decode index cause) := hfirst.mapM_slice
  rw [Source.read_eq_ok hvalues] at hread
  cases hread

end FailsAt

namespace Underway

theorem ofSource (h : source.Valid) : Underway source [] .unstarted (Reader.ofSource source) where
  source_eq := rfl
  sound := Reader.sound_ofSource h
  reached := Reader.reached_ofSource source

theorem of_change {taken : List α} {after : Progress} (h : Underway source read progress reader)
    (hchange : Reader.Change reader next) (hreached : next.Reached taken after) :
    Underway source taken after next where
  source_eq := hchange.source_eq.trans h.source_eq
  sound := hchange.sound h.sound
  reached := hreached

/-- The reader's next move succeeds, and tells whether there is an element to read. -/
theorem step (h : Underway source read progress reader) (hresumes : Resumes started progress) :
    ∃ more next, (inMemory α).step started (reader, ()) = .ok more (next, ()) ∧
      Underway source read (.after more) next ∧ next.range.liveEnd = reader.range.liveEnd := by
  cases hresumes with
  | fresh =>
      obtain ⟨more, next, hstart, hreached, hlive⟩ := h.reached.start h.sound
      refine ⟨more, next, perform_start hstart, ?_, congrArg Prod.snd hlive⟩
      exact h.of_change (Reader.change_of_start hstart) hreached
  | served =>
      obtain ⟨more, next, hadvance, hreached, hlive⟩ := h.reached.advance h.sound
      refine ⟨more, next, perform_advance hadvance, ?_, congrArg Prod.snd hlive⟩
      exact h.of_change (Reader.change_of_advance hadvance) hreached
  | exhausted =>
      have hadvance : reader.advance = .ok (false, reader) := by
        rw [Reader.advance_eq, if_pos h.reached.1]
      exact ⟨false, reader, perform_advance hadvance, h, rfl⟩

/-- The element that the reader stands on is the first that does not decode, or can be read. -/
theorem current_cases (h : Underway source read .standing reader) :
    FailsAt source (source.start + read.length) (perform (inMemory α).current (reader, ())) ∨
      ∃ value, perform (inMemory α).current (reader, ()) = .ok value (reader, ()) ∧
        Underway source (read ++ [value]) .served reader := by
  obtain ⟨position, hstart, hlive, hstands, hcurrent, hserved⟩ := h.reached.current h.sound
  obtain ⟨found, hfound, hread⟩ := h.reached
  obtain rfl : found = position := Option.some.inj (hfound.symm.trans hstands)
  have hstop := Nat.lt_of_lt_of_le hlive h.sound.liveEnd_le_stop
  have hsize := Nat.lt_of_lt_of_le hlive h.sound.liveEnd_le_size
  rw [h.source_eq] at hstart hcurrent hserved hread hstop hsize
  rw [perform_current, hcurrent]
  cases hdecode : source.buffer.decode found with
  | ok value => exact .inr ⟨value, rfl, h.source_eq, h.sound, hserved value hdecode⟩
  | error failure =>
      obtain ⟨bytes, cause, hget, hcause, rfl⟩ := Buffer.decode_eq_error hsize hdecode
      have hindex : source.start + read.length = found := by
        rw [Buffer.length_of_slice_eq hread]
        omega
      rw [hindex]
      exact .inl ⟨cause, reader, rfl, hstart, hstop, ⟨bytes, hget, hcause⟩,
        Buffer.exists_values_iff.mp ⟨read, hread⟩⟩

/-- The element that the reader stands on can be read if all elements decode. -/
theorem current (h : Underway source read .standing reader)
    (hvalues : source.elements = values.map .ok) :
    ∃ value, perform (inMemory α).current (reader, ()) = .ok value (reader, ()) ∧
      Underway source (read ++ [value]) .served reader :=
  h.current_cases.resolve_left (not_failsAt hvalues)

/-- There is room in the budget for the element that a reader stands on. -/
theorem lt_stop (h : Underway source read .standing reader) :
    source.start + read.length < source.stop := by
  have hlive := h.reached.lt_liveEnd h.sound
  have hstop := h.sound.liveEnd_le_stop
  rw [h.source_eq] at hlive hstop
  exact Nat.lt_of_lt_of_le hlive hstop

/-- A consumer that is through has read all up to the live end. -/
theorem slice_eq (h : Underway source read .exhausted reader) :
    source.buffer.slice source.start reader.range.liveEnd = read.map .ok := by
  rw [← h.source_eq]
  exact h.reached.2

/-! ## Splits -/

theorem split (h : Underway source read progress reader) (fraction : Numeric.Binary64) :
    Underway source read progress (reader.split fraction).2 :=
  h.of_change (reader.change_of_split fraction) (h.reached.split fraction)

/-- The first accepted split gives what lies behind the new live end, and leaves the reader an
element that its consumer has not read. -/
theorem of_split_eq_some (h : Underway source read progress reader)
    (hlive : reader.range.liveEnd = source.stop)
    (hsplit : reader.split fraction = (some rest, next)) :
    SplitOff source next.range.liveEnd (some rest) ∧
      source.start + read.length < next.range.liveEnd ∧
      progress ≠ .unstarted ∧ progress ≠ .exhausted := by
  obtain ⟨position, point, hcurrent, hunread, hresidual, rfl, rfl⟩ := Reader.split_eq_some hsplit
  obtain ⟨hdone, hposition⟩ := ReadRange.current?_eq_some_iff.mp hcurrent
  have hbounds := h.sound.current_mem hcurrent
  have hread := h.reached.length_le h.sound hcurrent
  rw [hlive] at hresidual ⊢
  rw [h.source_eq] at hbounds hread ⊢
  refine ⟨⟨rfl, hresidual⟩, by dsimp only; omega, ?_, ?_⟩
  · rintro rfl
    exact absurd (hposition.symm.trans h.reached.1) (by simp)
  · rintro rfl
    exact absurd (hdone.symm.trans h.reached.1) (by simp)

/-- The outcome of the first split is what lies behind the live end. -/
theorem splitOff_split (h : Underway source read progress reader)
    (hlive : reader.range.liveEnd = source.stop) (fraction : Numeric.Binary64) :
    SplitOff source (reader.split fraction).2.range.liveEnd (reader.split fraction).1 := by
  cases hsplit : reader.split fraction with
  | mk residual next =>
      cases residual with
      | none =>
          obtain rfl := Reader.eq_of_split_eq_none hsplit
          exact hlive
      | some rest => exact (h.of_split_eq_some hlive hsplit).1

/-- Without a split the consumer reads the whole source. -/
theorem read_eq (h : Underway source read .exhausted reader)
    (hvalues : source.elements = values.map .ok) (hlive : reader.range.liveEnd = source.stop) :
    read = values := by
  have hslice := h.slice_eq
  rw [hlive] at hslice
  exact (List.map_inj_right fun _ _ => Except.ok.inj).mp (hslice.symm.trans hvalues)

/-- What was read and what was split off make up the source. -/
theorem read_append_residual (h : Underway source read .exhausted reader)
    (hvalues : source.elements = values.map .ok)
    (hrest : SplitOff source reader.range.liveEnd (some rest)) (hbudget : source.size ≤ budget) :
    ∃ tail, (inMemory α).readAll budget rest () = .ok tail () ∧ read ++ tail = values ∧
      tail.length = source.stop - reader.range.liveEnd := by
  obtain ⟨rfl, hlive⟩ := hrest
  have hstart : source.start ≤ reader.range.liveEnd := h.source_eq ▸ h.sound.start_le_liveEnd
  have hvalid : source.Valid := h.source_eq ▸ h.sound.valid
  have hslices := source.buffer.slice_append hstart (Nat.le_of_lt hlive)
  rw [h.slice_eq, show source.buffer.slice source.start source.stop = values.map .ok from hvalues]
    at hslices
  obtain ⟨front, tail, rfl, hfront, htail⟩ := List.append_eq_map_iff.mp hslices
  obtain rfl : front = read := (List.map_inj_right fun _ _ => Except.ok.inj).mp hfront
  have hsize : (source.withRange reader.range.liveEnd source.stop).size ≤ budget := by
    simp only [Source.size, Source.withRange] at hbudget ⊢
    omega
  have htail : (source.withRange reader.range.liveEnd source.stop).elements = tail.map .ok :=
    htail.symm
  refine ⟨tail, ?_, rfl, Buffer.length_of_slice_eq htail⟩
  rw [readAll_inMemory (hvalid.withRange (Nat.le_of_lt hlive) (Nat.le_refl _)) hsize,
    Source.read_eq_ok htail]
  rfl

/-! ## Readings without a race -/

theorem readWhile_cases (h : Underway source read (.after more) reader)
    (hbudget : source.stop ≤ source.start + read.length + budget) :
    (∃ index, FailsAt source index ((inMemory α).readWhile budget more (reader, ()))) ∨
      ∃ rest last, (inMemory α).readWhile budget more (reader, ()) = .ok rest (last, ()) ∧
        Underway source (read ++ rest) .exhausted last ∧
        last.range.liveEnd = reader.range.liveEnd := by
  induction budget generalizing more read reader with
  | zero =>
      cases more with
      | false => exact .inr ⟨[], reader, rfl, by rwa [List.append_nil], rfl⟩
      | true => exact absurd h.lt_stop (Nat.not_lt.mpr hbudget)
  | succ budget ih =>
      cases more with
      | false => exact .inr ⟨[], reader, rfl, by rwa [List.append_nil], rfl⟩
      | true =>
          rcases h.current_cases with hfails | ⟨value, hcurrent, hserved⟩
          · exact .inl ⟨_, hfails.bind⟩
          obtain ⟨more, next, hadvance, hnext, hlive⟩ := hserved.step .served
          have hmove : perform (inMemory α).advance (reader, ()) = .ok more (next, ()) := hadvance
          have hroom : source.stop ≤ source.start + (read ++ [value]).length + budget := by
            rw [List.length_append, List.length_singleton]
            omega
          rw [SourceModel.readWhile, bind_of_ok hcurrent, bind_of_ok hmove]
          rcases ih hnext hroom with ⟨index, hfails⟩ | ⟨rest, last, hrest, hlast, hlastLive⟩
          · exact .inl ⟨index, hfails.bind⟩
          · refine .inr ⟨value :: rest, last, bind_of_ok hrest, ?_, hlastLive.trans hlive⟩
            rwa [List.append_assoc, List.singleton_append] at hlast

/-- Reading the rest fails at the first element that does not decode, or comes to the end. -/
theorem readRest_cases (h : Underway source read progress reader)
    (hresumes : Resumes started progress) (hbudget : source.size ≤ budget) :
    (∃ index, FailsAt source index ((inMemory α).readRest budget started (reader, ()))) ∨
      ∃ rest last, (inMemory α).readRest budget started (reader, ()) = .ok rest (last, ()) ∧
        Underway source (read ++ rest) .exhausted last ∧
        last.range.liveEnd = reader.range.liveEnd := by
  obtain ⟨more, next, hstep, hnext, hlive⟩ := h.step hresumes
  have hroom : source.stop ≤ source.start + read.length + budget := by
    rw [Source.size] at hbudget
    omega
  rw [SourceModel.readRest, bind_of_ok hstep, ← hlive]
  exact hnext.readWhile_cases hroom

theorem readRest (hvalues : source.elements = values.map .ok)
    (h : Underway source read progress reader) (hresumes : Resumes started progress)
    (hbudget : source.size ≤ budget) :
    ∃ rest last, (inMemory α).readRest budget started (reader, ()) = .ok rest (last, ()) ∧
      Underway source (read ++ rest) .exhausted last ∧
      last.range.liveEnd = reader.range.liveEnd :=
  (h.readRest_cases hresumes hbudget).resolve_left fun ⟨_, hfails⟩ => not_failsAt hvalues hfails

/-- Reading up to `count` elements fails at one of them, the first that does not decode, or gives
that many unless it comes to the end. -/
theorem readFirst_cases (h : Underway source read progress reader)
    (hresumes : Resumes started progress) (count : Nat) :
    (∃ index, index < source.start + read.length + count ∧
        FailsAt source index ((inMemory α).readFirst count started (reader, ()))) ∨
      ∃ taken last after,
        (inMemory α).readFirst count started (reader, ()) = .ok taken (last, ()) ∧
        Underway source (read ++ taken) after last ∧ Resumes (started || 0 < count) after ∧
        last.range.liveEnd = reader.range.liveEnd ∧ taken.length ≤ count ∧
        (after ≠ .exhausted → taken.length = count) := by
  -- The induction goes on after an element was read, where the reader always has been started.
  induction count generalizing started progress read reader with
  | zero =>
      refine .inr ⟨[], reader, progress, rfl, by rwa [List.append_nil], ?_, rfl, Nat.le_refl _,
        fun _ => rfl⟩
      simpa using hresumes
  | succ count ih =>
      obtain ⟨more, next, hstep, hnext, hlive⟩ := h.step hresumes
      rw [SourceModel.readFirst, bind_of_ok hstep]
      cases more with
      | false =>
          refine .inr ⟨[], next, .exhausted, rfl, by rwa [List.append_nil], ?_, hlive,
            Nat.zero_le _, ?_⟩
          · simpa using Resumes.exhausted
          · simp
      | true =>
          rw [if_pos rfl]
          rcases hnext.current_cases with hfails | ⟨value, hcurrent, hserved⟩
          · exact .inl ⟨_, by omega, hfails.bind⟩
          rw [bind_of_ok hcurrent]
          rcases ih hserved .served with ⟨index, hindex, hfails⟩ |
            ⟨taken, last, after, htaken, hlast, hafter, hlastLive, hmost, hlength⟩
          · rw [List.length_append, List.length_singleton] at hindex
            exact .inl ⟨index, by omega, hfails.bind⟩
          · refine .inr ⟨value :: taken, last, after, bind_of_ok htaken, ?_, ?_,
              hlastLive.trans hlive, Nat.succ_le_succ hmost, ?_⟩
            · rwa [List.append_assoc, List.singleton_append] at hlast
            · simpa using hafter
            · intro hunfinished
              rw [List.length_cons, hlength hunfinished]

/-- A consumer that has not come to the end has read as many elements as it was to read. -/
theorem readFirst (hvalues : source.elements = values.map .ok)
    (h : Underway source read progress reader) (hresumes : Resumes started progress)
    (count : Nat) :
    ∃ taken last after, (inMemory α).readFirst count started (reader, ()) = .ok taken (last, ()) ∧
      Underway source (read ++ taken) after last ∧ Resumes (started || 0 < count) after ∧
      last.range.liveEnd = reader.range.liveEnd ∧
      (after ≠ .exhausted → taken.length = count) := by
  rcases h.readFirst_cases hresumes count with ⟨index, -, hfails⟩ |
    ⟨taken, last, after, htaken, hlast, hafter, hlive, -, hlength⟩
  · exact absurd hfails (not_failsAt hvalues)
  · exact ⟨taken, last, after, htaken, hlast, hafter, hlive, hlength⟩

/-! ## Readings with a split under way -/

section Race

variable {race : SourceModel.Race (Source α)}

theorem tick (h : Underway source read progress reader)
    (hrace : RaceSplitOff source reader.range.liveEnd race) (fraction : Numeric.Binary64) :
    ∃ after next, race.tick (inMemory α) fraction (reader, ()) = .ok after (next, ()) ∧
      Underway source read progress next ∧ RaceSplitOff source next.range.liveEnd after := by
  cases race with
  | landed residual => exact ⟨.landed residual, reader, rfl, h, hrace⟩
  | pending calls =>
      cases calls with
      | zero => exact ⟨_, _, rfl, h.split fraction, h.splitOff_split hrace fraction⟩
      | succ calls => exact ⟨.pending calls, reader, rfl, h, hrace⟩

theorem finish (h : Underway source read progress reader)
    (hrace : RaceSplitOff source reader.range.liveEnd race) (fraction : Numeric.Binary64) :
    ∃ residual next, race.finish (inMemory α) fraction (reader, ()) = .ok residual (next, ()) ∧
      Underway source read progress next ∧ SplitOff source next.range.liveEnd residual := by
  cases race with
  | landed residual => exact ⟨residual, reader, rfl, h, hrace⟩
  | pending calls => exact ⟨_, _, rfl, h.split fraction, h.splitOff_split hrace fraction⟩

theorem raceWhile (hvalues : source.elements = values.map .ok)
    (h : Underway source read (.after more) reader)
    (hrace : RaceSplitOff source reader.range.liveEnd race) (fraction : Numeric.Binary64)
    (hbudget : source.stop ≤ source.start + read.length + budget) :
    ∃ rest after last,
      (inMemory α).raceWhile fraction budget more race (reader, ()) =
        .ok (rest, after) (last, ()) ∧
      Underway source (read ++ rest) .exhausted last ∧
      RaceSplitOff source last.range.liveEnd after := by
  induction budget generalizing more read reader race with
  | zero =>
      cases more with
      | false => exact ⟨[], race, reader, rfl, by rwa [List.append_nil], hrace⟩
      | true => exact absurd h.lt_stop (Nat.not_lt.mpr hbudget)
  | succ budget ih =>
      cases more with
      | false => exact ⟨[], race, reader, rfl, by rwa [List.append_nil], hrace⟩
      | true =>
          obtain ⟨early, first, hearly, hfirst, hearlyRace⟩ := h.tick hrace fraction
          obtain ⟨value, hcurrent, hserved⟩ := hfirst.current hvalues
          obtain ⟨late, second, hlate, hsecond, hlateRace⟩ := hserved.tick hearlyRace fraction
          obtain ⟨more, next, hadvance, hnext, hlive⟩ := hsecond.step .served
          have hroom : source.stop ≤ source.start + (read ++ [value]).length + budget := by
            rw [List.length_append, List.length_singleton]
            omega
          rw [← hlive] at hlateRace
          obtain ⟨rest, after, last, hrest, hlast, hafter⟩ := ih hnext hlateRace hroom
          refine ⟨value :: rest, after, last, ?_, ?_, hafter⟩
          · rw [SourceModel.raceWhile, bind_of_ok hearly, bind_of_ok hcurrent, bind_of_ok hlate]
            exact (bind_of_ok hadvance).trans (bind_of_ok hrest)
          · rwa [List.append_assoc, List.singleton_append] at hlast

/-- Whenever the split lands, the consumer comes to its end, and what was split off is what lies
behind that. -/
theorem readRacing (hvalues : source.elements = values.map .ok)
    (h : Underway source read progress reader) (hresumes : Resumes started progress)
    (hlive : reader.range.liveEnd = source.stop) (hbudget : source.size ≤ budget)
    (fraction : Numeric.Binary64) (calls : Nat) :
    ∃ rest residual last,
      (inMemory α).readRacing budget fraction calls started (reader, ()) =
        .ok (rest, residual) (last, ()) ∧
      Underway source (read ++ rest) .exhausted last ∧
      SplitOff source last.range.liveEnd residual := by
  have hpending : RaceSplitOff source reader.range.liveEnd (.pending calls) := hlive
  have hroom : source.stop ≤ source.start + read.length + budget := by
    rw [Source.size] at hbudget
    omega
  obtain ⟨early, first, hearly, hfirst, hearlyRace⟩ := h.tick hpending fraction
  obtain ⟨more, next, hstep, hnext, hnextLive⟩ := hfirst.step hresumes
  rw [← hnextLive] at hearlyRace
  obtain ⟨rest, late, last, hrest, hlast, hlateRace⟩ :=
    hnext.raceWhile hvalues hearlyRace fraction hroom
  obtain ⟨residual, final, hfinish, hfinal, hresidual⟩ := hlast.finish hlateRace fraction
  refine ⟨rest, residual, final, ?_, hfinal, hresidual⟩
  rw [SourceModel.readRacing, bind_of_ok hearly, bind_of_ok hstep, bind_of_ok hrest]
  exact bind_of_ok hfinish

end Race

end Underway

end BundledReading.Contract

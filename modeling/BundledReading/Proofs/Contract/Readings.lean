import BundledReading.Contract.Checks

/-!
# What checks read

What a check reads of a source is told here without checks and budgets, as the calls that are made
one after the other: each starts from what the one before has left, and all of them succeed. A model
may be anything, so nothing is said of a call but what it answers. The readings of the checks are
exactly these relations, within their budgets.
-/

namespace BundledReading.Contract

variable {σ S R α β γ : Type}

/-! ## Calls within a check -/

instance decidableEqResult {ε : Type} [DecidableEq ε] [DecidableEq σ] [DecidableEq β] :
    DecidableEq (EStateM.Result ε σ β)
  | .ok value state, .ok other next =>
    decidable_of_iff (value = other ∧ state = next) (by simp)
  | .error cause state, .error other next =>
    decidable_of_iff (cause = other ∧ state = next) (by simp)
  | .ok _ _, .error _ _ => isFalse nofun
  | .error _ _, .ok _ _ => isFalse nofun

theorem bind_eq_ok_iff {action : Check σ β} {next : β → Check σ γ} {state last : σ} {result : γ} :
    (action >>= next) state = .ok result last ↔
      ∃ value middle, action state = .ok value middle ∧ next value middle = .ok result last := by
  simp only [bind, EStateM.bind]
  cases action state with
  | ok value middle =>
      constructor
      · intro h
        exact ⟨value, middle, rfl, h⟩
      · rintro ⟨_, _, ⟨⟩, h⟩
        exact h
  | error cause middle => simp

theorem pure_eq_ok_iff {state last : σ} {value result : β} :
    (pure value : Check σ β) state = .ok result last ↔ value = result ∧ state = last := by
  simp [pure, EStateM.pure]

theorem perform_eq_ok_iff {call : Call σ β} {state last : σ} {value : β} :
    perform call state = .ok value last ↔ call state = .ok value last := by
  rw [perform]
  cases call state <;> simp

theorem always_eq_ok_iff {action : StateM σ β} {state last : σ} {value : β} :
    always action state = .ok value last ↔ action state = (value, last) := by
  rw [always]
  obtain ⟨found, middle⟩ := action state
  constructor
  · rintro ⟨⟩
    rfl
  · rintro ⟨⟩
    rfl

theorem violated_ne_ok {message : String} {state last : σ} {value : β} :
    (violated message : Check σ β) state ≠ .ok value last := by
  intro h
  cases h

theorem withReader_eq_ok_iff {reader : R} {action : Check (R × σ) β} {state after : σ}
    {result : β × R} :
    withReader reader action state = .ok result after ↔
      action (reader, state) = .ok result.1 (result.2, after) := by
  obtain ⟨value, last⟩ := result
  rw [withReader]
  cases action (reader, state) with
  | ok found final =>
      obtain ⟨kept, left⟩ := final
      simp [and_assoc]
  | error cause final => simp

theorem demandAgreement_eq_ok_iff {view : ElementView α} {left right : List α} {reason : String}
    {state last : σ} {value : Unit} :
    demandAgreement view left right reason state = .ok value last ↔
      view.listAgrees left right = true ∧ state = last := by
  rw [demandAgreement]
  split
  next h => simp [h, pure_eq_ok_iff]
  next h => simp [h, violated_ne_ok]

/-- Steps that are made for the items of a list, one after the other, and what they give. -/
inductive InOrder (step : β → σ → γ → σ → Prop) : List β → σ → List γ → σ → Prop
  | nil {state} : InOrder step [] state [] state
  | cons {item items state result middle results last} (first : step item state result middle)
      (rest : InOrder step items middle results last) :
      InOrder step (item :: items) state (result :: results) last

namespace InOrder

variable {step : β → σ → γ → σ → Prop} {items : List β} {results : List γ} {state last : σ}

theorem length_eq (h : InOrder step items state results last) : results.length = items.length := by
  induction h with
  | nil => rfl
  | cons _ _ ih => rw [List.length_cons, List.length_cons, ih]

theorem exists_of_mem (h : InOrder step items state results last) {item : β}
    (hitem : item ∈ items) :
    ∃ before result after, step item before result after := by
  induction h with
  | nil => simp at hitem
  | cons first _ ih =>
      rcases List.mem_cons.mp hitem with rfl | hitem
      · exact ⟨_, _, _, first⟩
      · exact ih hitem

end InOrder

variable (model : SourceModel σ S R α)

/-! ## Readings -/

/-- Moves to the first element of a reader that has not started, else to the next one. -/
def Moves (started : Bool) (state : R × σ) (more : Bool) (next : R × σ) : Prop :=
  (if started then model.advance else model.start) state = .ok more next

/-- Reads the element that the reader stands on, if it does, and all that follow. -/
inductive ReadsOn : Bool → R × σ → List α → R × σ → Prop
  | finished {state} : ReadsOn false state [] state
  | element {state middle next last value more values}
      (current : model.current state = .ok value middle)
      (advance : model.advance middle = .ok more next) (rest : ReadsOn more next values last) :
      ReadsOn true state (value :: values) last

/-- Reads all that is left. The current element of a reader that has started counts as read. -/
def ReadsRest (started : Bool) (state : R × σ) (values : List α) (last : R × σ) : Prop :=
  ∃ more next, Moves model started state more next ∧ ReadsOn model more next values last

/-- Reads so many elements, or all if there are fewer. -/
inductive ReadsFirst : Nat → Bool → R × σ → List α → R × σ → Prop
  | enough {started state} : ReadsFirst 0 started state [] state
  | finished {count started state last} (move : Moves model started state false last) :
      ReadsFirst (count + 1) started state [] last
  | element {count started state next middle value values last}
      (move : Moves model started state true next) (current : model.current next = .ok value middle)
      (rest : ReadsFirst count true middle values last) :
      ReadsFirst (count + 1) started state (value :: values) last

/-- A split through a handle lands at some time, if it has not landed yet. Nothing is known of when
it does. -/
inductive Lands (fraction : Numeric.Binary64) :
    SourceModel.Race S → R × σ → SourceModel.Race S → R × σ → Prop
  | landed {residual state} : Lands fraction (.landed residual) state (.landed residual) state
  | later {calls left state} : Lands fraction (.pending calls) state (.pending left) state
  | now {calls state residual next} (split : model.handleSplit fraction state = (residual, next)) :
      Lands fraction (.pending calls) state (.landed residual) next

/-- Reads on while a split may land before any of the calls. -/
inductive RacesOn (fraction : Numeric.Binary64) :
    Bool → SourceModel.Race S → R × σ → List α → SourceModel.Race S → R × σ → Prop
  | finished {race state} : RacesOn fraction false race state [] race state
  | element {race early late final state₁ state₂ state₃ state₄ state₅ last value more values}
      (before : Lands model fraction race state₁ early state₂)
      (current : model.current state₂ = .ok value state₃)
      (between : Lands model fraction early state₃ late state₄)
      (advance : model.advance state₄ = .ok more state₅)
      (rest : RacesOn fraction more late state₅ values final last) :
      RacesOn fraction true race state₁ (value :: values) final last

/-- Reads all that is left while a split through a handle lands before any of the calls, or after
them all. -/
def Races (fraction : Numeric.Binary64) (started : Bool) (state : R × σ) (values : List α)
    (residual : Option S) (last : R × σ) : Prop :=
  ∃ calls race early more next final ended,
    Lands model fraction (.pending calls) state race early ∧
    Moves model started early more next ∧
    RacesOn model fraction more race next values final ended ∧
    Lands model fraction final ended (.landed residual) last

/-- Opens a source and reads it to its end. -/
def ReadsAll (source : S) (state : σ) (values : List α) (last : σ) : Prop :=
  ∃ reader opened final, model.openSource source state = .ok reader opened ∧
    ReadsRest model false (reader, opened) values (final, last)

/-- Looks up the coder of a source, and then reads the source. -/
def Visits (source : S) (state : σ) (visit : Nat × List α) (last : σ) : Prop :=
  ∃ middle, model.coderIdentity source state = .ok visit.1 middle ∧
    ReadsAll model source middle visit.2 last

variable {model} {budget : Nat} {started more : Bool} {state last : R × σ} {values : List α}

theorem step_eq_ok_iff :
    model.step started state = .ok more last ↔ Moves model started state more last :=
  perform_eq_ok_iff

theorem readWhile_eq_ok_iff :
    model.readWhile budget more state = .ok values last ↔
      ReadsOn model more state values last ∧ values.length ≤ budget := by
  constructor
  · intro h
    induction budget generalizing more state values with
    | zero =>
        cases more with
        | false =>
            obtain ⟨rfl, rfl⟩ := pure_eq_ok_iff.mp h
            exact ⟨.finished, Nat.le_refl _⟩
        | true => cases h
    | succ budget ih =>
        cases more with
        | false =>
            obtain ⟨rfl, rfl⟩ := pure_eq_ok_iff.mp h
            exact ⟨.finished, Nat.zero_le _⟩
        | true =>
            simp only [SourceModel.readWhile, bind_eq_ok_iff, perform_eq_ok_iff,
              pure_eq_ok_iff] at h
            obtain ⟨value, middle, hcurrent, more, next, hadvance, rest, _, hrest, rfl, rfl⟩ := h
            obtain ⟨hreads, hlength⟩ := ih hrest
            exact ⟨.element hcurrent hadvance hreads, Nat.succ_le_succ hlength⟩
  · rintro ⟨h, hlength⟩
    induction h generalizing budget with
    | finished => cases budget <;> exact pure_eq_ok_iff.mpr ⟨rfl, rfl⟩
    | @element state middle next last value more values hcurrent hadvance _ ih =>
        cases budget with
        | zero => cases hlength
        | succ budget =>
            simp only [SourceModel.readWhile, bind_eq_ok_iff, perform_eq_ok_iff, pure_eq_ok_iff]
            exact ⟨value, middle, hcurrent, more, next, hadvance, values, last,
              ih (Nat.le_of_succ_le_succ hlength), rfl, rfl⟩

theorem readRest_eq_ok_iff :
    model.readRest budget started state = .ok values last ↔
      ReadsRest model started state values last ∧ values.length ≤ budget := by
  simp only [SourceModel.readRest, bind_eq_ok_iff, step_eq_ok_iff, readWhile_eq_ok_iff, ReadsRest]
  constructor
  · rintro ⟨more, next, hmove, hreads, hlength⟩
    exact ⟨⟨more, next, hmove, hreads⟩, hlength⟩
  · rintro ⟨⟨more, next, hmove, hreads⟩, hlength⟩
    exact ⟨more, next, hmove, hreads, hlength⟩

theorem readFirst_eq_ok {count : Nat} (h : model.readFirst count started state = .ok values last) :
    ReadsFirst model count started state values last := by
  induction count generalizing started state values with
  | zero =>
      obtain ⟨rfl, rfl⟩ := pure_eq_ok_iff.mp h
      exact .enough
  | succ count ih =>
      obtain ⟨more, next, hmove, h⟩ := bind_eq_ok_iff.mp h
      rw [step_eq_ok_iff] at hmove
      cases more with
      | false =>
          obtain ⟨rfl, rfl⟩ := pure_eq_ok_iff.mp h
          exact .finished hmove
      | true =>
          simp only [if_true, bind_eq_ok_iff, perform_eq_ok_iff, pure_eq_ok_iff] at h
          obtain ⟨value, middle, hcurrent, rest, _, hrest, rfl, rfl⟩ := h
          exact .element hmove hcurrent (ih hrest)

section Racing

variable {fraction : Numeric.Binary64} {race after : SourceModel.Race S} {residual : Option S}

theorem tick_eq_ok (h : race.tick model fraction state = .ok after last) :
    Lands model fraction race state after last := by
  cases race with
  | landed residual =>
      obtain ⟨rfl, rfl⟩ := pure_eq_ok_iff.mp h
      exact .landed
  | pending calls =>
      cases calls with
      | zero =>
          rw [SourceModel.Race.tick, map_eq_pure_bind, bind_eq_ok_iff] at h
          obtain ⟨residual, next, hsplit, h⟩ := h
          obtain ⟨rfl, rfl⟩ := pure_eq_ok_iff.mp h
          exact .now (always_eq_ok_iff.mp hsplit)
      | succ calls =>
          obtain ⟨rfl, rfl⟩ := pure_eq_ok_iff.mp h
          exact .later

theorem finish_eq_ok (h : race.finish model fraction state = .ok residual last) :
    Lands model fraction race state (.landed residual) last := by
  cases race with
  | landed residual =>
      obtain ⟨rfl, rfl⟩ := pure_eq_ok_iff.mp h
      exact .landed
  | pending calls => exact .now (always_eq_ok_iff.mp h)

theorem raceWhile_eq_ok
    (h : model.raceWhile fraction budget more race state = .ok (values, after) last) :
    RacesOn model fraction more race state values after last := by
  induction budget generalizing more race state values with
  | zero =>
      cases more with
      | false =>
          obtain ⟨⟨⟩, rfl⟩ := pure_eq_ok_iff.mp h
          exact .finished
      | true => cases h
  | succ budget ih =>
      cases more with
      | false =>
          obtain ⟨⟨⟩, rfl⟩ := pure_eq_ok_iff.mp h
          exact .finished
      | true =>
          simp only [SourceModel.raceWhile, bind_eq_ok_iff, perform_eq_ok_iff,
            pure_eq_ok_iff] at h
          obtain ⟨early, _, hbefore, value, _, hcurrent, late, _, hbetween, more, _, hadvance,
            ⟨rest, final⟩, _, hrest, ⟨⟩, rfl⟩ := h
          exact .element (tick_eq_ok hbefore) hcurrent (tick_eq_ok hbetween) hadvance (ih hrest)

theorem readRacing_eq_ok {calls : Nat}
    (h : model.readRacing budget fraction calls started state = .ok (values, residual) last) :
    Races model fraction started state values residual last := by
  simp only [SourceModel.readRacing, bind_eq_ok_iff, step_eq_ok_iff, pure_eq_ok_iff] at h
  obtain ⟨race, early, hbefore, more, next, hmove, ⟨read, final⟩, ended, hrace, landed, _, hfinish,
    ⟨⟩, rfl⟩ := h
  exact ⟨calls, race, early, more, next, final, ended, tick_eq_ok hbefore, hmove,
    raceWhile_eq_ok hrace, finish_eq_ok hfinish⟩

end Racing

theorem readAll_eq_ok_iff {source : S} {before after : σ} :
    model.readAll budget source before = .ok values after ↔
      ReadsAll model source before values after ∧ values.length ≤ budget := by
  simp only [SourceModel.readAll, bind_eq_ok_iff, perform_eq_ok_iff, withReader_eq_ok_iff,
    readRest_eq_ok_iff, pure_eq_ok_iff, ReadsAll]
  constructor
  · rintro ⟨reader, opened, hopen, ⟨_, final⟩, _, ⟨hrest, hlength⟩, rfl, rfl⟩
    exact ⟨⟨reader, opened, final, hopen, hrest⟩, hlength⟩
  · rintro ⟨⟨reader, opened, final, hopen, hrest⟩, hlength⟩
    exact ⟨reader, opened, hopen, (values, final), after, ⟨hrest, hlength⟩, rfl, rfl⟩

end BundledReading.Contract

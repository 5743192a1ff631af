import BundledReading.Proofs.QuotientOrder
import BundledReading.Proofs.ReaderCalls

/-!
# Progress of readers

A reader that has started knows how many elements of its live range it has read, the current one
included, and how many there are. The quotient of the two is its progress. Consumers let the first
count grow and splits let the second one shrink, and they come from different threads; whatever the
order in which they come, the progress only grows, and it is one exactly on the last element of the
live range, where no split is accepted any more.

## Implementation notes

`Reader.Change` is all that can happen, so one case analysis of it (`Change.counts`) carries both
the exact quotient and the number that is reported for it. An exhausted reader counts one of one.
-/

namespace BundledReading

variable {α : Type}

/-- What was known is known still, and has not become less. -/
def Kept {β : Type} (le : β → β → Prop) (before after : Option β) : Prop :=
  ∀ b, before = some b → ∃ a, after = some a ∧ le b a

theorem Kept.trans {β : Type} {le : β → β → Prop} {first second third : Option β}
    (h : Kept le first second) (h' : Kept le second third)
    (hle : ∀ {a b c}, le a b → le b c → le a c) : Kept le first third := by
  intro a ha
  obtain ⟨b, hb, hab⟩ := h a ha
  obtain ⟨c, hc, hbc⟩ := h' b hb
  exact ⟨c, hc, hle hab hbc⟩

/-! ## Counts and shares -/

namespace ReadRange

/-- The elements of its live range that a reader of a source from `start` on has read, the current
one included, and all of them; nothing before the start, and one of one at the end. -/
def counts (range : ReadRange) (start : Nat) : Option (Nat × Nat) :=
  if range.done then some (1, 1)
  else range.position.map fun position => (position - start + 1, range.liveEnd - start)

/-- The exact share of its live range that a reader has read. -/
def share (range : ReadRange) (start : Nat) : Option ℚ :=
  (range.counts start).map fun count => count.1 / count.2

/-- The share has grown. -/
def Gains (start : Nat) (range next : ReadRange) : Prop :=
  ∃ share later, range.share start = some share ∧ next.share start = some later ∧ share < later

variable {range next : ReadRange} {start position : Nat}

theorem counts_of_done (h : range.done = true) : range.counts start = some (1, 1) := by
  simp [counts, h]

theorem counts_of_current (h : range.current? = some position) :
    range.counts start = some (position - start + 1, range.liveEnd - start) := by
  obtain ⟨hdone, hposition⟩ := current?_eq_some_iff.mp h
  simp [counts, hdone, hposition]

theorem counts_eq_none_iff :
    range.counts start = none ↔ range.position = none ∧ range.done = false := by
  cases hdone : range.done <;> simp [counts, hdone]

theorem counts_cases (range : ReadRange) (start : Nat) :
    range.counts start = none ∨ range.done = true ∨ ∃ position, range.current? = some position := by
  cases hdone : range.done with
  | true => exact Or.inr (Or.inl rfl)
  | false =>
      cases hposition : range.position with
      | none => exact Or.inl (counts_eq_none_iff.mpr ⟨hposition, hdone⟩)
      | some position =>
          exact Or.inr (Or.inr ⟨position, current?_eq_some_iff.mpr ⟨hdone, hposition⟩⟩)

/-- What is reported is the rounded quotient of the counts. -/
theorem consumed_eq_counts (range : ReadRange) (start : Nat) :
    range.consumed start = (range.counts start).map fun count =>
      Numeric.Binary64.ofNat count.1 / Numeric.Binary64.ofNat count.2 := by
  unfold consumed counts
  split
  · exact congrArg some (Numeric.Binary64.div_ofNat_self (by omega) (by omega)).symm
  · rw [Option.map_map]
    rfl

theorem consumed_eq_none_iff :
    range.consumed start = none ↔ range.position = none ∧ range.done = false := by
  rw [consumed_eq_counts, Option.map_eq_none_iff, counts_eq_none_iff]

/-- A reader that has started remains so. -/
theorem Follows.consumed_ne_none (h : range.Follows start next)
    (hstarted : range.consumed start ≠ none) : next.consumed start ≠ none := by
  rw [ne_eq, consumed_eq_none_iff, not_and, Bool.not_eq_false] at hstarted ⊢
  intro hnext
  cases hposition : range.position with
  | none =>
      have hdone := hstarted hposition
      rwa [h.settled hdone]
  | some position => rcases h.moves position hposition with hmove | hmove <;> simp [hmove] at hnext

end ReadRange

namespace Reader

variable {reader next : Reader α} {k n position : Nat}

/-- The counts of a reader: at least one element was read, and none that is not there. -/
theorem Sound.counts_bounds (h : reader.Sound)
    (hcounts : reader.range.counts reader.source.start = some (k, n)) : 0 < k ∧ k ≤ n := by
  rcases reader.range.counts_cases reader.source.start with hnone | hdone | ⟨position, hcurrent⟩
  · rw [hnone] at hcounts
    cases hcounts
  · rw [ReadRange.counts_of_done hdone] at hcounts
    cases hcounts
    omega
  · rw [ReadRange.counts_of_current hcurrent] at hcounts
    cases hcounts
    have hbounds := h.current_mem hcurrent
    omega

theorem Sound.counts_le (h : reader.Sound) (hsize : reader.source.stop ≤ 2 ^ 64)
    (hcounts : reader.range.counts reader.source.start = some (k, n)) : n ≤ 2 ^ 64 := by
  rcases reader.range.counts_cases reader.source.start with hnone | hdone | ⟨position, hcurrent⟩
  · rw [hnone] at hcounts
    cases hcounts
  · rw [ReadRange.counts_of_done hdone] at hcounts
    cases hcounts
    omega
  · rw [ReadRange.counts_of_current hcurrent] at hcounts
    cases hcounts
    have hstop := h.liveEnd_le_stop
    omega

/-- A change lets the first count grow or the second one shrink, or ends the reader. -/
theorem Change.counts (h : Change reader next) (hsound : reader.Sound)
    (hcounts : reader.range.counts reader.source.start = some (k, n)) :
    ∃ k' n', next.range.counts next.source.start = some (k', n') ∧
      (k ≤ k' ∧ n' ≤ n ∨ k' = 1 ∧ n' = 1) := by
  rcases reader.range.counts_cases reader.source.start with hnone | hdone | ⟨position, hcurrent⟩
  · rw [hnone] at hcounts
    cases hcounts
  · -- Nothing that can happen makes an exhausted reader read on.
    have hnext : next.range.done = true := by
      cases h with
      | stay => exact hdone
      | enter _ _ => exact hdone
      | skip _ _ => rfl
      | move _ _ _ => exact hdone
      | exhaust _ _ _ => rfl
      | truncate _ _ _ _ _ => exact hdone
    exact ⟨1, 1, ReadRange.counts_of_done hnext, Or.inr ⟨rfl, rfl⟩⟩
  · have hbounds := hsound.current_mem hcurrent
    obtain ⟨hdone, hposition⟩ := ReadRange.current?_eq_some_iff.mp hcurrent
    rw [ReadRange.counts_of_current hcurrent] at hcounts
    cases hcounts
    cases h with
    | stay => exact ⟨_, _, ReadRange.counts_of_current hcurrent, Or.inl ⟨le_rfl, le_rfl⟩⟩
    | enter hfresh _ => exact absurd (hposition.symm.trans hfresh) (by simp)
    | skip hfresh _ => exact absurd (hposition.symm.trans hfresh) (by simp)
    | move other hother hmore =>
        obtain rfl : position = other := Option.some.inj (hcurrent.symm.trans hother)
        refine ⟨position + 1 - reader.source.start + 1, _, ?_, Or.inl ⟨by omega, le_rfl⟩⟩
        exact ReadRange.counts_of_current (ReadRange.current?_eq_some_iff.mpr ⟨hdone, rfl⟩)
    | exhaust _ _ _ => exact ⟨1, 1, ReadRange.counts_of_done rfl, Or.inr ⟨rfl, rfl⟩⟩
    | truncate other point _ _ hresidual =>
        refine ⟨_, point - reader.source.start, ?_, Or.inl ⟨le_rfl, by omega⟩⟩
        exact ReadRange.counts_of_current (ReadRange.current?_eq_some_iff.mpr ⟨hdone, hposition⟩)

/-- The exact share never goes back. -/
theorem Change.share_kept (h : Change reader next) (hsound : reader.Sound) :
    Kept (· ≤ ·) (reader.range.share reader.source.start)
      (next.range.share next.source.start) := by
  intro share hshare
  obtain ⟨⟨k, n⟩, hcounts, rfl⟩ := Option.map_eq_some_iff.mp hshare
  obtain ⟨k', n', hnext, hgrown⟩ := h.counts hsound hcounts
  have hbefore := hsound.counts_bounds hcounts
  have hafter := (h.sound hsound).counts_bounds hnext
  refine ⟨k' / n', Option.map_eq_some_iff.mpr ⟨_, hnext, rfl⟩, ?_⟩
  rcases hgrown with ⟨hnum, hden⟩ | ⟨rfl, rfl⟩
  · have hpos : (0 : ℚ) < n' := Nat.cast_pos.mpr (hafter.1.trans_le hafter.2)
    exact div_le_div₀ (Nat.cast_nonneg _) (Nat.cast_le.mpr hnum) hpos (Nat.cast_le.mpr hden)
  · have hpos : (0 : ℚ) < n := Nat.cast_pos.mpr (hbefore.1.trans_le hbefore.2)
    rw [Nat.cast_one, div_one, div_le_one hpos]
    exact Nat.cast_le.mpr hbefore.2

/-- The number that is reported never goes back. -/
theorem Change.consumed_kept (h : Change reader next) (hsound : reader.Sound)
    (hsize : reader.source.stop ≤ 2 ^ 64) :
    Kept (fun a b => Numeric.Binary64.le a b = true) reader.consumed next.consumed := by
  intro consumed hconsumed
  rw [Reader.consumed, ReadRange.consumed_eq_counts] at hconsumed ⊢
  obtain ⟨⟨k, n⟩, hcounts, rfl⟩ := Option.map_eq_some_iff.mp hconsumed
  obtain ⟨k', n', hnext, hgrown⟩ := h.counts hsound hcounts
  have hbefore := hsound.counts_bounds hcounts
  have hafter := (h.sound hsound).counts_bounds hnext
  have hn := hsound.counts_le hsize hcounts
  have hn' := (h.sound hsound).counts_le (h.source_eq ▸ hsize) hnext
  refine ⟨_, Option.map_eq_some_iff.mpr ⟨_, hnext, rfl⟩, ?_⟩
  rcases hgrown with ⟨hnum, hden⟩ | ⟨rfl, rfl⟩
  · exact Numeric.Binary64.div_ofNat_mono hnum hden (by omega) (by omega) hn
  · rw [Numeric.Binary64.div_ofNat_self (n := 1) (by omega) (by omega),
      ← Numeric.Binary64.div_ofNat_self (n := n) (by omega) hn]
    exact Numeric.Binary64.div_ofNat_mono hbefore.2 le_rfl (by omega) hn hn

/-! ## Progress -/

theorem Sound.gains (h : reader.Sound) {next : ReadRange} {k' n' : Nat}
    (hcounts : reader.range.counts reader.source.start = some (k, n))
    (hnext : next.counts reader.source.start = some (k', n')) (hpos : 0 < n')
    (hgrown : k < k' ∧ n' ≤ n ∨ k ≤ k' ∧ n' < n) :
    reader.range.Gains reader.source.start next := by
  have hbounds := h.counts_bounds hcounts
  refine ⟨k / n, k' / n', Option.map_eq_some_iff.mpr ⟨_, hcounts, rfl⟩,
    Option.map_eq_some_iff.mpr ⟨_, hnext, rfl⟩, ?_⟩
  have hcast : (0 : ℚ) < n' := Nat.cast_pos.mpr hpos
  rcases hgrown with ⟨hnum, hden⟩ | ⟨hnum, hden⟩
  · exact div_lt_div₀ (Nat.cast_lt.mpr hnum) (Nat.cast_le.mpr hden) (Nat.cast_nonneg _) hcast
  · have hread : (0 : ℚ) < k' := Nat.cast_pos.mpr (hbounds.1.trans_le hnum)
    exact div_lt_div₀' (Nat.cast_le.mpr hnum) (Nat.cast_lt.mpr hden) hread hcast

/-- Advancing to another element is progress. -/
theorem Sound.gains_of_advance (h : reader.Sound) (hadvance : reader.advance = .ok (true, next)) :
    reader.range.Gains reader.source.start next.range := by
  rw [advance_eq] at hadvance
  split at hadvance
  · simp at hadvance
  next hdone =>
    split at hadvance
    · simp at hadvance
    next position hposition =>
      split at hadvance
      next hmore =>
        obtain rfl := (Prod.mk.inj (Except.ok.inj hadvance)).2
        have hcurrent : reader.range.current? = some position :=
          ReadRange.current?_eq_some_iff.mpr ⟨by simpa using hdone, hposition⟩
        have hbounds := h.current_mem hcurrent
        apply h.gains (ReadRange.counts_of_current hcurrent)
        · apply ReadRange.counts_of_current
          exact ReadRange.current?_eq_some_iff.mpr ⟨by simpa using hdone, rfl⟩
        · dsimp only
          omega
        · exact Or.inl ⟨by omega, le_rfl⟩
      · simp at hadvance

end Reader

/-- What is told of a reader that stands on an element. -/
structure ReadRange.Tells (start position : Nat) (range : ReadRange) : Prop where
  start_le : start ≤ position
  read_pos : 1 ≤ position - start + 1
  read_le : position - start + 1 ≤ range.liveEnd - start
  consumed_eq : range.consumed start = some
    (Numeric.Binary64.ofNat (position - start + 1) / Numeric.Binary64.ofNat (range.liveEnd - start))
  share_eq : range.share start =
    some (((position - start + 1 : Nat) : ℚ) / ((range.liveEnd - start : Nat) : ℚ))
  /-- All is read exactly on the last element of the live range. -/
  whole_iff : range.share start = some 1 ↔ position + 1 = range.liveEnd

theorem Reader.Sound.tells {reader : Reader α} (h : reader.Sound) {position : Nat}
    (hcurrent : reader.range.current? = some position) :
    reader.range.Tells reader.source.start position := by
  have hbounds := h.current_mem hcurrent
  have hcounts : reader.range.counts reader.source.start = some _ :=
    ReadRange.counts_of_current hcurrent
  have hshare : reader.range.share reader.source.start = some
      (((position - reader.source.start + 1 : Nat) : ℚ) /
        ((reader.range.liveEnd - reader.source.start : Nat) : ℚ)) := by
    rw [ReadRange.share, hcounts]
    rfl
  have hconsumed : reader.range.consumed reader.source.start = some
      (Numeric.Binary64.ofNat (position - reader.source.start + 1) /
        Numeric.Binary64.ofNat (reader.range.liveEnd - reader.source.start)) := by
    rw [ReadRange.consumed_eq_counts, hcounts]
    rfl
  refine ⟨hbounds.1, by omega, by omega, hconsumed, hshare, ?_⟩
  have hpos : ((reader.range.liveEnd - reader.source.start : Nat) : ℚ) ≠ 0 :=
    Nat.cast_ne_zero.mpr (by omega)
  rw [hshare, Option.some.injEq, div_eq_one_iff_eq hpos, Nat.cast_inj]
  omega

/-! ## Calls -/

/-- An advance to another element, or an accepted split. -/
def ReaderCall.Progresses (call : ReaderCall) (answer : ReaderAnswer α) : Prop :=
  call = .advance ∧ answer = .moved true ∨ ∃ residual, answer = .residual (some residual)

/-- An accepted split is progress: fewer elements are left to read. -/
theorem ReaderCall.Effect.gains {reader : Reader α} {call : ReaderCall} {next : ReadRange}
    {answer : ReaderAnswer α} (h : call.Effect reader.source reader.range answer next)
    (hsound : reader.Sound) {residual : Source α} (hanswer : answer = .residual (some residual)) :
    reader.range.Gains reader.source.start next := by
  obtain ⟨_, _, position, -, -, -, hdone, hposition, hnext, hunread, hlive, -⟩ :=
    h.accepted residual hanswer
  have hcurrent : reader.range.current? = some position :=
    ReadRange.current?_eq_some_iff.mpr ⟨hdone, hposition⟩
  have hbounds := hsound.current_mem hcurrent
  have hstill : next.current? = some position := by
    rw [hnext]
    exact ReadRange.current?_eq_some_iff.mpr ⟨hdone, hposition⟩
  apply hsound.gains (ReadRange.counts_of_current hcurrent) (ReadRange.counts_of_current hstill)
  · omega
  · exact Or.inr ⟨le_rfl, by omega⟩

namespace Session

variable {session : Session α} {reader : Reader α}

theorem gains_of_progresses (hreaders : session.readers = #[reader]) (hsound : reader.Sound)
    {call : ReaderCall} (h : call.Progresses (session.perform call).1) :
    ∃ next, (session.perform call).2.readers = #[next] ∧
      reader.range.Gains reader.source.start next.range := by
  rcases h with ⟨rfl, hmoved⟩ | ⟨residual, hanswer⟩
  · cases hadvance : reader.advance with
    | error cause =>
        rw [perform, move_of_error hreaders hadvance] at hmoved
        cases hmoved
    | ok result =>
        obtain ⟨more, next⟩ := result
        rw [perform, move_of_ok hreaders hadvance] at hmoved ⊢
        obtain rfl : more = true := ReaderAnswer.moved.inj hmoved
        exact ⟨next, by simp [setReader, hreaders], hsound.gains_of_advance hadvance⟩
  · obtain ⟨next, hnext, -, heffect⟩ := perform_effect hreaders call
    exact ⟨next, hnext, heffect.gains hsound hanswer⟩

/-- Before the start nothing but a start changes a reader. -/
theorem perform_of_unstarted (hreaders : session.readers = #[reader])
    (hfresh : reader.consumed = none) {call : ReaderCall} (hcall : call ≠ .start) :
    (session.perform call).2.readers = #[reader] := by
  obtain ⟨hposition, hdone⟩ := ReadRange.consumed_eq_none_iff.mp hfresh
  cases call with
  | start => exact absurd rfl hcall
  | advance =>
      have hadvance : reader.advance = .error .noCurrent := by
        simp [Reader.advance_eq, hposition, hdone]
      rw [perform, move_of_error hreaders hadvance]
      exact hreaders
  | current => exact hreaders
  | consumed => exact hreaders
  | currentSource => exact hreaders
  | handle => simpa [perform] using hreaders
  | clone handle => simpa [perform] using hreaders
  | split splitter fraction =>
      cases htarget : session.target? splitter with
      | none => simpa [perform, htarget] using hreaders
      | some found =>
          obtain ⟨number, other⟩ := found
          obtain ⟨rfl, rfl⟩ := target?_eq hreaders htarget
          rw [(perform_split hreaders htarget fraction).2]
          rcases other.split_cases fraction with h | ⟨position, _, hcurrent, -, -, -⟩
          · rw [h]
          · have hsome := (ReadRange.current?_eq_some_iff.mp hcurrent).2
            exact absurd (hsome.symm.trans hposition) (by simp)

theorem perform_start_of_unstarted (hreaders : session.readers = #[reader])
    (hfresh : reader.consumed = none) :
    ∃ next, (session.perform .start).2.readers = #[next] ∧ next.consumed ≠ none := by
  obtain ⟨hposition, hdone⟩ := ReadRange.consumed_eq_none_iff.mp hfresh
  obtain ⟨more, next, hstart, hnext⟩ : ∃ more next, reader.start = .ok (more, next) ∧
      next.range.consumed next.source.start ≠ none := by
    rw [Reader.start_eq, if_neg (by simp [hposition, hdone])]
    split
    · refine ⟨true, _, rfl, ?_⟩
      simp [ReadRange.consumed_eq_none_iff]
    · refine ⟨false, _, rfl, ?_⟩
      simp [ReadRange.consumed_eq_none_iff]
  rw [perform, move_of_ok hreaders hstart]
  exact ⟨next, by simp [setReader, hreaders], hnext⟩

/-- A reader tells of its progress from its first start on. -/
theorem performAll_consumed (hreaders : session.readers = #[reader]) (calls : List ReaderCall) :
    ∃ last, (session.performAll calls).readers = #[last] ∧
      (last.consumed = none ↔ reader.consumed = none ∧ .start ∉ calls) := by
  induction calls generalizing session reader with
  | nil => exact ⟨reader, hreaders, by simp⟩
  | cons call rest ih =>
      by_cases hfresh : reader.consumed = none
      · by_cases hcall : call = .start
        · subst hcall
          obtain ⟨next, hnext, hstarted⟩ := perform_start_of_unstarted hreaders hfresh
          obtain ⟨last, hlast, hiff⟩ := ih hnext
          exact ⟨last, hlast, by simp [hiff, hstarted]⟩
        · obtain ⟨last, hlast, hiff⟩ := ih (perform_of_unstarted hreaders hfresh hcall)
          exact ⟨last, hlast, by simp [hiff, Ne.symm hcall]⟩
      · obtain ⟨next, hnext, hchange, heffect⟩ := perform_effect hreaders call
        have hstarted : next.consumed ≠ none := by
          rw [Reader.consumed, hchange.source_eq]
          exact heffect.follows.consumed_ne_none hfresh
        obtain ⟨last, hlast, hiff⟩ := ih hnext
        exact ⟨last, hlast, by simp [hiff, hstarted, hfresh]⟩

/-- Over any sequence of calls neither the exact share nor the number reported for it goes back. -/
theorem performAll_kept (hreaders : session.readers = #[reader]) (hsound : reader.Sound)
    (calls : List ReaderCall) :
    ∃ last, (session.performAll calls).readers = #[last] ∧ last.source = reader.source ∧
      Kept (· ≤ ·) (reader.range.share reader.source.start)
        (last.range.share last.source.start) ∧
      (reader.source.stop ≤ 2 ^ 64 →
        Kept (fun a b => Numeric.Binary64.le a b = true) reader.consumed last.consumed) := by
  induction calls generalizing session reader with
  | nil =>
      have hstay : Reader.Change reader reader := .stay
      exact ⟨reader, hreaders, rfl, hstay.share_kept hsound, hstay.consumed_kept hsound⟩
  | cons call rest ih =>
      obtain ⟨next, hnext, hchange, -⟩ := perform_effect hreaders call
      obtain ⟨last, hlast, hsource, hshare, hconsumed⟩ := ih hnext (hchange.sound hsound)
      refine ⟨last, hlast, hsource.trans hchange.source_eq, ?_, ?_⟩
      · exact (hchange.share_kept hsound).trans hshare le_trans
      · intro hsize
        have hrest := hconsumed (hchange.source_eq ▸ hsize)
        exact (hchange.consumed_kept hsound hsize).trans hrest Numeric.Binary64.le_trans

/-- A reader tells nothing of its progress exactly before its first start, and that all is read once
it is exhausted. While it stands on an element, it tells the quotient of the elements read and the
elements of its live range, the first at least one and at most the second; that is one exactly on
the last of them, and then no split is accepted. Each advance to another element and each accepted
split lets the quotient grow, and no sequence of calls lets it, or the number reported for it, go
back. -/
theorem progress_never_goes_back {source : Source α} (hvalid : source.Valid)
    (calls : List ReaderCall) :
    let session := (opened source).performAll calls
    ∃ range : ReadRange, session.readers = #[⟨source, range⟩] ∧
      (range.consumed source.start = none ↔ .start ∉ calls) ∧
      (range.done = true → range.consumed source.start = some (.ofNat 1) ∧
        range.share source.start = some 1) ∧
      (∀ position, range.current? = some position →
        range.Tells source.start position ∧
        (position + 1 = range.liveEnd → ∀ splitter fraction residual,
          (session.perform (.split splitter fraction)).1 ≠ .residual (some residual))) ∧
      (∀ call : ReaderCall, call.Progresses (session.perform call).1 →
        ∃ next : ReadRange, (session.perform call).2.readers = #[⟨source, next⟩] ∧
          range.Gains source.start next) ∧
      ∀ more, ∃ last : ReadRange, (session.performAll more).readers = #[⟨source, last⟩] ∧
        Kept (· ≤ ·) (range.share source.start) (last.share source.start) ∧
        (source.stop ≤ 2 ^ 64 → Kept (fun a b => Numeric.Binary64.le a b = true)
          (range.consumed source.start) (last.consumed source.start)) := by
  intro session
  have hopened : (opened source).readers = #[Reader.ofSource source] := rfl
  obtain ⟨⟨same, range⟩, hreaders, hsource, hsound⟩ :=
    performAll_sound hopened (Reader.sound_ofSource hvalid) calls
  obtain rfl : source = same := hsource.symm
  refine ⟨range, hreaders, ?_, ?_, ?_, ?_, ?_⟩
  · obtain ⟨last, hlast, hiff⟩ := performAll_consumed hopened calls
    obtain rfl : ⟨source, range⟩ = last := by simpa using hreaders.symm.trans hlast
    have hfresh : (Reader.ofSource source).consumed = none :=
      ReadRange.consumed_eq_none_iff.mpr ⟨rfl, rfl⟩
    rw [hfresh, eq_self, true_and] at hiff
    exact hiff
  · intro hdone
    constructor
    · simp [ReadRange.consumed, hdone]
    · simp [ReadRange.share, ReadRange.counts_of_done hdone]
  · intro position hcurrent
    refine ⟨hsound.tells hcurrent, ?_⟩
    intro hlast splitter fraction residual hanswer
    obtain ⟨next, -, -, heffect⟩ := perform_effect hreaders (.split splitter fraction)
    obtain ⟨_, _, other, -, -, -, -, hother, -, hunread, hlive, -⟩ :=
      heffect.accepted residual hanswer
    have hposition := (ReadRange.current?_eq_some_iff.mp hcurrent).2
    obtain rfl : position = other := Option.some.inj (hposition.symm.trans hother)
    dsimp only at hlive
    omega
  · intro call hprogress
    obtain ⟨next, hnext, hgains⟩ := gains_of_progresses hreaders hsound hprogress
    obtain ⟨⟨_, _⟩, hsame, hchange, -⟩ := perform_effect hreaders call
    obtain rfl := hchange.source_eq
    obtain rfl := (Array.singleton_inj.mp (hnext.symm.trans hsame) : next = _)
    exact ⟨_, hnext, hgains⟩
  · intro more
    obtain ⟨⟨_, last⟩, hlast, rfl, hshare, hconsumed⟩ := performAll_kept hreaders hsound more
    exact ⟨last, hlast, hshare, hconsumed⟩

/-- A reader of four numbers has read one of three once a handle has split off the last, and two of
three after an advance. -/
theorem progress_never_goes_back_fourNumbers :
    let calls := [.start, .handle, .split (.handle 0) (.ofQuotient false 3 4)]
    ((opened Source.fourNumbers).performAll calls).readers =
        #[⟨Source.fourNumbers, ⟨some 0, 3, false⟩⟩] ∧
      ∃ next : ReadRange,
        (((opened Source.fourNumbers).performAll calls).perform .advance).2.readers =
          #[⟨Source.fourNumbers, next⟩] ∧ ReadRange.Gains 0 ⟨some 0, 3, false⟩ next := by
  intro calls
  have hvalid : Source.fourNumbers.Valid := Source.valid_ofBuffer _
  obtain ⟨range, hreaders, -, -, -, hgains, -⟩ := progress_never_goes_back hvalid calls
  have hrange : ((opened Source.fourNumbers).performAll calls).readers.map Reader.range =
      #[⟨some 0, 3, false⟩] := by decide +kernel
  rw [hreaders] at hrange
  obtain rfl : range = ⟨some 0, 3, false⟩ := by simpa using hrange
  have hmoved : (((opened Source.fourNumbers).performAll calls).perform .advance).1 =
      .moved true := by
    rw [perform, move_of_ok hreaders rfl]
  exact ⟨hreaders, hgains .advance (Or.inl ⟨rfl, hmoved⟩)⟩

end Session

end BundledReading

import BundledReading.Proofs.Executor.Transitions
import BundledReading.Proofs.QuotientOrder

/-!
# Rebalancing

A tick looks at a collection of readers, in whatever order, and splits one of those that have read
the least share of their live range. Readers that have not started, that are exhausted, or that
stand on the last element of their live range do not matter to the choice: the share of such a
reader is either unknown or one. If the reader that was chosen refuses, nothing happens, though
another one might have accepted.

## Implementation notes

`LeastAdvanced` says what is chosen without saying how, so all that the order of the collection can
decide is which of several readers with one share is taken. Of the readers no more is asked than
`Reader.Sound`, which whatever is done with a reader keeps.
-/

namespace BundledReading

open Numeric

variable {α : Type}

/-! ## Readers in the middle of their work -/

/-- Whether the reader stands on an element that is not the last of its live range. -/
def Reader.isMidway (reader : Reader α) : Bool :=
  match reader.range.current? with
  | none => false
  | some position => position + 1 < reader.range.liveEnd

namespace Reader

variable {reader : Reader α} {consumed : Binary64}

theorem isMidway_iff : reader.isMidway = true ↔
    ∃ position, reader.range.current? = some position ∧ position + 1 < reader.range.liveEnd := by
  unfold isMidway
  cases reader.range.current? <;> simp

/-- What a reader tells that has started: one at the end, and a quotient of counts before. -/
theorem consumed_cases (h : reader.consumed = some consumed) :
    consumed = .ofNat 1 ∨ ∃ position, reader.range.current? = some position ∧
      consumed = .ofNat (position - reader.source.start + 1) /
        .ofNat (reader.range.liveEnd - reader.source.start) := by
  rw [Reader.consumed, ReadRange.consumed] at h
  split at h
  · exact Or.inl (Option.some.inj h).symm
  next hdone =>
    obtain ⟨position, hposition, rfl⟩ := Option.map_eq_some_iff.mp h
    refine Or.inr ⟨position, ?_, rfl⟩
    exact ReadRange.current?_eq_some_iff.mpr ⟨by simpa using hdone, hposition⟩

theorem consumed_of_current {position : Nat} (h : reader.range.current? = some position) :
    reader.consumed = some (.ofNat (position - reader.source.start + 1) /
      .ofNat (reader.range.liveEnd - reader.source.start)) := by
  obtain ⟨hdone, hposition⟩ := ReadRange.current?_eq_some_iff.mp h
  simp [Reader.consumed, ReadRange.consumed, hdone, hposition]

theorem isNegative_of_consumed (h : reader.consumed = some consumed) :
    consumed.isNegative = false := by
  rcases consumed_cases h with heq | ⟨position, -, heq⟩
  · rw [heq]
    exact Binary64.isNegative_ofNat 1
  · rw [heq]
    exact Binary64.isNegative_div (Binary64.isNegative_ofNat _) (Binary64.isNegative_ofNat _)

end Reader

namespace Executor

/-! ## Candidates -/

variable {reader : Reader α} {consumed : Binary64}

theorem candidate?_eq_some_iff : candidate? reader = some consumed ↔
    reader.consumed = some consumed ∧ consumed.lt (.ofNat 1) = true := by
  unfold candidate?
  cases hconsumed : reader.consumed with
  | none => simp
  | some found =>
      by_cases hlt : found.lt (.ofNat 1) = true
      · simp only [hlt, if_true, Option.some.injEq]
        constructor
        · rintro rfl
          exact ⟨rfl, hlt⟩
        · exact And.left
      · simp only [hlt, Option.some.injEq]
        constructor
        · intro h
          cases h
        · rintro ⟨rfl, h⟩
          exact absurd h hlt

/-- A reader that is not midway is no candidate. -/
theorem candidate?_eq_none (hsound : reader.Sound) (h : reader.isMidway = false) :
    candidate? reader = none := by
  rw [Option.eq_none_iff_forall_ne_some]
  intro consumed hcandidate
  obtain ⟨hconsumed, hlt⟩ := candidate?_eq_some_iff.mp hcandidate
  have hone : ∀ x : Binary64, x = .ofNat 1 ∨ x.isNaN = true → x.lt (.ofNat 1) = false := by
    rintro x (heq | hnan)
    · simp [Binary64.lt, heq]
    · simp [Binary64.lt, hnan]
  rcases Reader.consumed_cases hconsumed with heq | ⟨position, hcurrent, heq⟩
  · rw [hone _ (Or.inl heq)] at hlt
    cases hlt
  · have hbounds := hsound.current_mem hcurrent
    have hlast : ¬ position + 1 < reader.range.liveEnd := by
      intro hmore
      rw [Reader.isMidway_iff.mpr ⟨position, hcurrent, hmore⟩] at h
      cases h
    have hcount : position - reader.source.start + 1 =
        reader.range.liveEnd - reader.source.start := by omega
    rw [heq, hcount, hone _ (Binary64.div_self_cases (Binary64.isNegative_ofNat _))] at hlt
    cases hlt

/-- A reader that is midway is a candidate, as long as its live range is counted exactly. -/
theorem exists_candidate (hsound : reader.Sound) (h : reader.isMidway = true)
    (hsize : reader.range.liveEnd - reader.source.start ≤ 2 ^ 53) :
    ∃ consumed, candidate? reader = some consumed := by
  obtain ⟨position, hcurrent, hmore⟩ := Reader.isMidway_iff.mp h
  have hbounds := hsound.current_mem hcurrent
  refine ⟨_, candidate?_eq_some_iff.mpr ⟨Reader.consumed_of_current hcurrent, ?_⟩⟩
  exact Binary64.div_ofNat_lt_one (by omega) hsize

/-! ## The choice -/

/-- One of the readers, a candidate that has consumed no more than any candidate. -/
structure LeastAdvanced (readers : List (Nat × Reader α)) (id : Nat) (reader : Reader α)
    (consumed : Binary64) : Prop where
  mem : (id, reader) ∈ readers
  candidate : candidate? reader = some consumed
  least : ∀ entry ∈ readers, ∀ other, candidate? entry.2 = some other →
    other.totalLt consumed = false

variable {readers order : List (Nat × Reader α)} {id otherId : Nat} {other : Reader α}
  {otherConsumed fraction : Binary64}

theorem totalLt_eq_false_iff {x y : Binary64} :
    x.totalLt y = false ↔ y.totalKey ≤ x.totalKey := by
  simp [Binary64.totalLt]

theorem leastAdvanced_eq_none_iff :
    leastAdvanced readers = none ↔ ∀ entry ∈ readers, candidate? entry.2 = none := by
  induction readers with
  | nil => simp [leastAdvanced]
  | cons head rest ih =>
      obtain ⟨headId, headReader⟩ := head
      rw [List.forall_mem_cons, ← ih, leastAdvanced]
      cases candidate? headReader with
      | none => simp
      | some found =>
          cases leastAdvanced rest with
          | none => simp
          | some least =>
              obtain ⟨restId, restReader, restConsumed⟩ := least
              dsimp only
              split <;> simp

/-- What is chosen is least advanced. -/
theorem leastAdvanced_spec (h : leastAdvanced readers = some (id, reader, consumed)) :
    LeastAdvanced readers id reader consumed := by
  obtain ⟨hmem, hcandidate⟩ := leastAdvanced_eq_some h
  refine ⟨hmem, hcandidate, ?_⟩
  clear hmem hcandidate
  induction readers generalizing id reader consumed with
  | nil => simp
  | cons head rest ih =>
      obtain ⟨headId, headReader⟩ := head
      rw [List.forall_mem_cons]
      simp only [leastAdvanced] at h
      split at h
      next hnone =>
        refine ⟨?_, ih h⟩
        simp [hnone]
      next found hfound hrest =>
        cases h
        refine ⟨by simp [hfound, totalLt_eq_false_iff], ?_⟩
        intro entry hentry other hother
        simp [leastAdvanced_eq_none_iff.mp hrest entry hentry] at hother
      next found restId restReader restConsumed hfound hrest =>
        split at h
        next hless =>
          cases h
          refine ⟨?_, ih hrest⟩
          have hkey : consumed.totalKey < found.totalKey := by simpa [Binary64.totalLt] using hless
          simpa [hfound, totalLt_eq_false_iff] using hkey.le
        next hnotLess =>
          cases h
          refine ⟨by simp [hfound, totalLt_eq_false_iff], ?_⟩
          intro entry hentry other hother
          have hleast := totalLt_eq_false_iff.mp (ih hrest entry hentry other hother)
          have hkey : consumed.totalKey ≤ restConsumed.totalKey := by
            simpa [Binary64.totalLt] using hnotLess
          exact totalLt_eq_false_iff.mpr (hkey.trans hleast)

/-- Readers that are no candidates might as well not be there. -/
theorem leastAdvanced_filter {keep : Nat × Reader α → Bool}
    (h : ∀ entry ∈ readers, keep entry = false → candidate? entry.2 = none) :
    leastAdvanced (readers.filter keep) = leastAdvanced readers := by
  induction readers with
  | nil => rfl
  | cons head rest ih =>
      rw [List.forall_mem_cons] at h
      cases hkeep : keep head with
      | true => rw [List.filter_cons_of_pos hkeep, leastAdvanced, leastAdvanced, ih h.2]
      | false =>
          rw [List.filter_cons_of_neg (by simp [hkeep]), ih h.2, leastAdvanced, h.1 hkeep]

namespace LeastAdvanced

theorem perm (h : LeastAdvanced readers id reader consumed) (hperm : order.Perm readers) :
    LeastAdvanced order id reader consumed where
  mem := hperm.mem_iff.mpr h.mem
  candidate := h.candidate
  least := fun entry hentry => h.least entry (hperm.mem_iff.mp hentry)

/-- All readers that are least advanced have consumed the same. -/
theorem consumed_eq (h : LeastAdvanced readers id reader consumed)
    (hother : LeastAdvanced readers otherId other otherConsumed) : consumed = otherConsumed := by
  apply Binary64.eq_of_totalKey_eq
  apply Int.le_antisymm
  · exact totalLt_eq_false_iff.mp (h.least _ hother.mem _ hother.candidate)
  · exact totalLt_eq_false_iff.mp (hother.least _ h.mem _ h.candidate)

/-- No reader that has started has consumed less, whether it is a candidate or not. -/
theorem not_less (h : LeastAdvanced readers id reader consumed) {entry : Nat × Reader α}
    (hentry : entry ∈ readers) (hother : entry.2.consumed = some otherConsumed) :
    otherConsumed.totalLt consumed = false := by
  cases hlt : otherConsumed.lt (.ofNat 1) with
  | true => exact h.least entry hentry _ (candidate?_eq_some_iff.mpr ⟨hother, hlt⟩)
  | false =>
      have hfinite : (Binary64.ofNat 1).IsFinite := (Binary64.ofNat_spec (by omega)).1
      have hbelow := (candidate?_eq_some_iff.mp h.candidate).2
      apply totalLt_eq_false_iff.mpr
      exact (Binary64.totalKey_lt_totalKey hfinite hbelow hlt
        (Reader.isNegative_of_consumed hother)).le

end LeastAdvanced

/-! ## The split -/

theorem rebalance_of_leastAdvanced (h : leastAdvanced readers = some (id, reader, consumed)) :
    rebalance fraction readers = (reader.split fraction).1.map fun residual =>
      ⟨id, (reader.split fraction).2, consumed, residual⟩ := by
  simp only [rebalance, h, Option.bind_eq_bind, Option.bind_some]
  cases hsplit : reader.split fraction with
  | mk residual left => cases residual <;> rfl

theorem rebalance_of_none (h : leastAdvanced readers = none) :
    rebalance fraction readers = none := by
  simp [rebalance, h]

theorem rebalance_congr (h : leastAdvanced order = leastAdvanced readers) :
    rebalance fraction order = rebalance fraction readers := by
  simp only [rebalance, h]

/-- Puts what a split has left of a reader in the place of that reader. -/
def Rebalanced.replaceIn (made : Rebalanced α) (readers : List (Nat × Reader α)) :
    List (Nat × Reader α) :=
  readers.map fun entry => if entry.1 = made.id then (entry.1, made.reader) else entry

/-- The readers after rebalancing. -/
def afterRebalance (fraction : Binary64) (readers : List (Nat × Reader α)) :
    List (Nat × Reader α) :=
  match rebalance fraction readers with
  | none => readers
  | some made => made.replaceIn readers

/-- The readers of the running tasks, in the order of launching. -/
def State.runningReaders (state : State α) : List (Nat × Reader α) :=
  state.active.map fun task => (task.id, task.reader)

/-- A tick that looks at all running readers rebalances them, if nothing is queued and a permit is
free. -/
theorem State.runningReaders_tick {state : State α} (hnumbered : state.Numbered)
    (hwaiting : state.control = .waiting) (hqueue : state.queue = []) (hpermits : 0 < state.permits)
    (fraction : Binary64) :
    (state.tick fraction (state.active.map Task.id)).runningReaders =
      afterRebalance fraction state.runningReaders := by
  have hlooked : (state.active.map Task.id).filterMap (fun id =>
      (findTask id state.active).map fun task => (id, task.reader)) = state.runningReaders := by
    rw [List.filterMap_map, State.runningReaders, ← List.filterMap_eq_map]
    apply List.filterMap_congr
    intro task htask
    simp [findTask_of_mem hnumbered.nodup htask]
  simp only [State.tick, hwaiting, hqueue, hpermits, List.isEmpty_nil, decide_true, Bool.and_self,
    if_true, hlooked, afterRebalance]
  cases rebalance fraction state.runningReaders with
  | none => rfl
  | some made =>
      simp only [State.runningReaders, Rebalanced.replaceIn, List.map_map]
      apply List.map_congr_left
      intro task htask
      dsimp only [Function.comp_apply]
      split <;> rfl

/-- A split has moved back the live end of one of the readers, and nothing else. The reader was
midway, none that had started had consumed less, and it has given away what was cut off. -/
def Rebalanced.SplitsLeast (made : Rebalanced α) (readers after : List (Nat × Reader α)) : Prop :=
  ∃ before reader rest position,
    readers = before ++ (made.id, reader) :: rest ∧
    after = before ++ (made.id, made.reader) :: rest ∧
    made.reader = { reader with range := { reader.range with liveEnd := made.residual.start } } ∧
    reader.range.current? = some position ∧ position + 1 < made.residual.start ∧
    made.residual.start < reader.range.liveEnd ∧
    made.residual = reader.source.withRange made.residual.start reader.range.liveEnd ∧
    reader.consumed = some made.consumed ∧
    ∀ entry ∈ readers, ∀ consumed, entry.2.consumed = some consumed →
      consumed.totalLt made.consumed = false

theorem splitsLeast_of_rebalance (hids : (readers.map Prod.fst).Nodup) {made : Rebalanced α}
    (h : rebalance fraction readers = some made) :
    made.SplitsLeast readers (afterRebalance fraction readers) := by
  cases hleast : leastAdvanced readers with
  | none =>
      rw [rebalance_of_none hleast] at h
      cases h
  | some least =>
      obtain ⟨id, reader, consumed⟩ := least
      have hspec := leastAdvanced_spec hleast
      have hmade := h
      rw [rebalance_of_leastAdvanced hleast] at hmade
      obtain ⟨residual, hresidual, rfl⟩ := Option.map_eq_some_iff.mp hmade
      obtain ⟨position, point, hcurrent, hunread, hlive, rfl, hleft⟩ :=
        Reader.split_eq_some (Prod.ext hresidual rfl)
      obtain ⟨before, rest, hreaders⟩ := List.append_of_mem hspec.mem
      refine ⟨before, reader, rest, position, hreaders, ?_, hleft, hcurrent, hunread, hlive, rfl,
        (candidate?_eq_some_iff.mp hspec.candidate).1, ?_⟩
      · rw [afterRebalance, h]
        rw [hreaders] at hids ⊢
        exact map_ite_key Prod.fst (fun entry => (entry.1, (reader.split fraction).2))
          (key_ne_of_nodup Prod.fst hids)
      · intro entry hentry other hother
        exact hspec.not_less hentry hother

theorem Rebalanced.SplitsLeast.ne {made : Rebalanced α} {after : List (Nat × Reader α)}
    (h : made.SplitsLeast readers after) : after ≠ readers := by
  obtain ⟨before, reader, rest, position, rfl, rfl, hleft, -, -, hlive, -⟩ := h
  intro heq
  have hreader : made.reader = reader := by simpa using heq
  rw [hreader] at hleft
  have hend := congrArg (fun reader => reader.range.liveEnd) hleft
  exact absurd hend (Nat.ne_of_gt hlive)

/-- If nothing is split though some reader is midway, a least advanced one has refused. -/
theorem exists_refusing (hsound : ∀ entry ∈ readers, entry.2.Sound)
    (h : rebalance fraction readers = none) {entry : Nat × Reader α} (hentry : entry ∈ readers)
    (hmidway : entry.2.isMidway = true)
    (hsize : entry.2.range.liveEnd - entry.2.source.start ≤ 2 ^ 53) :
    ∃ id reader consumed, LeastAdvanced readers id reader consumed ∧
      (reader.split fraction).1 = none := by
  obtain ⟨found, hfound⟩ := exists_candidate (hsound entry hentry) hmidway hsize
  cases hleast : leastAdvanced readers with
  | none => simp [leastAdvanced_eq_none_iff.mp hleast entry hentry] at hfound
  | some least =>
      obtain ⟨id, reader, consumed⟩ := least
      refine ⟨id, reader, consumed, leastAdvanced_spec hleast, ?_⟩
      rw [rebalance_of_leastAdvanced hleast] at h
      exact Option.map_eq_none_iff.mp h

/-- The order decides at most between readers that have consumed the same. -/
theorem rebalance_perm (hids : (readers.map Prod.fst).Nodup) (fraction : Binary64)
    (hperm : order.Perm readers) :
    rebalance fraction order = rebalance fraction readers ∨
      ∃ id reader otherId other consumed, id ≠ otherId ∧
        leastAdvanced readers = some (id, reader, consumed) ∧
        leastAdvanced order = some (otherId, other, consumed) := by
  have hsame : (∀ entry ∈ order, candidate? entry.2 = none) ↔
      ∀ entry ∈ readers, candidate? entry.2 = none := by simp [hperm.mem_iff]
  rw [← leastAdvanced_eq_none_iff, ← leastAdvanced_eq_none_iff] at hsame
  cases hleast : leastAdvanced readers with
  | none => exact Or.inl (rebalance_congr ((hsame.mpr hleast).trans hleast.symm))
  | some least =>
      cases hother : leastAdvanced order with
      | none => simp [hsame.mp hother] at hleast
      | some otherLeast =>
          obtain ⟨id, reader, consumed⟩ := least
          obtain ⟨otherId, other, otherConsumed⟩ := otherLeast
          have hspec := leastAdvanced_spec hleast
          have hotherSpec := (leastAdvanced_spec hother).perm hperm.symm
          obtain rfl := hspec.consumed_eq hotherSpec
          by_cases hid : id = otherId
          · left
            have hentry := List.inj_on_of_nodup_map hids hspec.mem hotherSpec.mem hid
            obtain ⟨rfl, rfl⟩ := Prod.mk.inj hentry
            exact rebalance_congr (hother.trans hleast.symm)
          · exact Or.inr ⟨id, reader, otherId, other, consumed, hid, rfl, rfl⟩

/-- Rebalancing changes a reader exactly if it gives a residual, and then it has split one of the
least advanced readers that are midway, and no other. If it gives none though some reader is midway,
a least advanced one has refused the split. Readers that are not midway make no difference, and the
order of the readers makes one only if it decides between readers that have consumed the same. A
tick that looks at all running readers does to them what rebalancing does. -/
theorem rebalance_splits_least_advanced (hids : (readers.map Prod.fst).Nodup)
    (hsound : ∀ entry ∈ readers, entry.2.Sound) (fraction : Binary64) :
    ((∃ made, rebalance fraction readers = some made) ↔
        afterRebalance fraction readers ≠ readers) ∧
      (∀ made, rebalance fraction readers = some made →
        made.SplitsLeast readers (afterRebalance fraction readers)) ∧
      (rebalance fraction readers = none → ∀ entry ∈ readers, entry.2.isMidway = true →
        entry.2.range.liveEnd - entry.2.source.start ≤ 2 ^ 53 →
          ∃ id reader consumed, LeastAdvanced readers id reader consumed ∧
            (reader.split fraction).1 = none) ∧
      rebalance fraction (readers.filter fun entry => entry.2.isMidway) =
        rebalance fraction readers ∧
      (∀ order, order.Perm readers → rebalance fraction order = rebalance fraction readers ∨
        ∃ id reader otherId other consumed, id ≠ otherId ∧
          leastAdvanced readers = some (id, reader, consumed) ∧
          leastAdvanced order = some (otherId, other, consumed)) ∧
      ∀ state : State α, state.Numbered → state.control = .waiting → state.queue = [] →
        0 < state.permits → state.runningReaders = readers →
        (state.tick fraction (state.active.map Task.id)).runningReaders =
          afterRebalance fraction readers := by
  refine ⟨⟨?_, ?_⟩, fun made => splitsLeast_of_rebalance hids, ?_, ?_, ?_, ?_⟩
  · rintro ⟨made, hmade⟩
    exact (splitsLeast_of_rebalance hids hmade).ne
  · intro hne
    cases hmade : rebalance fraction readers with
    | none => simp [afterRebalance, hmade] at hne
    | some made => exact ⟨made, rfl⟩
  · intro hnone entry hentry hmidway hsize
    exact exists_refusing hsound hnone hentry hmidway hsize
  · apply rebalance_congr
    apply leastAdvanced_filter
    intro entry hentry hidle
    exact candidate?_eq_none (hsound entry hentry) hidle
  · intro order hperm
    exact rebalance_perm hids fraction hperm
  · rintro state hnumbered hwaiting hqueue hpermits rfl
    exact state.runningReaders_tick hnumbered hwaiting hqueue hpermits fraction

/-- Five readers of four numbers: one has not started, one stands on the second number, one on the
first, one has finished, and one stands on the last. The third is split. -/
theorem rebalance_splits_least_advanced_fiveReaders :
    let ranges : List ReadRange :=
      [⟨none, 4, false⟩, ⟨some 1, 4, false⟩, ⟨some 0, 4, false⟩, ⟨some 3, 4, true⟩,
        ⟨some 3, 4, false⟩]
    let readers := ranges.zipIdx.map fun (range, id) => (id, Reader.mk Source.fourNumbers range)
    ∃ made, rebalance (.ofQuotient false 3 4) readers = some made ∧ made.id = 2 ∧
      made.SplitsLeast readers (afterRebalance (.ofQuotient false 3 4) readers) := by
  intro ranges readers
  have hsound : ∀ entry ∈ readers, entry.2.Sound := by
    intro entry hentry
    obtain ⟨⟨range, id⟩, hrange, rfl⟩ := List.mem_map.mp hentry
    have hbounds : ∀ range ∈ ranges, range.liveEnd = 4 ∧ ∀ position ∈ range.position,
        position < range.liveEnd := by decide
    obtain ⟨hlive, hposition⟩ := hbounds range (List.fst_mem_of_mem_zipIdx hrange)
    exact ⟨Source.valid_ofBuffer _, Nat.zero_le _, hlive.le,
      fun position h => ⟨Nat.zero_le _, hposition position h⟩⟩
  have hid : (rebalance (.ofQuotient false 3 4) readers).map Rebalanced.id = some 2 := by
    decide +kernel
  obtain ⟨made, hmade, hmadeId⟩ := Option.map_eq_some_iff.mp hid
  have hids : (readers.map Prod.fst).Nodup := by decide
  obtain ⟨-, hsplits, -⟩ := rebalance_splits_least_advanced hids hsound (.ofQuotient false 3 4)
  exact ⟨made, hmade, hmadeId, hsplits made hmade⟩

end Executor

end BundledReading

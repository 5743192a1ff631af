import BundledReading.Proofs.QuotientOrder
import BundledReading.Proofs.ReaderSteps
import BundledReading.Proofs.StaticSplits

/-!
# Checked calls

Sources and readers compute with machine words and call functions that refuse some arguments: a sum
may wrap, a stride may be zero, a range may leave the buffer. Here every function of theirs that
makes such calls is written once more with each call checked, so that it stops with a `Breach` at
the first one that its callee would refuse. Over buffers that fit the memory none is refused, and
erasing the checks gives the function back.

## Implementation notes

Two of the counts come out of floating-point arithmetic: the stride of a static split and the offset
of a dynamic one. Rounding may raise either above the number of elements, but not above the next
power of two, which leaves room for one more index in a machine word.
-/

namespace BundledReading

open Numeric Numeric.Binary64

/-! ## Breaches -/

/-- A call with arguments that its callee refuses. -/
inductive Breach where
  /-- A sum that is too large for a machine word. -/
  | overflow (a b : Nat)
  /-- A difference below zero. -/
  | underflow (a b : Nat)
  /-- A walk over indices that stays where it is. -/
  | stride
  /-- Bounds in the wrong order. -/
  | bounds (low high : Nat)
  /-- A range that a source may not be narrowed to. -/
  | range (start stop : Nat)
  /-- No permits, or more than there can be. -/
  | permits (count : Nat)
  /-- A timer that never lets time pass. -/
  | period
  deriving DecidableEq

/-- A computation that stops at its first breach. -/
abbrev Checked := Except Breach

namespace Checked

/-- The sum of two machine words. -/
def add (a b : Nat) : Checked Nat :=
  if a + b < Nat.pow 2 64 then .ok (a + b) else .error (.overflow a b)

/-- The difference of two machine words. -/
def sub (a b : Nat) : Checked Nat := if b ≤ a then .ok (a - b) else .error (.underflow a b)

/-- The word of a range that is nearest to `value`. -/
def clamp (low high value : Nat) : Checked Nat :=
  if low ≤ high then .ok (max low (min value high)) else .error (.bounds low high)

/-- Every index from `start` up to, but without, `stop` that is a whole number of steps away. -/
def stepBy (start stop step : Nat) : Checked (List Nat) :=
  if 0 < step then .ok (List.range' start ((stop - start + step - 1) / step) step)
  else .error .stride

theorem add_eq {a b : Nat} (h : a + b < 2 ^ 64) : add a b = .ok (a + b) := if_pos h

theorem sub_eq {a b : Nat} (h : b ≤ a) : sub a b = .ok (a - b) := if_pos h

theorem clamp_eq {low high : Nat} (h : low ≤ high) (value : Nat) :
    clamp low high value = .ok (max low (min value high)) := if_pos h

theorem stepBy_eq {step : Nat} (h : 0 < step) (start stop : Nat) :
    stepBy start stop step =
      .ok (List.range' start ((stop - start + step - 1) / step) step) := if_pos h

/-- A list of computations without a breach gives a list. -/
theorem mapM_eq {α β : Type} {checked : α → Checked β} {total : α → β} {items : List α}
    (h : ∀ item ∈ items, checked item = .ok (total item)) :
    items.mapM checked = .ok (items.map total) := by
  induction items with
  | nil => rfl
  | cons head rest ih =>
      rw [List.mapM_cons, h head List.mem_cons_self,
        ih fun item hitem => h item (List.mem_cons_of_mem head hitem)]
      rfl

end Checked

/-! ## Counts that come out of floating-point arithmetic -/

namespace Numeric.Binary64

variable {x y : Binary64} {u n k : Nat}

/-- What lies between zero and a finite number is finite. -/
theorem IsFinite.of_lt (hy : y.IsFinite) (h : x.lt y = true) (hsign : x.isNegative = false) :
    x.IsFinite := by
  obtain ⟨-, hkey⟩ : (x.isNaN = false ∧ y.isNaN = false) ∧ x.valueKey < y.valueKey := by
    simpa [lt] using h
  simp only [valueKey, hsign, hy.nonneg, Bool.false_eq_true, if_false, Int.ofNat_lt] at hkey
  exact ⟨hsign, hkey.trans hy.finite⟩

theorem isNegative_of_lt (hx : x.IsFinite) (h : x.lt y = true) : y.isNegative = false := by
  obtain ⟨-, hkey⟩ : (x.isNaN = false ∧ y.isNaN = false) ∧ x.valueKey < y.valueKey := by
    simpa [lt] using h
  by_contra hsign
  rw [Bool.not_eq_false] at hsign
  simp only [valueKey, hsign, hx.nonneg, Bool.false_eq_true, if_false, if_true] at hkey
  omega

/-- Saturation brings what is not above a finite number down to its value. -/
theorem toNatSaturating_le_of_not_le (hy : y.IsFinite) (h : ¬y.le x = true) (max : Nat) :
    (x.toNatSaturating max : ℚ) ≤ y.value := by
  by_cases hzero : x.isNaN = true ∨ x.isNegative = true
  · rw [toNatSaturating, if_pos (by simpa using hzero), Nat.cast_zero]
    exact y.value_nonneg
  · obtain ⟨hnan, hsign⟩ : x.isNaN = false ∧ x.isNegative = false := by simpa using hzero
    have hlt : x.lt y = true := by
      simpa [lt, le, hnan, hy.isNaN_eq, Int.not_le] using h
    have hx := hy.of_lt hlt hsign
    rw [toNatSaturating_eq hx]
    calc ((min ⌊x.value⌋₊ max : Nat) : ℚ) ≤ ⌊x.value⌋₊ := by exact_mod_cast Nat.min_le_left _ _
      _ ≤ x.value := Nat.floor_le x.value_nonneg
      _ ≤ y.value := ((lt_iff hx hy).mp hlt).le

theorem value_ofNat_two_pow (hk : k ≤ 64) : (ofNat (2 ^ k)).value = 2 ^ k := by
  have hle : 2 ^ k ≤ 2 ^ 64 := Nat.pow_le_pow_right Nat.two_pos hk
  have hunits : (ofNat (2 ^ k)).units = 2 ^ k * unitsPerOne :=
    (ofNat_spec hle).2.trans (roundQuotient_eq (representable_two_pow_mul_unitsPerOne k))
  exact (value_of_units_eq hunits).trans (Nat.cast_pow 2 k)

/-- Rounding a count does not take it past a power of two. -/
theorem value_ofNat_le_two_pow (h : n ≤ 2 ^ k) (hk : k ≤ 64) : (ofNat n).value ≤ 2 ^ k := by
  rw [← value_ofNat_two_pow hk]
  exact value_ofNat_mono h (Nat.pow_le_pow_right Nat.two_pos hk)

theorem units_le_iff : x.units ≤ n * unitsPerOne ↔ x.value ≤ n := by
  rw [value, div_le_iff₀ castUnitsPerOne_pos]
  norm_cast

/-- A share of a number that is at most a power of two is a finite number, and not above it. -/
theorem mul_le_two_pow (hx : x.IsFinite) (hy : y.IsFinite) (hone : x.value ≤ 1)
    (hle : y.value ≤ 2 ^ k) (hk : k ≤ 64) : (x * y).IsFinite ∧ (x * y).value ≤ 2 ^ k := by
  have hmul : x * y = ofUnits false (roundQuotient (x.units * y.units) unitsPerOne) := by
    change mul x y = _
    simp [mul, hx.isNaN_eq, hy.isNaN_eq, hx.isInfinite_eq, hy.isInfinite_eq, hx.nonneg, hy.nonneg]
  have hround : roundQuotient (x.units * y.units) unitsPerOne ≤ 2 ^ k * unitsPerOne := by
    apply roundQuotient_le unitsPerOne_pos (representable_two_pow_mul_unitsPerOne k)
    have hxunits : x.units ≤ 1 * unitsPerOne := units_le_iff.mpr (by exact_mod_cast hone)
    have hyunits : y.units ≤ 2 ^ k * unitsPerOne := units_le_iff.mpr (by exact_mod_cast hle)
    calc x.units * y.units ≤ 1 * unitsPerOne * (2 ^ k * unitsPerOne) :=
          Nat.mul_le_mul hxunits hyunits
      _ = 2 ^ k * unitsPerOne * unitsPerOne := by ring
  have hlimit : 2 ^ k * unitsPerOne < unitsLimit := by
    calc 2 ^ k * unitsPerOne ≤ 2 ^ 64 * unitsPerOne :=
          Nat.mul_le_mul_right _ (Nat.pow_le_pow_right Nat.two_pos hk)
      _ < unitsLimit := by decide +kernel
  have hspec := ofUnits_spec (representable_roundQuotient unitsPerOne_pos)
    (hround.trans_lt hlimit)
  rw [hmul]
  refine ⟨hspec.1, ?_⟩
  have hvalue := units_le_iff.mp (hspec.2.trans_le hround)
  exact_mod_cast hvalue

/-- Rounding a number to a whole one does not take it past a whole one. -/
theorem toNatSaturating_round_le (hx : x.IsFinite) (hle : x.value ≤ n) (max : Nat) :
    x.round.toNatSaturating max ≤ n := by
  obtain ⟨hround, hvalue⟩ := round_spec hx
  have hwhole : ⌊x.value + 1 / 2⌋₊ ≤ n := by
    apply Nat.le_of_lt_succ
    rw [Nat.floor_lt' (Nat.succ_ne_zero n)]
    push_cast
    linarith
  rw [toNatSaturating_eq hround, hvalue, Nat.floor_natCast]
  exact (Nat.min_le_left _ _).trans hwhole

end Numeric.Binary64

/-- A share of a number of elements, rounded, is no more than a power of two that bounds them. -/
theorem ReadRange.offset_le {fraction : Binary64} (h : ReadRange.isSplitFraction fraction = true)
    {n : Nat} (hn : n ≤ 2 ^ 63) (max : Nat) :
    (fraction * ofNat n).round.toNatSaturating max ≤ 2 ^ 63 := by
  obtain ⟨hpos, hlt⟩ : (zero false).lt fraction = true ∧ fraction.lt (ofNat 1) = true := by
    simpa [isSplitFraction] using h
  have hone : (ofNat 1).IsFinite := (ofNat_spec (by omega)).1
  have hsign : fraction.isNegative = false := isNegative_of_lt zero_spec.1 hpos
  have hfraction := hone.of_lt hlt hsign
  have hbelow : fraction.value ≤ 1 := by
    have hvalue := ((lt_iff hfraction hone).mp hlt).le
    rw [value_ofNat (by omega)] at hvalue
    exact_mod_cast hvalue
  have hspec := mul_le_two_pow (k := 63) hfraction (ofNat_spec (hn.trans (by omega))).1 hbelow
    (value_ofNat_le_two_pow hn (by omega)) (by omega)
  exact toNatSaturating_round_le hspec.1 (by exact_mod_cast hspec.2) max

/-! ## Sources -/

variable {α : Type}

/-- Whether the number of elements fits a signed machine word, as that of everything in memory
does. -/
def Buffer.FitsMemory (buffer : Buffer α) : Prop := buffer.size < 2 ^ 63

namespace Source

/-- The same buffer with a range that the source may be narrowed to. -/
def checkedWithRange (source : Source α) (start stop : Nat) : Checked (Source α) :=
  if source.start ≤ start ∧ start ≤ stop ∧ stop ≤ source.buffer.size then
    .ok (source.withRange start stop)
  else .error (.range start stop)

def checkedSize (source : Source α) : Checked Nat := Checked.sub source.stop source.start

def checkedElementsPerBundle (source : Source α) (desiredBytes : Nat) : Checked Nat := do
  let average := source.buffer.averageSize
  let size ← source.checkedSize
  if average.le (zero false) then return max size 1
  let perBundle := (ofNat desiredBytes / average).floor
  if (ofNat size).le perBundle then return max size 1
  return max (perBundle.toNatSaturating (Nat.pow 2 64 - 1)) 1

/-- Walks over the starts of the bundles of `step` elements and narrows the source to each. -/
def checkedPieces (source : Source α) (step : Nat) : Checked (List (Source α)) := do
  let starts ← Checked.stepBy source.start source.stop step
  starts.mapM fun start => do
    let stop ← Checked.add start step
    source.checkedWithRange start (min stop source.stop)

def checkedBundles (source : Source α) (desiredBytes : Nat) : Checked (List (Source α)) := do
  if desiredBytes = 0 || source.isEmpty then return [source]
  let perBundle ← source.checkedElementsPerBundle desiredBytes
  source.checkedPieces perBundle

variable {source : Source α}

theorem checkedWithRange_eq {start stop : Nat} (h : source.MayNarrow start stop) :
    source.checkedWithRange start stop = .ok (source.withRange start stop) := if_pos h

/-- The pieces of a range, in one go over where they start. -/
theorem cut_eq_map {step fuel : Nat} (start stop : Nat) (hstep : 0 < step)
    (hfuel : stop - start ≤ fuel) :
    cut step fuel start stop =
      (List.range' start ((stop - start + step - 1) / step) step).map fun first =>
        (first, min (first + step) stop) := by
  rw [cut_eq_map_range hstep hfuel]
  refine List.ext_getElem (by simp) fun number _ _ => ?_
  simp [Nat.add_mul, Nat.mul_comm step number, Nat.add_assoc]

/-- Rounding leaves a bundle no more elements than the power of two above all of them. -/
theorem elementsPerBundle_le_two_pow (h : source.size ≤ 2 ^ 63) (desiredBytes : Nat) :
    source.elementsPerBundle desiredBytes ≤ 2 ^ 63 := by
  unfold elementsPerBundle
  dsimp only
  split
  · omega
  · split
    · omega
    next hle =>
      have hsize := (ofNat_spec (n := source.size) (by omega)).1
      have hcount := (toNatSaturating_le_of_not_le hsize hle (Nat.pow 2 64 - 1)).trans
        (value_ofNat_le_two_pow h (by omega))
      have hcount' : ((ofNat desiredBytes / source.buffer.averageSize).floor.toNatSaturating
          (Nat.pow 2 64 - 1)) ≤ 2 ^ 63 := by exact_mod_cast hcount
      omega

namespace Valid

variable (hvalid : source.Valid) (hfits : source.buffer.FitsMemory)
include hvalid

theorem checkedSize_eq : source.checkedSize = .ok source.size :=
  Checked.sub_eq hvalid.start_le_stop

theorem checkedElementsPerBundle_eq (desiredBytes : Nat) :
    source.checkedElementsPerBundle desiredBytes = .ok (source.elementsPerBundle desiredBytes) := by
  unfold checkedElementsPerBundle elementsPerBundle
  rw [hvalid.checkedSize_eq]
  dsimp only [bind, Except.bind, pure, Except.pure]
  split
  · rfl
  · split <;> rfl

include hfits

/-- The bundles of a step that leaves room in a machine word are all within the source. -/
theorem checkedPieces_eq {step : Nat} (hpos : 0 < step) (hle : step ≤ 2 ^ 63) :
    source.checkedPieces step =
      .ok ((cut step source.size source.start source.stop).map fun piece =>
        source.withRange piece.1 piece.2) := by
  have hcut := cut_eq_map source.start source.stop hpos (Nat.le_refl source.size)
  have hpiece : ∀ start ∈ List.range' source.start
      ((source.stop - source.start + step - 1) / step) step,
      (do let stop ← Checked.add start step
          source.checkedWithRange start (min stop source.stop)) =
        .ok (source.withRange start (min (start + step) source.stop)) := by
    intro start hstart
    have hbounds := bounds_of_mem_cut hpos (hcut ▸ List.mem_map_of_mem hstart)
    have hsize := hvalid.stop_le_size
    have hmemory : source.buffer.size < 2 ^ 63 := hfits
    rw [Checked.add_eq (by omega)]
    exact checkedWithRange_eq ⟨hbounds.1, hbounds.2.1.le, hbounds.2.2.trans hsize⟩
  rw [checkedPieces, Checked.stepBy_eq hpos, hcut, List.map_map]
  exact Checked.mapM_eq hpiece

/-- No call of a static split is refused, whatever the desired size. -/
theorem checkedBundles_eq (desiredBytes : Nat) :
    source.checkedBundles desiredBytes = .ok (source.bundles desiredBytes) := by
  unfold checkedBundles bundles
  split
  · rfl
  · have hsize : source.size ≤ 2 ^ 63 := by
      have hstop := hvalid.stop_le_size
      have hmemory : source.buffer.size < 2 ^ 63 := hfits
      unfold size
      omega
    rw [hvalid.checkedElementsPerBundle_eq]
    exact hvalid.checkedPieces_eq hfits (source.elementsPerBundle_pos desiredBytes)
      (elementsPerBundle_le_two_pow hsize desiredBytes)

end Valid

end Source

/-! ## Readers -/

namespace Reader

def checkedAdvance (reader : Reader α) : Checked (Except Failure (Bool × Reader α)) := do
  let range := reader.range
  if range.done then return .ok (false, reader)
  match range.position with
  | none => return .error .noCurrent
  | some position =>
    let next ← Checked.add position 1
    if next < range.liveEnd then
      return .ok (true, { reader with range := { range with position := some next } })
    return .ok (false, { reader with range := { range with done := true } })

def checkedConsumed (reader : Reader α) : Checked (Option Binary64) := do
  let range := reader.range
  if range.done then return some (ofNat 1)
  match range.position with
  | none => return none
  | some position =>
    let before ← Checked.sub position reader.source.start
    let read ← Checked.add before 1
    let live ← Checked.sub range.liveEnd reader.source.start
    return some (ofNat read / ofNat live)

def checkedProposedEnd (reader : Reader α) (fraction : Binary64) : Checked Nat := do
  let start := reader.source.start
  let live ← Checked.sub reader.range.liveEnd start
  let offset := (fraction * ofNat live).round.toNatSaturating (Nat.pow 2 64 - 1)
  let target ← Checked.add start offset
  Checked.clamp start reader.range.liveEnd target

def checkedSplitPoint (reader : Reader α) (fraction : Binary64) : Checked (Option Nat) :=
  if ReadRange.isSplitFraction fraction then
    match reader.range.current? with
    | none => return none
    | some position => do
      let proposed ← reader.checkedProposedEnd fraction
      let next ← Checked.add position 1
      return if proposed ≤ next || reader.range.liveEnd ≤ proposed then none else some proposed
  else return none

def checkedSplit (reader : Reader α) (fraction : Binary64) :
    Checked (Option (Source α) × Reader α) := do
  match ← reader.checkedSplitPoint fraction with
  | none => return (none, reader)
  | some point =>
    let residual ← reader.source.checkedWithRange point reader.range.liveEnd
    return (some residual, { reader with range := { reader.range with liveEnd := point } })

def checkedCurrentSource (reader : Reader α) : Checked (Source α) :=
  reader.source.checkedWithRange reader.source.start reader.range.liveEnd

namespace Sound

variable {reader : Reader α} (hsound : reader.Sound)
include hsound

theorem checkedCurrentSource_eq : reader.checkedCurrentSource = .ok reader.currentSource :=
  Source.checkedWithRange_eq ⟨Nat.le_refl _, hsound.start_le_liveEnd, hsound.liveEnd_le_size⟩

variable (hfits : reader.source.buffer.FitsMemory)
include hfits

theorem liveEnd_lt : reader.range.liveEnd < 2 ^ 63 :=
  Nat.lt_of_le_of_lt hsound.liveEnd_le_size hfits

theorem checkedAdvance_eq : reader.checkedAdvance = .ok reader.advance := by
  have hlive := hsound.liveEnd_lt hfits
  rw [advance_eq, checkedAdvance]
  dsimp only
  split
  · rfl
  · cases hposition : reader.range.position with
    | none => rfl
    | some position =>
        have hlt := (hsound.position_mem position hposition).2
        dsimp only
        rw [Checked.add_eq (by omega)]
        dsimp only [bind, Except.bind]
        split <;> rfl

theorem checkedConsumed_eq : reader.checkedConsumed = .ok reader.consumed := by
  have hlive := hsound.liveEnd_lt hfits
  unfold checkedConsumed consumed ReadRange.consumed
  dsimp only
  split
  · rfl
  · cases hposition : reader.range.position with
    | none => rfl
    | some position =>
        obtain ⟨hle, hlt⟩ := hsound.position_mem position hposition
        dsimp only
        rw [Checked.sub_eq hle, Checked.sub_eq hsound.start_le_liveEnd]
        dsimp only [bind, Except.bind]
        rw [Checked.add_eq (by omega)]
        rfl

theorem checkedProposedEnd_eq {fraction : Binary64}
    (hfraction : ReadRange.isSplitFraction fraction = true) :
    reader.checkedProposedEnd fraction =
      .ok (reader.range.proposedEnd reader.source.start fraction) := by
  have hlive := hsound.liveEnd_lt hfits
  have hstart := hsound.start_le_liveEnd
  have hoffset := ReadRange.offset_le hfraction
    (n := reader.range.liveEnd - reader.source.start) (by omega) (Nat.pow 2 64 - 1)
  dsimp only [checkedProposedEnd, bind]
  rw [Checked.sub_eq hstart]
  dsimp only [Except.bind]
  rw [Checked.add_eq (by omega)]
  exact Checked.clamp_eq hstart _

theorem checkedSplitPoint_eq (fraction : Binary64) :
    reader.checkedSplitPoint fraction =
      .ok (reader.range.splitPoint reader.source.start fraction) := by
  have hlive := hsound.liveEnd_lt hfits
  unfold checkedSplitPoint ReadRange.splitPoint
  split
  next hfraction =>
    cases hcurrent : reader.range.current? with
    | none => rfl
    | some position =>
        have hlt := (hsound.current_mem hcurrent).2
        dsimp only [bind, Except.bind]
        rw [hsound.checkedProposedEnd_eq hfits hfraction, Checked.add_eq (by omega)]
        rfl
  · rfl

/-- No call of a dynamic split is refused, whatever the fraction. -/
theorem checkedSplit_eq (fraction : Binary64) :
    reader.checkedSplit fraction = .ok (reader.split fraction) := by
  rw [checkedSplit, hsound.checkedSplitPoint_eq hfits]
  dsimp only [bind, Except.bind]
  cases hpoint : reader.range.splitPoint reader.source.start fraction with
  | none => simp [split, ReadRange.split_of_none hpoint, pure, Except.pure]
  | some point =>
      obtain ⟨-, position, hcurrent, -, hunread, hlive⟩ :=
        ReadRange.splitPoint_eq_some_iff.mp hpoint
      have hbegin : reader.source.start ≤ point :=
        (hsound.current_mem hcurrent).1.trans (Nat.le_of_succ_le hunread.le)
      dsimp only
      rw [Source.checkedWithRange_eq ⟨hbegin, hlive.le, hsound.liveEnd_le_size⟩]
      simp [split, ReadRange.split_of_some hpoint, pure, Except.pure]

end Sound

end Reader

end BundledReading

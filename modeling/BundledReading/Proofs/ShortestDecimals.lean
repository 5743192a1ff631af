import BundledReading.Numeric.Shortest
import BundledReading.Proofs.NearestNumbers

/-!
# Shortest decimals

The decimal that a number is written with is told by all decimals that read back as the number
(`IsShortest`): none has fewer digits, and of those with as few none is nearer, or as near and
greater. There is only one such decimal, and the search over ever finer grids finds it.

## Implementation notes

Whatever lies between a number and a point that reads back reads back too. So on each grid it is
enough to look at the two points next to the number, and a decimal of a number of digits, wherever
it lies, has a point of the grid of that many digits between itself and the number.
-/

namespace BundledReading.Numeric

/-- The value of a decimal. -/
def Decimal.value (d : Decimal) : ℚ := d.coefficient * 10 ^ d.exponent

namespace Binary64

/-! ## Neighbours -/

theorem spacing_mul_two_pow {n : Nat} (e : Nat) (h : 2 ^ 52 ≤ n) (hn : n < 2 ^ 53) :
    spacing (n * 2 ^ e) = 2 ^ e := by
  have hpos := Nat.two_pow_pos e
  have hlog : (n * 2 ^ e).log2 = 52 + e := by
    rw [Nat.log2_eq_iff (Nat.mul_pos (by omega) hpos).ne', pow_add, Nat.add_right_comm, pow_add]
    exact ⟨Nat.mul_le_mul_right _ h, Nat.mul_lt_mul_of_pos_right hn hpos⟩
  rw [spacing_eq, hlog, Nat.add_sub_cancel_left]

/-- How far apart neighbours are, seen from below and from above, and which of them are even. -/
theorem neighbours (m : Nat) :
    unitsOfMagnitude (m + 1) = unitsOfMagnitude m + spacing (unitsOfMagnitude m) ∧
      spacingBelow (unitsOfMagnitude (m + 1)) = spacing (unitsOfMagnitude m) ∧
      (Even m ↔ unitsOfMagnitude m / spacing (unitsOfMagnitude m) % 2 = 0) := by
  rcases magnitude_cases m with hsmall | ⟨e, low, hlow, rfl⟩
  · have hspacing : spacing m = 1 := spacing_of_lt (by omega)
    have hnext : unitsOfMagnitude (m + 1) = m + 1 := by
      by_cases hlt : m + 1 < 2 ^ 52
      · exact unitsOfMagnitude_of_lt hlt
      · obtain rfl : m = 2 ^ 52 - 1 := by omega
        exact unitsOfMagnitude_add (m := 0) (e := 0) (by omega)
    rw [unitsOfMagnitude_of_lt hsmall, hnext, hspacing, Nat.div_one, Nat.even_iff]
    refine ⟨rfl, ?_, Iff.rfl⟩
    have hspacing' : spacing (m + 1) = 1 := spacing_of_lt (by omega)
    rw [spacingBelow, hspacing', if_neg (by omega)]
  · have hspacing := spacing_mul_two_pow e (show 2 ^ 52 ≤ 2 ^ 52 + low by omega) (by omega)
    have hpos := Nat.two_pow_pos e
    rw [unitsOfMagnitude_add hlow, hspacing, Nat.mul_div_cancel _ hpos]
    by_cases hnext : low + 1 < 2 ^ 52
    · have hunits : unitsOfMagnitude ((e + 1) * 2 ^ 52 + low + 1) =
          (2 ^ 52 + (low + 1)) * 2 ^ e := by
        rw [Nat.add_assoc, unitsOfMagnitude_add hnext]
      have hspacing' := spacing_mul_two_pow e (show 2 ^ 52 ≤ 2 ^ 52 + (low + 1) by omega) (by omega)
      refine ⟨by rw [hunits]; ring, ?_, by rw [Nat.even_iff]; omega⟩
      rw [hunits, spacingBelow, hspacing', if_neg]
      rintro ⟨heq, -⟩
      have hsame := Nat.eq_of_mul_eq_mul_right hpos heq
      rw [Nat.pow_eq] at hsame
      omega
    · have hunits : unitsOfMagnitude ((e + 1) * 2 ^ 52 + low + 1) = 2 ^ 52 * 2 ^ (e + 1) := by
        rw [show (e + 1) * 2 ^ 52 + low + 1 = (e + 1 + 1) * 2 ^ 52 + 0 by omega,
          unitsOfMagnitude_add (by omega), Nat.add_zero]
      have hspacing' := spacing_mul_two_pow (e + 1) (show 2 ^ 52 ≤ 2 ^ 52 by omega) (by omega)
      obtain rfl : low = 2 ^ 52 - 1 := by omega
      refine ⟨by rw [hunits]; ring, ?_, by rw [Nat.even_iff]; omega⟩
      rw [hunits, spacingBelow, hspacing', if_pos ⟨rfl, Nat.one_lt_two_pow (by omega)⟩, pow_succ,
        Nat.mul_div_cancel _ Nat.two_pos]

/-! ## What reads back -/

section Distances

variable {a b q : ℚ}

theorem abs_sub_le_abs_sub_iff (h : a < b) : |a - q| ≤ |b - q| ↔ 2 * q ≤ a + b := by
  rw [← sq_le_sq]
  constructor <;> intro hle <;> nlinarith

theorem abs_sub_lt_abs_sub_iff (h : a < b) : |a - q| < |b - q| ↔ 2 * q < a + b := by
  rw [← sq_lt_sq]
  constructor <;> intro hlt <;> nlinarith

/-- Distances add up over a point in between. -/
theorem abs_sub_add_of_mem_uIcc (h : q ∈ Set.uIcc a b) : |a - q| + |q - b| = |a - b| := by
  rcases Set.mem_uIcc.mp h with ⟨hlow, hhigh⟩ | ⟨hlow, hhigh⟩
  · rw [abs_of_nonpos (by linarith), abs_of_nonpos (by linarith), abs_of_nonpos (by linarith)]
    ring
  · rw [abs_of_nonneg (by linarith), abs_of_nonneg (by linarith), abs_of_nonneg (by linarith)]
    ring

end Distances

section ReadsBack

variable {x : Binary64} {negative : Bool} {q r : ℚ} {m : Nat}

/-- Whatever lies between a number and a point that it is nearest to is nearest to it too. -/
theorem IsNearest.between (h : x.IsNearest negative r)
    (hq : q ∈ Set.uIcc (patternValue x.magnitude) r) : x.IsNearest negative q := by
  have hsplit := abs_sub_add_of_mem_uIcc hq
  refine ⟨h.sign, h.bounded, ?_, ?_⟩
  · intro m hm
    have hnearest := h.nearest m hm
    have htriangle := abs_sub_le (patternValue m) q r
    linarith
  · intro m hm hne heq
    apply h.tie m hm hne (le_antisymm _ (h.nearest m hm))
    have htriangle := abs_sub_le (patternValue m) q r
    linarith

/-- A finite number is the nearest one to what lies between the points halfway to its neighbours,
and to these points if its pattern is even. -/
theorem isNearest_iff_halfway (hm : x.magnitude = m + 1) (hfinite : m + 1 < infinityMagnitude) :
    x.IsNearest x.isNegative q ↔
      if Even (m + 1) then
        patternValue m + patternValue (m + 1) ≤ 2 * q ∧
          2 * q ≤ patternValue (m + 1) + patternValue (m + 2)
      else patternValue m + patternValue (m + 1) < 2 * q ∧
          2 * q < patternValue (m + 1) + patternValue (m + 2) := by
  have hbelow := patternValue_strictMono (Nat.lt_succ_self m)
  have habove := patternValue_strictMono (Nat.lt_succ_self (m + 1))
  constructor
  · intro h
    have hlow := h.nearest m (by omega)
    have hhigh := h.nearest (m + 2) (by omega)
    rw [hm] at hlow hhigh
    rw [abs_sub_le_abs_sub_iff habove] at hhigh
    rw [← not_lt, abs_sub_lt_abs_sub_iff hbelow, not_lt] at hlow
    split
    · exact ⟨hlow, hhigh⟩
    next hodd =>
      refine ⟨lt_of_le_of_ne hlow fun heq => hodd ?_, lt_of_le_of_ne hhigh fun heq => hodd ?_⟩
      · have htie := h.tie m (by omega) (by omega)
        rw [hm] at htie
        apply htie
        rw [abs_of_nonpos (by linarith), abs_of_nonneg (by linarith)]
        linarith
      · have htie := h.tie (m + 2) (by omega) (by omega)
        rw [hm] at htie
        apply htie
        rw [abs_of_nonneg (by linarith), abs_of_nonpos (by linarith)]
        linarith
  · intro h
    have hle : patternValue m + patternValue (m + 1) ≤ 2 * q ∧
        2 * q ≤ patternValue (m + 1) + patternValue (m + 2) := by
      split at h
      · exact h
      · exact ⟨h.1.le, h.2.le⟩
    refine ⟨rfl, by omega, ?_, ?_⟩
    · intro k _
      rw [hm]
      rcases lt_trichotomy k (m + 1) with hlt | rfl | hgt
      · have hk := patternValue_strictMono.monotone (Nat.le_of_lt_succ hlt)
        rw [← not_lt, abs_sub_lt_abs_sub_iff (patternValue_strictMono hlt), not_lt]
        linarith [hle.1]
      · exact le_rfl
      · have hk := patternValue_strictMono.monotone (show m + 2 ≤ k from hgt)
        rw [abs_sub_le_abs_sub_iff (patternValue_strictMono hgt)]
        linarith [hle.2]
    · intro k _ hne heq
      rw [hm] at hne heq ⊢
      by_contra hodd
      rw [if_neg hodd] at h
      rcases lt_or_gt_of_ne hne with hlt | hgt
      · have hk := patternValue_strictMono.monotone (Nat.le_of_lt_succ hlt)
        have hless := (abs_sub_lt_abs_sub_iff (patternValue_strictMono hlt)).not.mp heq.not_lt
        have hmore := (abs_sub_le_abs_sub_iff (patternValue_strictMono hlt)).mp heq.le
        linarith [h.1]
      · have hk := patternValue_strictMono.monotone (show m + 2 ≤ k from hgt)
        have hless := (abs_sub_lt_abs_sub_iff (patternValue_strictMono hgt)).not.mp heq.symm.not_lt
        linarith [h.2]

theorem gridDen_pos (p : Int) : 0 < gridDen p := Nat.pow_pos (by norm_num)

theorem gridNum_pos (p : Int) : 0 < gridNum p := Nat.pow_pos (by norm_num)

theorem mul_pow_eq_div (k : Nat) (p : Int) :
    (k * 10 ^ p : ℚ) = (k * gridNum p : Nat) / (gridDen p : Nat) := (mul_pow_div_pow k p).symm

/-- Points of a grid are compared with half units without fractions. -/
theorem div_le_mul_pow_iff (n k : Nat) (p : Int) :
    (n / unitsPerOne : ℚ) ≤ 2 * (k * 10 ^ p) ↔
      n * gridDen p ≤ k * gridNum p * halvesPerOne := by
  have hden : (0 : ℚ) < gridDen p := Nat.cast_pos.mpr (gridDen_pos p)
  rw [mul_pow_eq_div, ← mul_div_assoc, div_le_div_iff₀ castUnitsPerOne_pos hden,
    ← Nat.cast_le (α := ℚ), halvesPerOne]
  push_cast
  constructor <;> intro h <;> linarith

theorem mul_pow_le_div_iff (n k : Nat) (p : Int) :
    2 * (k * 10 ^ p) ≤ (n / unitsPerOne : ℚ) ↔
      k * gridNum p * halvesPerOne ≤ n * gridDen p := by
  have hden : (0 : ℚ) < gridDen p := Nat.cast_pos.mpr (gridDen_pos p)
  rw [mul_pow_eq_div, ← mul_div_assoc, div_le_div_iff₀ hden castUnitsPerOne_pos,
    ← Nat.cast_le (α := ℚ), halvesPerOne]
  push_cast
  constructor <;> intro h <;> linarith

/-- A point of a grid reads back exactly if the number is the nearest one to it. -/
theorem readsBack_iff (hm : x.magnitude = m + 1) (hfinite : m + 1 < infinityMagnitude) (p : Int)
    (k : Nat) : readsBack x.units p k ↔ x.IsNearest x.isNegative (k * 10 ^ p) := by
  obtain ⟨hunits, hbelow, -⟩ := neighbours m
  obtain ⟨habove, -, heven⟩ := neighbours (m + 1)
  rw [← hm, ← units] at heven
  have hsum (k : Nat) : patternValue k + patternValue (k + 1) =
      ((unitsOfMagnitude k + unitsOfMagnitude (k + 1) : Nat) : ℚ) / unitsPerOne := by
    rw [patternValue, patternValue, ← add_div, Nat.cast_add]
  have hlow : 2 * x.units - spacingBelow x.units =
      unitsOfMagnitude m + unitsOfMagnitude (m + 1) := by
    rw [units, hm, hbelow]
    omega
  have hhigh : 2 * x.units + spacing x.units =
      unitsOfMagnitude (m + 1) + unitsOfMagnitude (m + 1 + 1) := by
    rw [units, hm, habove]
    omega
  rw [isNearest_iff_halfway hm hfinite, hsum, hsum, div_le_mul_pow_iff, mul_pow_le_div_iff,
    ← not_le, mul_pow_le_div_iff, ← not_le, div_le_mul_pow_iff, readsBack, hlow, hhigh, ← hm]
  by_cases hparity : Even x.magnitude
  · simp [if_pos hparity, if_pos (heven.mp hparity)]
  · simp [if_neg hparity, if_neg (heven.not.mp hparity)]

end ReadsBack

/-! ## The best point of a grid -/

/-- A point of a grid that reads back, and no such point is nearer, or as near and greater. -/
structure IsBest (x : Binary64) (p : Int) (d : Decimal) : Prop where
  exponent : d.exponent = p
  reads : x.IsNearest x.isNegative d.value
  nearest : ∀ k : Nat, x.IsNearest x.isNegative (k * 10 ^ p) →
    |d.value - x.value| ≤ |k * 10 ^ p - x.value|
  upper : ∀ k : Nat, x.IsNearest x.isNegative (k * 10 ^ p) →
    |k * 10 ^ p - x.value| = |d.value - x.value| → k * 10 ^ p ≤ d.value

section Grid

variable {x : Binary64} {m : Nat} {p : Int} {d : Decimal} {k : Nat}

/-- The point of a grid below a number, and when the point above it is at least as near. -/
theorem below_bounds (x : Binary64) (p : Int) {below rest : Nat}
    (hbelow : 2 * x.units * gridDen p / (gridNum p * halvesPerOne) = below)
    (hrest : 2 * x.units * gridDen p % (gridNum p * halvesPerOne) = rest) :
    below * 10 ^ p ≤ x.value ∧ x.value < (below + 1) * 10 ^ p ∧
      (gridNum p * halvesPerOne ≤ 2 * rest ↔ (2 * below + 1) * 10 ^ p ≤ 2 * x.value) := by
  have hden : 0 < gridNum p * halvesPerOne :=
    Nat.mul_pos (gridNum_pos p) (Nat.mul_pos Nat.two_pos unitsPerOne_pos)
  have hdivision := Nat.div_add_mod (2 * x.units * gridDen p) (gridNum p * halvesPerOne)
  have hlt := Nat.mod_lt (2 * x.units * gridDen p) hden
  rw [hbelow, hrest] at hdivision
  rw [hrest] at hlt
  have hlow := mul_pow_le_div_iff (2 * x.units) below p
  have hhigh := mul_pow_le_div_iff (2 * x.units) (below + 1) p
  have hmid := mul_pow_le_div_iff (4 * x.units) (2 * below + 1) p
  push_cast [mul_div_assoc] at hlow hhigh hmid
  rw [Nat.mul_assoc, ← value] at hlow hhigh hmid
  refine ⟨?_, ?_, ?_⟩
  · have := hlow.mpr (by linarith)
    linarith
  · have := hhigh.not.mpr (by linarith)
    linarith
  · constructor <;> intro h
    · have := hmid.mpr (by linarith)
      linarith
    · have := hmid.mp (by linarith)
      linarith

section Next

variable {below : Nat} (hlow : below * 10 ^ p ≤ x.value) (hhigh : x.value < (below + 1) * 10 ^ p)
include hlow hhigh

/-- If a point of a grid reads back, so does the one next to the number on its side. -/
theorem reads_next (hk : x.IsNearest x.isNegative (k * 10 ^ p)) :
    ((k * 10 ^ p : ℚ) ≤ below * 10 ^ p ∧ x.IsNearest x.isNegative (below * 10 ^ p)) ∨
      ((below + 1) * 10 ^ p ≤ (k * 10 ^ p : ℚ) ∧
        x.IsNearest x.isNegative ((below + 1 : Nat) * 10 ^ p)) := by
  have hstep : (0 : ℚ) < 10 ^ p := by positivity
  rcases Nat.lt_or_ge below k with hlt | hle
  · right
    have hcast : (below + 1 : ℚ) ≤ k := by exact_mod_cast hlt
    have hnext := mul_le_mul_of_nonneg_right hcast hstep.le
    refine ⟨hnext, hk.between (Set.mem_uIcc.mpr (.inl ?_))⟩
    push_cast
    exact ⟨hhigh.le, hnext⟩
  · left
    have hcast : (k : ℚ) ≤ below := Nat.cast_le.mpr hle
    have hnext := mul_le_mul_of_nonneg_right hcast hstep.le
    exact ⟨hnext, hk.between (Set.mem_uIcc.mpr (.inr ⟨hnext, hlow⟩))⟩

/-- The point below a number is the best one if the point above is further away. -/
theorem isBest_below (hreads : x.IsNearest x.isNegative (below * 10 ^ p))
    (hless : x.IsNearest x.isNegative ((below + 1 : Nat) * 10 ^ p) →
      2 * x.value < (2 * below + 1) * 10 ^ p) : x.IsBest p ⟨below, p⟩ where
  exponent := rfl
  reads := hreads
  nearest := by
    intro k hk
    rw [Decimal.value, abs_of_nonpos (by linarith)]
    rcases reads_next hlow hhigh hk with ⟨hle, -⟩ | ⟨hle, habove⟩
    · rw [abs_of_nonpos (by linarith)]
      linarith
    · have := hless habove
      rw [abs_of_nonneg (by linarith)]
      linarith
  upper := by
    intro k hk heq
    rcases reads_next hlow hhigh hk with ⟨hle, -⟩ | ⟨hle, habove⟩
    · exact hle
    · have := hless habove
      rw [Decimal.value, abs_of_nonneg (by linarith), abs_of_nonpos (by linarith)] at heq
      linarith

/-- The point above a number is the best one if it is at least as near as the point below. -/
theorem isBest_above (hreads : x.IsNearest x.isNegative ((below + 1 : Nat) * 10 ^ p))
    (hmore : x.IsNearest x.isNegative (below * 10 ^ p) →
      (2 * below + 1) * 10 ^ p ≤ 2 * x.value) : x.IsBest p ⟨below + 1, p⟩ where
  exponent := rfl
  reads := hreads
  nearest := by
    intro k hk
    rw [Decimal.value]
    push_cast
    rw [abs_of_nonneg (by linarith)]
    rcases reads_next hlow hhigh hk with ⟨hle, hbelow⟩ | ⟨hle, -⟩
    · have := hmore hbelow
      rw [abs_of_nonpos (by linarith)]
      linarith
    · rw [abs_of_nonneg (by linarith)]
      linarith
  upper := by
    intro k hk heq
    rw [Decimal.value] at heq ⊢
    push_cast at heq ⊢
    rcases reads_next hlow hhigh hk with ⟨hle, -⟩ | ⟨hle, -⟩
    · linarith
    · rw [abs_of_nonneg (by linarith), abs_of_nonneg (by linarith)] at heq
      linarith

end Next

section Found

variable (hm : x.magnitude = m + 1) (hfinite : m + 1 < infinityMagnitude)
include hm hfinite

/-- The point that is found on a grid is the best one. -/
theorem isBest_of_gridPoint? (h : gridPoint? .up x.units p = some d) : x.IsBest p d := by
  obtain ⟨hlow, hhigh, htie⟩ := below_bounds x p rfl rfl
  simp only [gridPoint?, DecimalTie.goesUp, decide_eq_true_eq] at h
  split at h
  next hbelow habove =>
    rw [readsBack_iff hm hfinite] at hbelow habove
    obtain rfl := Option.some.inj h
    split
    next hup => exact isBest_above hlow hhigh habove fun _ => htie.mp hup
    next hup => exact isBest_below hlow hhigh hbelow fun _ => not_le.mp (htie.not.mp hup)
  next hbelow habove =>
    obtain rfl := Option.some.inj h
    rw [readsBack_iff hm hfinite] at hbelow
    refine isBest_below hlow hhigh hbelow fun hreads => ?_
    rw [(readsBack_iff hm hfinite p _).mpr hreads] at habove
    cases habove
  next hbelow habove =>
    obtain rfl := Option.some.inj h
    rw [readsBack_iff hm hfinite] at habove
    refine isBest_above hlow hhigh habove fun hreads => ?_
    rw [(readsBack_iff hm hfinite p _).mpr hreads] at hbelow
    cases hbelow
  · cases h

/-- If no point is found on a grid, none reads back. -/
theorem not_reads_of_gridPoint? (h : gridPoint? .up x.units p = none) (k : Nat) :
    ¬x.IsNearest x.isNegative (k * 10 ^ p) := by
  intro hk
  obtain ⟨hlow, hhigh, -⟩ := below_bounds x p rfl rfl
  simp only [gridPoint?] at h
  split at h
  · exact absurd h (Option.some_ne_none _)
  · exact absurd h (Option.some_ne_none _)
  · exact absurd h (Option.some_ne_none _)
  next hbelow habove =>
    rcases reads_next hlow hhigh hk with ⟨-, hreads⟩ | ⟨-, hreads⟩
    · rw [(readsBack_iff hm hfinite p _).mpr hreads] at hbelow
      cases hbelow
    · rw [(readsBack_iff hm hfinite p _).mpr hreads] at habove
      cases habove

end Found

end Grid

section Leading

variable {x : Binary64}

/-- The first power of ten that makes a number of units at least one. -/
theorem exists_find?_range {u : Nat} (hpos : 0 < u) (hlt : u < unitsPerOne) :
    ∃ j, ((List.range 324).find? fun j => unitsPerOne ≤ u * Nat.pow 10 (j + 1)) = some j ∧
      unitsPerOne ≤ u * 10 ^ (j + 1) ∧ u * 10 ^ j < unitsPerOne := by
  have hlast : unitsPerOne ≤ u * Nat.pow 10 (323 + 1) := by
    have hle : unitsPerOne ≤ Nat.pow 10 (323 + 1) := by decide +kernel
    exact hle.trans (Nat.le_mul_of_pos_left _ hpos)
  cases hfound : (List.range 324).find? fun j => unitsPerOne ≤ u * Nat.pow 10 (j + 1) with
  | none =>
      have hnone := List.find?_range_eq_none.mp hfound 323 (by omega)
      rw [Bool.not_eq_true', decide_eq_false_iff_not] at hnone
      exact absurd hlast hnone
  | some j =>
      obtain ⟨hj, -, hbefore⟩ := List.find?_range_eq_some.mp hfound
      refine ⟨j, rfl, of_decide_eq_true hj, ?_⟩
      cases j with
      | zero => simpa only [pow_zero, Nat.mul_one] using hlt
      | succ j =>
          have hnot := hbefore j (Nat.lt_succ_self j)
          rw [Bool.not_eq_true', decide_eq_false_iff_not, not_le] at hnot
          exact hnot

/-- A number lies between the power of ten of its leading digit and the next one. -/
theorem leadingExponent_bounds (hpos : 0 < x.units) :
    (10 : ℚ) ^ leadingExponent x.units ≤ x.value ∧
      x.value < 10 ^ (leadingExponent x.units + 1) := by
  have hcast := castUnitsPerOne_pos
  unfold leadingExponent
  split
  next hle =>
    have hwhole : x.units / unitsPerOne ≠ 0 := (Nat.div_pos hle unitsPerOne_pos).ne'
    obtain ⟨places, hplaces, hlow, hhigh⟩ := toDigits_bounds hwhole
    rw [hplaces, Nat.cast_add, Nat.cast_one, add_sub_cancel_right, zpow_natCast]
    rw [show (places : ℤ) + 1 = (places + 1 : Nat) by norm_num, zpow_natCast, value,
      le_div_iff₀ hcast, div_lt_iff₀ hcast]
    constructor
    · exact_mod_cast (Nat.le_div_iff_mul_le unitsPerOne_pos).mp hlow
    · exact_mod_cast (Nat.div_lt_iff_lt_mul unitsPerOne_pos).mp hhigh
  next hlt =>
    obtain ⟨j, hj, hlow, hhigh⟩ := exists_find?_range hpos (not_le.mp hlt)
    have hten : (0 : ℚ) < 10 ^ j := by positivity
    have hlow' : (unitsPerOne : ℚ) ≤ x.units * 10 ^ (j + 1) := by exact_mod_cast hlow
    have hhigh' : (x.units * 10 ^ j : ℚ) < unitsPerOne := by exact_mod_cast hhigh
    rw [hj, Option.getD_some, value, le_div_iff₀ hcast, div_lt_iff₀ hcast]
    constructor
    · rw [zpow_neg, zpow_natCast, inv_mul_le_iff₀ (by positivity)]
      linarith
    · rw [show -((j + 1 : Nat) : ℤ) + 1 = -(j : ℤ) by push_cast; ring, zpow_neg, zpow_natCast,
        lt_inv_mul_iff₀ hten]
      linarith

end Leading

section Close

variable {x : Binary64} {m : Nat} {p : Int} {q : ℚ} (hm : x.magnitude = m + 1)
  (hfinite : m + 1 < infinityMagnitude)
include hm hfinite

/-- What is nearer to a number than half of its distance to the next one below reads back. -/
theorem isNearest_of_close
    (h : 2 * |q - x.value| < (spacing (unitsOfMagnitude m) / unitsPerOne : ℚ)) :
    x.IsNearest x.isNegative q := by
  have hcast := castUnitsPerOne_pos
  have hvalue : x.value = patternValue (m + 1) := by rw [← hm]; rfl
  have hbelow : patternValue (m + 1) =
      patternValue m + spacing (unitsOfMagnitude m) / unitsPerOne := by
    rw [patternValue, patternValue, ← add_div, (neighbours m).1, Nat.cast_add]
  have habove : patternValue (m + 2) =
      patternValue (m + 1) + spacing (unitsOfMagnitude (m + 1)) / unitsPerOne := by
    rw [patternValue, patternValue, ← add_div, (neighbours (m + 1)).1, Nat.cast_add]
  have hmono : (spacing (unitsOfMagnitude m) / unitsPerOne : ℚ) ≤
      spacing (unitsOfMagnitude (m + 1)) / unitsPerOne := by
    apply div_le_div_of_nonneg_right _ hcast.le
    exact Nat.cast_le.mpr (Nat.le_of_dvd (spacing_pos _)
      (spacing_dvd_spacing (unitsOfMagnitude_strictMono (Nat.lt_succ_self m)).le))
  have hlow := neg_abs_le (q - x.value)
  have hhigh := le_abs_self (q - x.value)
  rw [isNearest_iff_halfway hm hfinite]
  have hstrict : patternValue m + patternValue (m + 1) < 2 * q ∧
      2 * q < patternValue (m + 1) + patternValue (m + 2) := by
    constructor <;> linarith
  split
  · exact ⟨hstrict.1.le, hstrict.2.le⟩
  · exact hstrict

/-- Seventeen digits suffice. -/
theorem exists_reads (hp : (10 : ℚ) ^ p * 10 ^ 16 ≤ x.value) :
    ∃ k : Nat, x.IsNearest x.isNegative (k * 10 ^ p) := by
  have hcast := castUnitsPerOne_pos
  have hstep : (10 : ℚ) ^ p < spacing (unitsOfMagnitude m) / unitsPerOne := by
    have hunits : x.units < 10 ^ 16 * spacing (unitsOfMagnitude m) := by
      have hlt := lt_mul_spacing (unitsOfMagnitude m)
      have hpos := spacing_pos (unitsOfMagnitude m)
      rw [units, hm, (neighbours m).1]
      omega
    have hvalue : x.value < 10 ^ 16 * (spacing (unitsOfMagnitude m) / unitsPerOne) := by
      rw [value, ← mul_div_assoc, div_lt_div_iff_of_pos_right hcast]
      exact_mod_cast hunits
    linarith
  obtain ⟨hlow, hhigh, -⟩ := below_bounds x p rfl rfl
  generalize 2 * x.units * gridDen p / (gridNum p * halvesPerOne) = below at hlow hhigh
  rcases lt_or_ge (2 * x.value) ((2 * below + 1) * 10 ^ p) with hless | hmore
  · refine ⟨below, isNearest_of_close hm hfinite ?_⟩
    rw [abs_of_nonpos (by linarith)]
    linarith
  · refine ⟨below + 1, isNearest_of_close hm hfinite ?_⟩
    push_cast
    rw [abs_of_nonneg (by linarith)]
    linarith

end Close
/-! ## Decimals -/

end Binary64

namespace Decimal

variable {d e : Decimal}

/-- Dropping zeros leaves a decimal of the same value that ends in no zero. -/
theorem stripZeros_spec {fuel : Nat} (hpos : 0 < d.coefficient) (hlt : d.coefficient < 10 ^ fuel) :
    (d.stripZeros fuel).value = d.value ∧ ¬10 ∣ (d.stripZeros fuel).coefficient ∧
      (d.stripZeros fuel).coefficient ≤ d.coefficient := by
  induction fuel generalizing d with
  | zero => omega
  | succ fuel ih =>
      rw [stripZeros]
      split
      next hzero =>
        obtain ⟨k, hk⟩ := Nat.dvd_of_mod_eq_zero hzero
        have hdiv : d.coefficient / 10 = k := by omega
        rw [pow_succ] at hlt
        obtain ⟨hvalue, htrimmed, hle⟩ := @ih ⟨d.coefficient / 10, d.exponent + 1⟩
          (show 0 < d.coefficient / 10 by omega) (show d.coefficient / 10 < 10 ^ fuel by omega)
        refine ⟨hvalue.trans ?_, htrimmed, hle.trans (Nat.div_le_self _ _)⟩
        rw [value, value, hdiv, hk, zpow_add_one₀ (by norm_num)]
        push_cast
        ring
      next hdigit => exact ⟨rfl, fun hdvd => hdigit (Nat.mod_eq_zero_of_dvd hdvd), le_rfl⟩

/-- Decimals that end in no zero are told apart by their values. -/
theorem eq_of_value_eq (hd : ¬10 ∣ d.coefficient) (he : ¬10 ∣ e.coefficient)
    (h : d.value = e.value) : d = e := by
  wlog hle : d.exponent ≤ e.exponent generalizing d e
  · exact (this he hd h.symm (by omega)).symm
  obtain ⟨k, hk⟩ := Int.le.dest hle
  have hten : (10 : ℚ) ^ d.exponent ≠ 0 := zpow_ne_zero _ (by norm_num)
  have hcoefficient : d.coefficient = e.coefficient * 10 ^ k := by
    rw [value, value, ← hk, zpow_add₀ (by norm_num), zpow_natCast, mul_comm (10 ^ d.exponent),
      ← mul_assoc, mul_left_inj' hten] at h
    exact_mod_cast h
  cases k with
  | zero =>
      rw [pow_zero, mul_one] at hcoefficient
      rw [Nat.cast_zero, add_zero] at hk
      calc d = ⟨d.coefficient, d.exponent⟩ := rfl
        _ = e := by rw [hcoefficient, hk]
  | succ k =>
      refine absurd ?_ hd
      rw [hcoefficient, pow_succ]
      exact Dvd.intro_left _ (mul_assoc _ _ _)

/-- A decimal lies between the power of ten of its leading digit and the next one. -/
theorem value_bounds (hpos : 0 < d.coefficient) :
    ∃ places, d.digits.length = places + 1 ∧
      (10 : ℚ) ^ (d.exponent + places) ≤ d.value ∧ d.value < 10 ^ (d.exponent + places + 1) := by
  have hten : (0 : ℚ) < 10 ^ d.exponent := by positivity
  obtain ⟨places, hplaces, hlow, hhigh⟩ := Binary64.toDigits_bounds hpos.ne'
  refine ⟨places, hplaces, ?_, ?_⟩
  · rw [zpow_add₀ (by norm_num), zpow_natCast, mul_comm, value]
    exact mul_le_mul_of_nonneg_right (by exact_mod_cast hlow) hten.le
  · rw [add_assoc, zpow_add₀ (by norm_num), mul_comm, value]
    exact mul_lt_mul_of_pos_right (by exact_mod_cast hhigh) hten

end Decimal

namespace Binary64

/-- The shortest decimal that reads back: it ends in no zero, and of those with as few digits none
is nearer, or as near and greater. -/
structure IsShortest (x : Binary64) (d : Decimal) : Prop where
  trimmed : ¬10 ∣ d.coefficient
  reads : x.IsNearest x.isNegative d.value
  fewest : ∀ other : Decimal, x.IsNearest x.isNegative other.value →
    d.digits.length ≤ other.digits.length
  nearest : ∀ other : Decimal, x.IsNearest x.isNegative other.value →
    other.digits.length = d.digits.length → |d.value - x.value| ≤ |other.value - x.value|
  upper : ∀ other : Decimal, x.IsNearest x.isNegative other.value →
    other.digits.length = d.digits.length → |other.value - x.value| = |d.value - x.value| →
    other.value ≤ d.value

/-- There is only one shortest decimal. -/
theorem IsShortest.unique {x : Binary64} {d e : Decimal} (hd : x.IsShortest d)
    (he : x.IsShortest e) : d = e := by
  have hlength : d.digits.length = e.digits.length :=
    le_antisymm (hd.fewest e he.reads) (he.fewest d hd.reads)
  have hdistance : |d.value - x.value| = |e.value - x.value| :=
    le_antisymm (hd.nearest e he.reads hlength.symm) (he.nearest d hd.reads hlength)
  exact Decimal.eq_of_value_eq hd.trimmed he.trimmed
    (le_antisymm (he.upper d hd.reads hlength hdistance)
      (hd.upper e he.reads hlength.symm hdistance.symm))
/-- What is found on a range is found at its first place. -/
theorem exists_of_findSome?_range {β : Type} {f : Nat → Option β} {count : Nat} {b : β}
    (h : (List.range count).findSome? f = some b) :
    ∃ n < count, f n = some b ∧ ∀ i < n, f i = none := by
  obtain ⟨before, n, after, hrange, hfound, hnone⟩ := List.findSome?_eq_some_iff.mp h
  have hmem : n ∈ List.range count := by simp [hrange]
  have hsorted := List.pairwise_lt_range (n := count)
  rw [hrange, List.pairwise_append] at hsorted
  refine ⟨n, List.mem_range.mp hmem, hfound, fun i hi => hnone i ?_⟩
  have hi' : i ∈ before ++ n :: after := by
    rw [← hrange]
    exact List.mem_range.mpr (hi.trans (List.mem_range.mp hmem))
  rcases List.mem_append.mp hi' with hmem | hmem
  · exact hmem
  · rcases List.mem_cons.mp hmem with rfl | hmem
    · exact absurd hi (lt_irrefl i)
    · exact absurd (List.rel_of_pairwise_cons hsorted.2.1 hmem) hi.not_gt

/-- Powers of ten can move from the coefficient of a decimal to its exponent. -/
theorem ten_pow_mul_zpow (k : Nat) (e : Int) :
    ((10 ^ k : Nat) : ℚ) * 10 ^ e = 10 ^ (e + k) := by
  rw [Nat.cast_pow, Nat.cast_ofNat, zpow_add₀ (by norm_num), zpow_natCast, mul_comm]

section Shortest

variable {x : Binary64} {m n : Nat} {d other : Decimal}

/-- Zero reads back as zero only. -/
theorem coefficient_pos (hm : x.magnitude = m + 1) (h : x.IsNearest x.isNegative d.value) :
    0 < d.coefficient := by
  rw [Nat.pos_iff_ne_zero]
  intro hzero
  have hvalue : d.value = 0 := by rw [Decimal.value, hzero, Nat.cast_zero, zero_mul]
  have hnearest := h.nearest 0 (Nat.zero_le _)
  have hpos : 0 < patternValue x.magnitude := by
    rw [← patternValue_zero]
    exact patternValue_strictMono (by omega)
  rw [hvalue, patternValue_zero, sub_zero, sub_zero, abs_zero] at hnearest
  exact absurd (abs_nonpos_iff.mp hnearest) hpos.ne'

/-- A decimal that reads back has a point of the grid of its number of digits between itself and the
number. -/
theorem exists_between {places : Nat} (hpos : 0 < x.units) (hother : 0 < other.coefficient)
    (hplaces : other.digits.length = places + 1) :
    ∃ k : Nat, (k * 10 ^ (leadingExponent x.units - places) : ℚ) ∈
      Set.uIcc x.value other.value := by
  obtain ⟨hlow, hhigh⟩ := leadingExponent_bounds hpos
  obtain ⟨places', hplaces', hdown, hup⟩ := other.value_bounds hother
  obtain rfl : places' = places := by omega
  generalize leadingExponent x.units = top at hlow hhigh ⊢
  rcases lt_trichotomy (other.exponent + places') top with hless | hequal | hmore
  · refine ⟨10 ^ places', ?_⟩
    rw [ten_pow_mul_zpow, sub_add_cancel]
    refine Set.mem_uIcc.mpr (.inr ⟨hup.le.trans ?_, hlow⟩)
    exact zpow_le_zpow_right₀ (by norm_num) (by omega)
  · refine ⟨other.coefficient, ?_⟩
    rw [show top - places' = other.exponent by omega]
    exact Set.right_mem_uIcc
  · refine ⟨10 ^ (places' + 1), ?_⟩
    rw [ten_pow_mul_zpow, show top - places' + (places' + 1 : Nat) = top + 1 by omega]
    refine Set.mem_uIcc.mpr (.inl ⟨hhigh.le, le_trans ?_ hdown⟩)
    exact zpow_le_zpow_right₀ (by norm_num) (by omega)

variable (hm : x.magnitude = m + 1) (hfinite : m + 1 < infinityMagnitude)
include hm hfinite

/-- The first grid with a point that reads back is among the seventeen that are tried. -/
theorem exists_first (hpos : 0 < x.units) :
    ∃ (n : Nat) (d : Decimal), ((List.range 17).findSome? fun (n : Nat) =>
        gridPoint? .up x.units (leadingExponent x.units - n)) = some d ∧ n < 17 ∧
      x.IsBest (leadingExponent x.units - n) d ∧
      ∀ i < n, ∀ k : Nat, ¬x.IsNearest x.isNegative (k * 10 ^ (leadingExponent x.units - i)) := by
  rcases Option.eq_none_or_eq_some ((List.range 17).findSome? fun (n : Nat) =>
      gridPoint? .up x.units (leadingExponent x.units - n)) with hfound | ⟨d, hfound⟩
  · have hlast := List.findSome?_eq_none_iff.mp hfound 16 (by decide)
    have hp : (10 : ℚ) ^ (leadingExponent x.units - (16 : Nat)) * 10 ^ 16 ≤ x.value := by
      rw [← zpow_natCast, ← zpow_add₀ (by norm_num), sub_add_cancel]
      exact (leadingExponent_bounds hpos).1
    obtain ⟨k, hk⟩ := exists_reads hm hfinite hp
    exact absurd hk (not_reads_of_gridPoint? hm hfinite hlast k)
  · obtain ⟨n, hn, hpoint, hbefore⟩ := exists_of_findSome?_range hfound
    refine ⟨n, d, hfound, hn, isBest_of_gridPoint? hm hfinite hpoint, ?_⟩
    exact fun i hi => not_reads_of_gridPoint? hm hfinite (hbefore i hi)

omit hm hfinite in
/-- The decimal that is found is the shortest one. -/
theorem isShortest_shortest (hpos : 0 < x.magnitude) (hfinite : x.magnitude < infinityMagnitude) :
    x.IsShortest (shortest .up x.units) := by
  obtain ⟨m, hm⟩ := Nat.exists_eq_succ_of_ne_zero hpos.ne'
  have hunits : 0 < x.units :=
    (unitsOfMagnitude_of_lt (Nat.two_pow_pos 52)).symm.trans_lt (unitsOfMagnitude_strictMono hpos)
  rw [hm] at hfinite
  obtain ⟨n, d, hfound, hn, hbest, hfirst⟩ := exists_first hm hfinite hunits
  have hcoefficient := coefficient_pos hm hbest.reads
  obtain ⟨hlow, hhigh⟩ := leadingExponent_bounds hunits
  have hle : d.coefficient ≤ 10 ^ (n + 1) := by
    by_contra hlarge
    have hpower : ((10 ^ (n + 1) : Nat) : ℚ) * 10 ^ (leadingExponent x.units - n) =
        10 ^ (leadingExponent x.units + 1) := by
      rw [ten_pow_mul_zpow,
        show leadingExponent x.units - n + (n + 1 : Nat) = leadingExponent x.units + 1 by omega]
    have hbeyond : (10 : ℚ) ^ (leadingExponent x.units + 1) < d.value := by
      rw [← hpower, Decimal.value, hbest.exponent]
      exact mul_lt_mul_of_pos_right (Nat.cast_lt.mpr (not_le.mp hlarge)) (by positivity)
    -- The power of ten reads back too, and it is nearer.
    have hreads := hbest.reads.between (Set.mem_uIcc.mpr (.inl ⟨hhigh.le, hbeyond.le⟩))
    have hnearest := hbest.nearest (10 ^ (n + 1)) (by rw [hpower]; exact hreads)
    rw [hpower, abs_of_nonneg (by linarith), abs_of_nonneg (by linarith)] at hnearest
    linarith
  have hlt : d.coefficient < 10 ^ 18 :=
    hle.trans_lt (Nat.pow_lt_pow_right (by norm_num) (by omega))
  obtain ⟨hvalue, htrimmed, hstrip⟩ := Decimal.stripZeros_spec hcoefficient hlt
  have hshortest : shortest .up x.units = d.stripZeros 18 := by
    rw [shortest, hfound, Option.getD_some]
  rw [hshortest]
  generalize d.stripZeros 18 = short at hvalue htrimmed hstrip
  have hdigits : short.digits.length ≤ n + 1 := by
    apply (Nat.length_toDigits_le_iff (by norm_num) (Nat.succ_pos n)).mpr
    refine lt_of_le_of_ne (hstrip.trans hle) fun heq => htrimmed ?_
    rw [heq, pow_succ]
    exact Dvd.intro_left _ rfl
  have hplaces {other : Decimal} (h : x.IsNearest x.isNegative other.value) :
      ∃ places, other.digits.length = places + 1 ∧ n ≤ places ∧
        ∃ k : Nat, (k * 10 ^ (leadingExponent x.units - places) : ℚ) ∈
          Set.uIcc x.value other.value := by
    have hother := coefficient_pos hm h
    obtain ⟨places, hplaces, -, -⟩ := other.value_bounds hother
    obtain ⟨k, hk⟩ := exists_between hunits hother hplaces
    refine ⟨places, hplaces, ?_, k, hk⟩
    by_contra hless
    exact hfirst places (not_le.mp hless) k (h.between hk)
  refine ⟨htrimmed, hvalue ▸ hbest.reads, ?_, ?_, ?_⟩
  · intro other h
    obtain ⟨places, hlength, hn, -⟩ := hplaces h
    omega
  · intro other h hlength
    obtain ⟨places, hother, hn, k, hk⟩ := hplaces h
    obtain rfl : places = n := by omega
    have hnearest := hbest.nearest k (h.between hk)
    have hsplit := abs_sub_add_of_mem_uIcc hk
    have hnonneg := abs_nonneg (k * 10 ^ (leadingExponent x.units - places) - other.value)
    rw [hvalue, abs_sub_comm other.value, ← hsplit]
    rw [abs_sub_comm (_ * _) x.value] at hnearest
    linarith
  · intro other h hlength heq
    obtain ⟨places, hother, hn, k, hk⟩ := hplaces h
    obtain rfl : places = n := by omega
    have hnearest := hbest.nearest k (h.between hk)
    have hsplit := abs_sub_add_of_mem_uIcc hk
    have hnonneg := abs_nonneg (k * 10 ^ (leadingExponent x.units - places) - other.value)
    rw [hvalue] at heq ⊢
    rw [abs_sub_comm other.value, ← hsplit] at heq
    rw [abs_sub_comm (_ * _) x.value] at hnearest
    have hsame : k * 10 ^ (leadingExponent x.units - places) = other.value := by
      refine sub_eq_zero.mp (abs_nonpos_iff.mp ?_)
      linarith
    rw [← hsame]
    apply hbest.upper k (h.between hk)
    rw [abs_sub_comm (_ * _) x.value]
    linarith

end Shortest
end Binary64

end BundledReading.Numeric

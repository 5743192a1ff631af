import BundledReading.Numeric.Binary64
import Mathlib.Algebra.Order.Floor.Semifield
import Mathlib.Data.Rat.Floor
import Mathlib.Tactic.FieldSimp
import Mathlib.Tactic.GCongr
import Mathlib.Tactic.Linarith
import Mathlib.Tactic.NormNum
import Mathlib.Tactic.Positivity
import Mathlib.Tactic.Ring

/-!
# Rounding to 64 bits

A count of units is representable if it is a multiple of the spacing near it. Rounding a quotient
gives a representable count and passes none on its way, and where the quotient has 53 significant
bits, the result is off by at most one part in `2 ^ 53`. The arithmetic of numbers is told by
their values: the value of a quotient is the rounded quotient of the values, and comparing two
numbers compares their values.

## Implementation notes

Only finite numbers without a sign are followed here. The bounds that keep a quotient away from
infinity and from the subnormal numbers are hypotheses on values.
-/

namespace BundledReading.Numeric.Binary64

/-! ## Representable counts -/

/-- The count is a multiple of the distance between representable counts near it. -/
def Representable (u : Nat) : Prop := spacing u ∣ u

theorem spacing_eq (q : Nat) : spacing q = 2 ^ (q.log2 - 52) := rfl

theorem spacing_pos (q : Nat) : 0 < spacing q := Nat.two_pow_pos _

theorem spacing_of_lt {q : Nat} (h : q < 2 ^ 53) : spacing q = 1 := by
  rcases Nat.eq_zero_or_pos q with rfl | hpos
  · rfl
  · have := (Nat.log2_lt hpos.ne').mpr h
    rw [spacing_eq, show q.log2 - 52 = 0 by omega, pow_zero]

theorem lt_mul_spacing (q : Nat) : q < 2 ^ 53 * spacing q := by
  rw [spacing_eq, ← pow_add]
  exact Nat.lt_of_lt_of_le Nat.lt_log2_self (Nat.pow_le_pow_right Nat.two_pos (by omega))

theorem mul_spacing_le {q : Nat} (h : 2 ^ 52 ≤ q) : 2 ^ 52 * spacing q ≤ q := by
  have hne : q ≠ 0 := by omega
  have := (Nat.le_log2 hne).mpr h
  rw [spacing_eq, ← pow_add, Nat.add_sub_cancel' this]
  exact Nat.log2_self_le hne

theorem spacing_dvd_spacing {q v : Nat} (h : q ≤ v) : spacing q ∣ spacing v := by
  rcases Nat.eq_zero_or_pos q with rfl | hpos
  · exact one_dvd _
  · have hlog : q.log2 ≤ v.log2 :=
      (Nat.le_log2 (by omega)).mpr (Nat.le_trans (Nat.log2_self_le hpos.ne') h)
    exact pow_dvd_pow 2 (by omega)

theorem representable_of_le {u : Nat} (h : u ≤ 2 ^ 53) : Representable u := by
  rcases Nat.lt_or_eq_of_le h with hlt | rfl
  · rw [Representable, spacing_of_lt hlt]
    exact one_dvd u
  · rw [Representable, spacing_eq, Nat.log2_two_pow]
    exact pow_dvd_pow 2 (by omega)

/-- A significand of 53 bits may be shifted. -/
theorem Representable.mul_two_pow {u : Nat} (h : u ≤ 2 ^ 53) (e : Nat) :
    Representable (u * 2 ^ e) := by
  rcases Nat.eq_zero_or_pos u with rfl | hpos
  · simp [Representable]
  have hne : u * 2 ^ e ≠ 0 := (Nat.mul_pos hpos (Nat.two_pow_pos e)).ne'
  obtain hlt | rfl := Nat.lt_or_eq_of_le h
  · have hlog : (u * 2 ^ e).log2 < 53 + e :=
      (Nat.log2_lt hne).mpr (by rw [pow_add]; exact Nat.mul_lt_mul_of_pos_right hlt (by positivity))
    exact Dvd.dvd.mul_left (pow_dvd_pow 2 (by omega)) u
  · rw [Representable, ← pow_add, spacing_eq, Nat.log2_two_pow]
    exact pow_dvd_pow 2 (by omega)

/-- No representable count lies between a count and the multiple of the spacing below it. -/
theorem Representable.le_div_mul {v q : Nat} (hv : Representable v) (h : v ≤ q) :
    v ≤ q / spacing q * spacing q := by
  by_cases hsmall : q < 2 ^ 53
  · rw [spacing_of_lt hsmall]
    simpa using h
  · by_contra hlt
    have hfloor : 2 ^ 52 ≤ q / spacing q :=
      (Nat.le_div_iff_mul_le (spacing_pos q)).mpr (mul_spacing_le (by omega))
    -- Then both have the same leading bit, and so the same spacing.
    have hle : 2 ^ q.log2 ≤ v := by
      have hlog : 52 ≤ q.log2 := (Nat.le_log2 (by omega)).mpr (by omega)
      calc 2 ^ q.log2 = 2 ^ 52 * spacing q := by
            rw [spacing_eq, ← pow_add, Nat.add_sub_cancel' hlog]
        _ ≤ q / spacing q * spacing q := Nat.mul_le_mul_right _ hfloor
        _ ≤ v := by omega
    have hsame : v.log2 = q.log2 := by
      have hpos : v ≠ 0 := (Nat.lt_of_lt_of_le (Nat.two_pow_pos _) hle).ne'
      apply Nat.le_antisymm
      · exact (Nat.le_log2 (by omega)).mpr (Nat.le_trans (Nat.log2_self_le hpos) h)
      · exact (Nat.le_log2 hpos).mpr hle
    have hdvd : spacing q ∣ v := by simpa only [Representable, spacing, hsame] using hv
    apply hlt
    calc v = v / spacing q * spacing q := (Nat.div_mul_cancel hdvd).symm
      _ ≤ q / spacing q * spacing q := Nat.mul_le_mul_right _ (Nat.div_le_div_right h)

/-! ## Rounding to the nearest -/

theorem div_le_nearestEven (num den : Nat) : num / den ≤ nearestEven num den := by
  simp only [nearestEven]
  split <;> try split
  all_goals omega

theorem nearestEven_le_of_le {num den v : Nat} (hden : 0 < den) (h : num ≤ v * den) :
    nearestEven num den ≤ v := by
  have hdiv := Nat.div_add_mod num den
  rcases Nat.lt_or_eq_of_le h with hlt | rfl
  · have hq : num / den < v := (Nat.div_lt_iff_lt_mul hden).mpr hlt
    simp only [nearestEven]
    split <;> try split
    all_goals omega
  · simp [nearestEven, hden]

/-- The nearest whole number is at most a half away. -/
theorem nearestEven_bounds {num den : Nat} (hden : 0 < den) :
    2 * num ≤ 2 * (nearestEven num den * den) + den ∧
      2 * (nearestEven num den * den) ≤ 2 * num + den := by
  have hdiv := Nat.div_add_mod' num den
  have hmod := Nat.mod_lt num hden
  simp only [nearestEven]
  split
  · omega
  · split
    · rw [Nat.add_mul]
      omega
    · rcases Nat.mod_two_eq_zero_or_one (num / den) with heven | hodd
      · rw [heven, Nat.add_zero]
        omega
      · rw [hodd, Nat.add_mul]
        omega

variable {num den v : Nat}

theorem spacing_dvd_roundQuotient (num den : Nat) :
    spacing (num / den) ∣ roundQuotient num den := Nat.dvd_mul_left _ _

/-- The count of steps that a quotient is rounded to is a significand. -/
theorem nearestEven_spacing_le (hden : 0 < den) :
    nearestEven num (den * spacing (num / den)) ≤ 2 ^ 53 := by
  apply nearestEven_le_of_le (Nat.mul_pos hden (spacing_pos _))
  have hlt : num < (num / den + 1) * den := Nat.lt_mul_of_div_lt (Nat.lt_succ_self _) hden
  calc num ≤ (num / den + 1) * den := hlt.le
    _ ≤ 2 ^ 53 * spacing (num / den) * den := Nat.mul_le_mul_right _ (lt_mul_spacing _)
    _ = 2 ^ 53 * (den * spacing (num / den)) := by ring

theorem representable_roundQuotient (hden : 0 < den) : Representable (roundQuotient num den) :=
  Representable.mul_two_pow (nearestEven_spacing_le hden) _

/-- Rounding passes no representable count on its way down. -/
theorem le_roundQuotient (hden : 0 < den) (hv : Representable v) (h : v * den ≤ num) :
    v ≤ roundQuotient num den := by
  have hle : v ≤ num / den := (Nat.le_div_iff_mul_le hden).mpr h
  calc v ≤ num / den / spacing (num / den) * spacing (num / den) := hv.le_div_mul hle
    _ = num / (den * spacing (num / den)) * spacing (num / den) := by rw [Nat.div_div_eq_div_mul]
    _ ≤ roundQuotient num den := Nat.mul_le_mul_right _ (div_le_nearestEven _ _)

/-- Rounding passes no representable count on its way up. -/
theorem roundQuotient_le (hden : 0 < den) (hv : Representable v) (h : num ≤ v * den) :
    roundQuotient num den ≤ v := by
  have hle : num / den ≤ v := by simpa [hden] using Nat.div_le_div_right (c := den) h
  obtain ⟨count, rfl⟩ := (spacing_dvd_spacing hle).trans hv
  rw [Nat.mul_comm (spacing _) count]
  apply Nat.mul_le_mul_right
  apply nearestEven_le_of_le (Nat.mul_pos hden (spacing_pos _))
  calc num ≤ spacing (num / den) * count * den := h
    _ = count * (den * spacing (num / den)) := by ring

/-- Representable counts are their own rounding. -/
theorem roundQuotient_eq (hv : Representable v) : roundQuotient v 1 = v :=
  Nat.le_antisymm (roundQuotient_le Nat.one_pos hv (by simp))
    (le_roundQuotient Nat.one_pos hv (by simp))

/-! ## Patterns and counts -/

theorem unitsOfMagnitude_of_lt {m : Nat} (h : m < 2 ^ 52) : unitsOfMagnitude m = m := if_pos h

theorem unitsOfMagnitude_add {m e : Nat} (h : m < 2 ^ 52) :
    unitsOfMagnitude ((e + 1) * 2 ^ 52 + m) = (2 ^ 52 + m) * 2 ^ e := by
  have hge : ¬(e + 1) * 2 ^ 52 + m < 2 ^ 52 := by omega
  have hmod : ((e + 1) * 2 ^ 52 + m) % 2 ^ 52 = m := by omega
  have hdiv : ((e + 1) * 2 ^ 52 + m) / 2 ^ 52 - 1 = e := by omega
  simp only [unitsOfMagnitude, Nat.pow_eq, if_neg hge, hmod, hdiv]

/-- Every pattern is a small count, or an exponent and a significand. -/
theorem magnitude_cases (m : Nat) :
    m < 2 ^ 52 ∨ ∃ e low, low < 2 ^ 52 ∧ m = (e + 1) * 2 ^ 52 + low := by
  by_cases h : m < 2 ^ 52
  · exact .inl h
  · exact .inr ⟨m / 2 ^ 52 - 1, m % 2 ^ 52, Nat.mod_lt _ (by omega), by omega⟩

theorem unitsOfMagnitude_strictMono : StrictMono unitsOfMagnitude := by
  apply strictMono_nat_of_lt_succ
  intro m
  rcases magnitude_cases m with hsmall | ⟨e, low, hlow, rfl⟩
  · rw [unitsOfMagnitude_of_lt hsmall]
    by_cases hnext : m + 1 < 2 ^ 52
    · rw [unitsOfMagnitude_of_lt hnext]
      omega
    · have := unitsOfMagnitude_add (m := 0) (e := 0) (by omega)
      rw [show m + 1 = (0 + 1) * 2 ^ 52 + 0 by omega, this]
      omega
  · rw [unitsOfMagnitude_add hlow]
    have hpos := Nat.two_pow_pos e
    by_cases hnext : low + 1 < 2 ^ 52
    · rw [Nat.add_assoc, unitsOfMagnitude_add hnext]
      exact Nat.mul_lt_mul_of_pos_right (by omega) hpos
    · have := unitsOfMagnitude_add (m := 0) (e := e + 1) (by omega)
      rw [show (e + 1) * 2 ^ 52 + low + 1 = (e + 1 + 1) * 2 ^ 52 + 0 by omega, this]
      calc (2 ^ 52 + low) * 2 ^ e < 2 ^ 53 * 2 ^ e :=
            Nat.mul_lt_mul_of_pos_right (by omega) hpos
        _ = (2 ^ 52 + 0) * 2 ^ (e + 1) := by ring

theorem representable_unitsOfMagnitude (m : Nat) : Representable (unitsOfMagnitude m) := by
  rcases magnitude_cases m with hsmall | ⟨e, low, hlow, rfl⟩
  · rw [unitsOfMagnitude_of_lt hsmall]
    exact representable_of_le (by omega)
  · rw [unitsOfMagnitude_add hlow]
    exact Representable.mul_two_pow (by omega) e

theorem representable_units (x : Binary64) : Representable x.units :=
  representable_unitsOfMagnitude x.magnitude

theorem magnitudeOfUnits_eq (u : Nat) :
    magnitudeOfUnits u = (u.log2 - 52) * 2 ^ 52 + u / spacing u := rfl

/-- Every representable count has a pattern. -/
theorem Representable.unitsOfMagnitude_eq {u : Nat} (h : Representable u) :
    unitsOfMagnitude (magnitudeOfUnits u) = u := by
  rw [magnitudeOfUnits_eq]
  by_cases hsmall : u < 2 ^ 52
  · have hlog : u.log2 - 52 = 0 := by
      rcases Nat.eq_zero_or_pos u with rfl | hpos
      · rfl
      · have := (Nat.log2_lt hpos.ne').mpr hsmall
        omega
    rw [hlog, spacing_of_lt (by omega), Nat.div_one, Nat.zero_mul, Nat.zero_add]
    exact unitsOfMagnitude_of_lt hsmall
  · have hlow : 2 ^ 52 ≤ u / spacing u :=
      (Nat.le_div_iff_mul_le (spacing_pos u)).mpr (mul_spacing_le (by omega))
    have hhigh : u / spacing u < 2 ^ 53 :=
      (Nat.div_lt_iff_lt_mul (spacing_pos u)).mpr (lt_mul_spacing u)
    rw [show (u.log2 - 52) * 2 ^ 52 + u / spacing u =
        (u.log2 - 52 + 1) * 2 ^ 52 + (u / spacing u - 2 ^ 52) by omega,
      unitsOfMagnitude_add (by omega), Nat.add_sub_cancel' hlow]
    exact Nat.div_mul_cancel h

/-- The first pattern that is no finite number stands for the first count that is too large. -/
theorem unitsOfMagnitude_infinity : unitsOfMagnitude infinityMagnitude = unitsLimit := by
  decide +kernel

theorem Representable.magnitudeOfUnits_lt {u : Nat} (h : Representable u) (hlt : u < unitsLimit) :
    magnitudeOfUnits u < infinityMagnitude := by
  rw [← unitsOfMagnitude_strictMono.lt_iff_lt, h.unitsOfMagnitude_eq, unitsOfMagnitude_infinity]
  exact hlt

/-! ## Finite numbers and their values -/

/-- Neither negative nor infinite, and a number. -/
structure IsFinite (x : Binary64) : Prop where
  nonneg : x.isNegative = false
  finite : x.magnitude < infinityMagnitude

/-- The value of a finite number without a sign. -/
def value (x : Binary64) : ℚ := x.units / unitsPerOne

theorem unitsPerOne_eq : ∃ e, unitsPerOne = 2 ^ e := ⟨1074, by decide +kernel⟩

theorem unitsPerOne_pos : 0 < unitsPerOne := by decide +kernel

theorem castUnitsPerOne_pos : (0 : ℚ) < unitsPerOne := Nat.cast_pos.mpr unitsPerOne_pos

variable {x y z : Binary64} {u n : Nat}

theorem IsFinite.isNaN_eq (h : x.IsFinite) : x.isNaN = false := by
  simpa [isNaN] using h.finite.le

theorem IsFinite.isInfinite_eq (h : x.IsFinite) : x.isInfinite = false := by
  simpa [isInfinite] using h.finite.ne

theorem value_nonneg (x : Binary64) : 0 ≤ x.value := by
  unfold value
  positivity

theorem value_pos_iff : 0 < x.value ↔ 0 < x.units := by
  rw [value, div_pos_iff_of_pos_right castUnitsPerOne_pos, Nat.cast_pos]

theorem value_le_iff : x.value ≤ y.value ↔ x.units ≤ y.units := by
  rw [value, value, div_le_div_iff_of_pos_right castUnitsPerOne_pos, Nat.cast_le]

theorem value_of_units_eq (h : x.units = n * unitsPerOne) : x.value = n := by
  rw [value, h, Nat.cast_mul, mul_div_cancel_right₀ _ castUnitsPerOne_pos.ne']

theorem ofMagnitude_spec {m : Nat} (h : m < infinityMagnitude) :
    (ofMagnitude false m).IsFinite ∧ (ofMagnitude false m).magnitude = m := by
  have hinfinity : infinityMagnitude = 2047 * 2 ^ 52 := rfl
  have hbits : (ofMagnitude false m).bits.toNat = m := by
    rw [ofMagnitude, if_neg (by simp), UInt64.toNat_ofNat']
    omega
  have hmagnitude : (ofMagnitude false m).magnitude = m := by
    rw [magnitude, hbits, Nat.pow_eq]
    omega
  refine ⟨⟨?_, hmagnitude.trans_lt h⟩, hmagnitude⟩
  rw [isNegative, hbits, decide_eq_false_iff_not, Nat.pow_eq]
  omega

theorem zero_spec : (zero false).IsFinite ∧ (zero false).value = 0 := by
  have hspec := ofMagnitude_spec (show 0 < infinityMagnitude by decide)
  refine ⟨hspec.1, ?_⟩
  rw [value, units, zero, hspec.2, unitsOfMagnitude_of_lt (by omega), Nat.cast_zero, zero_div]

/-- A representable count below the limit is the count of its number. -/
theorem ofUnits_spec (h : Representable u) (hlt : u < unitsLimit) :
    (ofUnits false u).IsFinite ∧ (ofUnits false u).units = u := by
  have hspec := ofMagnitude_spec (h.magnitudeOfUnits_lt hlt)
  rw [ofUnits, if_pos hlt]
  refine ⟨hspec.1, ?_⟩
  rw [units, hspec.2, h.unitsOfMagnitude_eq]

theorem units_lt_of_lt (h : x.magnitude < infinityMagnitude) : x.units < unitsLimit := by
  rw [← unitsOfMagnitude_infinity]
  exact unitsOfMagnitude_strictMono h

theorem IsFinite.units_lt (h : x.IsFinite) : x.units < unitsLimit := units_lt_of_lt h.finite

theorem le_iff (hx : x.IsFinite) (hy : y.IsFinite) : x.le y = true ↔ x.value ≤ y.value := by
  have hmagnitude : x.magnitude ≤ y.magnitude ↔ x.units ≤ y.units :=
    unitsOfMagnitude_strictMono.le_iff_le.symm
  simp [le, valueKey, hx.isNaN_eq, hy.isNaN_eq, hx.nonneg, hy.nonneg, value_le_iff, hmagnitude]

theorem toNatSaturating_eq (hx : x.IsFinite) (max : Nat) :
    x.toNatSaturating max = min ⌊x.value⌋₊ max := by
  rw [toNatSaturating, hx.isNaN_eq, hx.nonneg, hx.isInfinite_eq, value, Nat.floor_div_eq_div]
  rfl

/-- Whole numbers that fit a significand are representable. -/
theorem representable_mul_unitsPerOne (h : n ≤ 2 ^ 53) : Representable (n * unitsPerOne) := by
  obtain ⟨e, he⟩ := unitsPerOne_eq
  rw [he]
  exact Representable.mul_two_pow h e

theorem representable_two_pow_mul_unitsPerOne (k : Nat) : Representable (2 ^ k * unitsPerOne) := by
  obtain ⟨e, he⟩ := unitsPerOne_eq
  rw [he, ← pow_add, ← one_mul (2 ^ _)]
  exact Representable.mul_two_pow (by omega) _

/-- So large a number has no fraction. -/
theorem Representable.unitsPerOne_dvd (h : Representable u) (hle : 2 ^ 53 * unitsPerOne ≤ u) :
    unitsPerOne ∣ u := by
  obtain ⟨e, he⟩ := unitsPerOne_eq
  rw [he, ← pow_add] at hle
  have hne : u ≠ 0 := (Nat.lt_of_lt_of_le (Nat.two_pow_pos _) hle).ne'
  have hlog := (Nat.le_log2 hne).mpr hle
  rw [he]
  exact (pow_dvd_pow 2 (by omega)).trans h

/-- Leaving off the fraction leaves a representable count. -/
theorem Representable.div_mul_unitsPerOne (h : Representable u) :
    Representable (u / unitsPerOne * unitsPerOne) := by
  by_cases hsmall : u / unitsPerOne ≤ 2 ^ 53
  · exact representable_mul_unitsPerOne hsmall
  · have hle : 2 ^ 53 * unitsPerOne ≤ u := by
      rw [← Nat.le_div_iff_mul_le unitsPerOne_pos]
      omega
    rw [Nat.div_mul_cancel (h.unitsPerOne_dvd hle)]
    exact h

/-- The floor of a number is its value without the fraction. -/
theorem floor_spec (hx : x.IsFinite) : x.floor.IsFinite ∧ x.floor.value = ⌊x.value⌋₊ := by
  have hlt : x.units / unitsPerOne * unitsPerOne < unitsLimit :=
    Nat.lt_of_le_of_lt (Nat.div_mul_le_self _ _) hx.units_lt
  have hspec := ofUnits_spec x.representable_units.div_mul_unitsPerOne hlt
  have hfloor : x.floor = ofUnits false (x.units / unitsPerOne * unitsPerOne) := by
    simp [floor, hx.isNaN_eq, hx.isInfinite_eq, hx.nonneg]
  rw [hfloor]
  refine ⟨hspec.1, ?_⟩
  rw [value_of_units_eq hspec.2, value, Nat.floor_div_eq_div]

/-- Rounding to a whole number leaves a representable count that is not too large. -/
theorem Representable.round_mul_unitsPerOne (h : Representable u) (hlt : u < unitsLimit) :
    Representable ((2 * u + unitsPerOne) / (2 * unitsPerOne) * unitsPerOne) ∧
      (2 * u + unitsPerOne) / (2 * unitsPerOne) * unitsPerOne < unitsLimit := by
  by_cases hsmall : u < 2 ^ 53 * unitsPerOne
  · have hlimit : 2 ^ 53 * unitsPerOne < unitsLimit := by decide +kernel
    have hwhole : (2 * u + unitsPerOne) / (2 * unitsPerOne) ≤ 2 ^ 53 := by
      apply Nat.le_of_lt_succ
      rw [Nat.div_lt_iff_lt_mul (Nat.mul_pos Nat.two_pos unitsPerOne_pos)]
      generalize unitsPerOne = one at hsmall
      omega
    exact ⟨representable_mul_unitsPerOne hwhole, (Nat.mul_le_mul_right _ hwhole).trans_lt hlimit⟩
  · -- So large a number is whole.
    obtain ⟨n, hn⟩ := h.unitsPerOne_dvd (not_lt.mp hsmall)
    rw [hn] at h hlt ⊢
    have hsum : 2 * (unitsPerOne * n) + unitsPerOne = unitsPerOne * (2 * n + 1) := by ring
    have hwhole : (2 * n + 1) / 2 = n := by omega
    rw [hsum, Nat.mul_comm 2 unitsPerOne, Nat.mul_div_mul_left _ _ unitsPerOne_pos, hwhole,
      Nat.mul_comm n]
    exact ⟨h, hlt⟩

/-- The whole number nearest to a number is the floor of one half more. -/
theorem round_spec (hx : x.IsFinite) :
    x.round.IsFinite ∧ x.round.value = ⌊x.value + 1 / 2⌋₊ := by
  have hfits := x.representable_units.round_mul_unitsPerOne hx.units_lt
  have hspec := ofUnits_spec hfits.1 hfits.2
  have hround : x.round =
      ofUnits false ((2 * x.units + unitsPerOne) / (2 * unitsPerOne) * unitsPerOne) := by
    simp [round, hx.isNaN_eq, hx.isInfinite_eq, hx.nonneg]
  have hsum : x.value + 1 / 2 = (2 * x.units + unitsPerOne : Nat) / (2 * unitsPerOne : Nat) := by
    have hcast := castUnitsPerOne_pos.ne'
    rw [value]
    push_cast
    field_simp
  rw [hround, hsum, Nat.floor_div_eq_div]
  exact ⟨hspec.1, value_of_units_eq hspec.2⟩

/-! ## The error of a rounding -/

/-- At least `low` and at most `high` times another number. -/
structure Between (low high a b : ℚ) : Prop where
  lower : low * b ≤ a
  upper : a ≤ high * b

/-- The largest part of a result that rounding to 53 bits adds or takes away. -/
def roundoff : ℚ := 1 / 2 ^ 53

section Between

variable {low high low' high' a b c d : ℚ}

theorem Between.trans (h : Between low high a b) (h' : Between low' high' b c) (hlow : 0 ≤ low)
    (hhigh : 0 ≤ high) : Between (low * low') (high * high') a c where
  lower := by
    calc low * low' * c = low * (low' * c) := by ring
      _ ≤ low * b := by gcongr; exact h'.lower
      _ ≤ a := h.lower
  upper := by
    calc a ≤ high * b := h.upper
      _ ≤ high * (high' * c) := by gcongr; exact h'.upper
      _ = high * high' * c := by ring

theorem Between.weaken (h : Between low high a b) (hb : 0 ≤ b) (hlow : low' ≤ low)
    (hhigh : high ≤ high') : Between low' high' a b where
  lower := (mul_le_mul_of_nonneg_right hlow hb).trans h.lower
  upper := h.upper.trans (mul_le_mul_of_nonneg_right hhigh hb)

/-- Quotients of numbers that are close to each other are close. -/
theorem Between.div (h : Between low high a b) (h' : Between low' high' c d) (hb : 0 ≤ b)
    (hd : 0 < d) (hlow : 0 ≤ low) (hlow' : 0 < low') :
    Between (low / high') (high / low') (a / c) (b / d) where
  lower := by
    have hc : 0 < c := lt_of_lt_of_le (by positivity) h'.lower
    calc low / high' * (b / d) = low * b / (high' * d) := by ring
      _ ≤ a / c := div_le_div₀ (le_trans (by positivity) h.lower) h.lower hc h'.upper
  upper := by
    calc a / c ≤ high * b / (low' * d) :=
          div_le_div₀ (le_trans (by positivity) (h.lower.trans h.upper)) h.upper (by positivity)
            h'.lower
      _ = high / low' * (b / d) := by ring

end Between

/-- Where a quotient has 53 significant bits, rounding is off by at most the roundoff. -/
theorem between_roundQuotient (hden : 0 < den) (hnum : 2 ^ 52 * den ≤ num) :
    Between (1 - roundoff) (1 + roundoff) (roundQuotient num den) (num / den) := by
  have hstep : 2 ^ 52 * (den * spacing (num / den)) ≤ num := by
    have hle := mul_spacing_le ((Nat.le_div_iff_mul_le hden).mpr hnum)
    calc 2 ^ 52 * (den * spacing (num / den)) = 2 ^ 52 * spacing (num / den) * den := by ring
      _ ≤ num / den * den := Nat.mul_le_mul_right _ hle
      _ ≤ num := Nat.div_mul_le_self _ _
  have hbounds := @nearestEven_bounds num _ (Nat.mul_pos hden (spacing_pos (num / den)))
  have hresult : nearestEven num (den * spacing (num / den)) * (den * spacing (num / den)) =
      roundQuotient num den * den := by
    rw [roundQuotient]
    ring
  rw [hresult] at hbounds
  have hlower : (2 ^ 53 : ℚ) * num ≤ 2 ^ 53 * (roundQuotient num den * den) + num := by
    exact_mod_cast show 2 ^ 53 * num ≤ 2 ^ 53 * (roundQuotient num den * den) + num by omega
  have hupper : (2 ^ 53 : ℚ) * (roundQuotient num den * den) ≤ 2 ^ 53 * num + num := by
    exact_mod_cast show 2 ^ 53 * (roundQuotient num den * den) ≤ 2 ^ 53 * num + num by omega
  have hcast : (0 : ℚ) < den := Nat.cast_pos.mpr hden
  unfold roundoff
  constructor
  · rw [← mul_div_assoc, div_le_iff₀ hcast]
    linarith
  · rw [← mul_div_assoc, le_div_iff₀ hcast]
    linarith

theorem Between.value {low high r : ℚ} (h : Between low high x.units (r * unitsPerOne)) :
    Between low high x.value r where
  lower := by
    rw [Binary64.value, le_div_iff₀ castUnitsPerOne_pos, mul_assoc]
    exact h.lower
  upper := by
    rw [Binary64.value, div_le_iff₀ castUnitsPerOne_pos, mul_assoc]
    exact h.upper

/-- Whole numbers of 64 bits become finite numbers. -/
theorem ofNat_spec (h : n ≤ 2 ^ 64) :
    (ofNat n).IsFinite ∧ (ofNat n).units = roundQuotient (n * unitsPerOne) 1 := by
  have hnat : ofNat n = ofUnits false (roundQuotient (n * unitsPerOne) 1) := rfl
  have hle : roundQuotient (n * unitsPerOne) 1 ≤ 2 ^ 64 * unitsPerOne := by
    apply roundQuotient_le Nat.one_pos (representable_two_pow_mul_unitsPerOne 64)
    rw [Nat.mul_one]
    exact Nat.mul_le_mul_right _ h
  have hlimit : 2 ^ 64 * unitsPerOne < unitsLimit := by decide +kernel
  rw [hnat]
  exact ofUnits_spec (representable_roundQuotient Nat.one_pos) (hle.trans_lt hlimit)

theorem value_ofNat (h : n ≤ 2 ^ 53) : (ofNat n).value = n := by
  apply value_of_units_eq
  rw [(ofNat_spec (h.trans (by omega))).2, roundQuotient_eq (representable_mul_unitsPerOne h)]

/-- Rounding a whole number gives a whole number. -/
theorem exists_value_ofNat_eq (h : n ≤ 2 ^ 64) : ∃ whole : Nat, (ofNat n).value = whole := by
  by_cases hsmall : n ≤ 2 ^ 53
  · exact ⟨n, value_ofNat hsmall⟩
  · obtain ⟨e, he⟩ := unitsPerOne_eq
    have hle : 2 ^ (53 + e) ≤ n * unitsPerOne / 1 := by
      rw [pow_add, ← he, Nat.div_one]
      exact Nat.mul_le_mul_right _ (by omega)
    have hne : n * unitsPerOne / 1 ≠ 0 := (Nat.lt_of_lt_of_le (Nat.two_pow_pos _) hle).ne'
    have hlog := (Nat.le_log2 hne).mpr hle
    have hdvd : unitsPerOne ∣ spacing (n * unitsPerOne / 1) := by
      rw [he] at hlog ⊢
      exact pow_dvd_pow 2 (by omega)
    obtain ⟨whole, hwhole⟩ := hdvd.trans (spacing_dvd_roundQuotient (n * unitsPerOne) 1)
    refine ⟨whole, value_of_units_eq ?_⟩
    rw [(ofNat_spec h).2, hwhole, Nat.mul_comm]

theorem between_ofNat (hpos : 0 < n) (h : n ≤ 2 ^ 64) :
    Between (1 - roundoff) (1 + roundoff) (ofNat n).value n := by
  have hlarge : 2 ^ 52 ≤ unitsPerOne := by decide +kernel
  have hnum : 2 ^ 52 * 1 ≤ n * unitsPerOne := by
    rw [Nat.mul_comm]
    exact Nat.mul_le_mul hpos hlarge
  have herror := between_roundQuotient Nat.one_pos hnum
  rw [← (ofNat_spec h).2, Nat.cast_mul, Nat.cast_one, div_one] at herror
  exact herror.value

theorem value_ofNat_bounds (hpos : 0 < n) (h : n ≤ 2 ^ 64) :
    1 / 2 ≤ (ofNat n).value ∧ (ofNat n).value ≤ 2 ^ 65 := by
  have hvalue := between_ofNat hpos h
  have hone : (1 : ℚ) ≤ n := Nat.one_le_cast.mpr hpos
  have hmost : (n : ℚ) ≤ 2 ^ 64 := by exact_mod_cast h
  constructor
  · calc (1 / 2 : ℚ) ≤ (1 - roundoff) * 1 := by norm_num [roundoff]
      _ ≤ (1 - roundoff) * n := by gcongr; norm_num [roundoff]
      _ ≤ (ofNat n).value := hvalue.lower
  · calc (ofNat n).value ≤ (1 + roundoff) * n := hvalue.upper
      _ ≤ (1 + roundoff) * 2 ^ 64 := by gcongr; norm_num [roundoff]
      _ ≤ 2 ^ 65 := by norm_num [roundoff]

/-- Rounding a whole number passes no other number on its way up. -/
theorem value_ofNat_le (h : n ≤ 2 ^ 64) (hz : (n : ℚ) ≤ z.value) : (ofNat n).value ≤ z.value := by
  rw [value_le_iff, (ofNat_spec h).2]
  apply roundQuotient_le Nat.one_pos z.representable_units
  rw [value, le_div_iff₀ castUnitsPerOne_pos] at hz
  rw [Nat.mul_one]
  exact_mod_cast hz

/-- A quotient that is not too large is rounded to a finite number. -/
theorem div_spec (hx : x.IsFinite) (hy : y.IsFinite) (hpos : 0 < y.value)
    (hhigh : x.value ≤ 2 ^ 200 * y.value) :
    (x / y).IsFinite ∧ (x / y).units = roundQuotient (x.units * unitsPerOne) y.units := by
  have hunits : 0 < y.units := value_pos_iff.mp hpos
  have hle : roundQuotient (x.units * unitsPerOne) y.units ≤ 2 ^ 200 * unitsPerOne := by
    apply roundQuotient_le hunits (representable_two_pow_mul_unitsPerOne 200)
    rw [value, value, ← mul_div_assoc, div_le_div_iff_of_pos_right castUnitsPerOne_pos] at hhigh
    have hbound : x.units ≤ 2 ^ 200 * y.units := by exact_mod_cast hhigh
    calc x.units * unitsPerOne ≤ 2 ^ 200 * y.units * unitsPerOne := Nat.mul_le_mul_right _ hbound
      _ = 2 ^ 200 * unitsPerOne * y.units := by ring
  have hlimit : 2 ^ 200 * unitsPerOne < unitsLimit := by decide +kernel
  have hdiv : x / y = ofUnits false (roundQuotient (x.units * unitsPerOne) y.units) := by
    change div x y = _
    simp [div, hx.isNaN_eq, hy.isNaN_eq, hx.isInfinite_eq, hy.isInfinite_eq, hunits.ne',
      hx.nonneg, hy.nonneg]
  rw [hdiv]
  exact ofUnits_spec (representable_roundQuotient hunits) (hle.trans_lt hlimit)

theorem between_div (hx : x.IsFinite) (hy : y.IsFinite) (hpos : 0 < y.value)
    (hlow : y.value ≤ 2 ^ 200 * x.value) (hhigh : x.value ≤ 2 ^ 200 * y.value) :
    Between (1 - roundoff) (1 + roundoff) (x / y).value (x.value / y.value) := by
  have hunits : 0 < y.units := value_pos_iff.mp hpos
  have hlarge : 2 ^ 52 * 2 ^ 200 ≤ unitsPerOne := by decide +kernel
  have hnum : 2 ^ 52 * y.units ≤ x.units * unitsPerOne := by
    rw [value, value, ← mul_div_assoc, div_le_div_iff_of_pos_right castUnitsPerOne_pos] at hlow
    have hbound : y.units ≤ 2 ^ 200 * x.units := by exact_mod_cast hlow
    calc 2 ^ 52 * y.units ≤ 2 ^ 52 * (2 ^ 200 * x.units) := Nat.mul_le_mul_left _ hbound
      _ = x.units * (2 ^ 52 * 2 ^ 200) := by ring
      _ ≤ x.units * unitsPerOne := Nat.mul_le_mul_left _ hlarge
  have herror := between_roundQuotient hunits hnum
  have hquotient : x.value / y.value * unitsPerOne = x.units * unitsPerOne / y.units := by
    rw [value, value, div_div_div_cancel_right₀ castUnitsPerOne_pos.ne', div_mul_eq_mul_div]
  rw [← (div_spec hx hy hpos hhigh).2, Nat.cast_mul, ← hquotient] at herror
  exact herror.value

/-- Rounding a quotient passes no other number on its way down. -/
theorem le_value_div (hx : x.IsFinite) (hy : y.IsFinite) (hpos : 0 < y.value)
    (hhigh : x.value ≤ 2 ^ 200 * y.value) (hz : z.value * y.value ≤ x.value) :
    z.value ≤ (x / y).value := by
  rw [value_le_iff, (div_spec hx hy hpos hhigh).2]
  apply le_roundQuotient (value_pos_iff.mp hpos) z.representable_units
  have hcast := castUnitsPerOne_pos
  rw [value, value, value, div_mul_div_comm, div_le_div_iff₀ (by positivity) hcast,
    ← mul_assoc] at hz
  exact_mod_cast le_of_mul_le_mul_right hz hcast

end BundledReading.Numeric.Binary64

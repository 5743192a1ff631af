import BundledReading.Numeric.Reading
import BundledReading.Proofs.QuotientOrder
import Mathlib.Algebra.Order.Field.Power

/-!
# Nearest numbers

The number that a quotient or a decimal is rounded to is told by values alone (`IsNearest`): no
pattern up to that of infinity has a value nearer to it, where infinity counts as the first power of
two beyond the finite numbers, and of two equally near patterns the even one is taken. There is only
one such number.

## Implementation notes

A rounded quotient is compared with the two multiples of the spacing next to it: any other
representable count lies beyond one of them.
-/

namespace BundledReading.Numeric.Binary64

/-- The value of a pattern without its sign. That of infinity has the first power of two which is
too large for a finite number. -/
def patternValue (m : Nat) : ℚ := unitsOfMagnitude m / unitsPerOne

/-- The number with a sign whose absolute value is nearest to `q`, a tie going to the even pattern.
-/
structure IsNearest (x : Binary64) (negative : Bool) (q : ℚ) : Prop where
  sign : x.isNegative = negative
  bounded : x.magnitude ≤ infinityMagnitude
  nearest : ∀ m ≤ infinityMagnitude, |patternValue x.magnitude - q| ≤ |patternValue m - q|
  tie : ∀ m ≤ infinityMagnitude, m ≠ x.magnitude →
    |patternValue m - q| = |patternValue x.magnitude - q| → Even x.magnitude

/-! ## There is only one -/

theorem patternValue_strictMono : StrictMono patternValue := by
  intro m n h
  rw [patternValue, patternValue, div_lt_div_iff_of_pos_right castUnitsPerOne_pos, Nat.cast_lt]
  exact unitsOfMagnitude_strictMono h

/-- Between two points that are equally far away from a third there is a nearer one. -/
theorem abs_sub_lt_of_between {a b c q : ℚ} (hab : a < b) (hbc : b < c)
    (h : |a - q| = |c - q|) : |b - q| < |a - q| := by
  have hmid : q - a = c - q := by
    rcases abs_eq_abs.mp h with heq | heq <;> linarith
  rw [abs_sub_comm a, abs_of_pos (show 0 < q - a by linarith), abs_lt]
  constructor <;> linarith

namespace IsNearest

variable {x y : Binary64} {negative : Bool} {q : ℚ}

theorem magnitude_le (hx : x.IsNearest negative q) (hy : y.IsNearest negative q) :
    y.magnitude ≤ x.magnitude := by
  by_contra hlt
  rw [not_le] at hlt
  have hsame : |patternValue x.magnitude - q| = |patternValue y.magnitude - q| :=
    le_antisymm (hx.nearest _ hy.bounded) (hy.nearest _ hx.bounded)
  -- Both patterns are even, so one lies between them, and it is nearer.
  obtain ⟨i, hi⟩ := hx.tie _ hy.bounded hlt.ne' hsame.symm
  obtain ⟨j, hj⟩ := hy.tie _ hx.bounded hlt.ne hsame
  have hnext : x.magnitude + 1 < y.magnitude := by omega
  have hnear : |patternValue (x.magnitude + 1) - q| < |patternValue x.magnitude - q| :=
    abs_sub_lt_of_between (patternValue_strictMono (Nat.lt_succ_self _))
      (patternValue_strictMono hnext) hsame
  exact absurd (hx.nearest _ (hnext.le.trans hy.bounded)) (not_le.mpr hnear)

/-- Only one number is the nearest. -/
protected theorem unique (hx : x.IsNearest negative q) (hy : y.IsNearest negative q) : x = y := by
  have hmagnitude : x.magnitude = y.magnitude :=
    le_antisymm (hy.magnitude_le hx) (hx.magnitude_le hy)
  apply eq_of_totalKey_eq
  rw [totalKey, totalKey, hx.sign, hy.sign, hmagnitude]

end IsNearest

/-! ## Rounding to whole numbers -/

/-- Where a quotient lies from its whole part on, and which whole number is the nearest one. -/
inductive Nearest (whole nearest : Nat) (q : ℚ) : Prop
  | lower (hlow : whole ≤ q) (hhigh : q < whole + 1 / 2) (h : nearest = whole)
  | upper (hlow : whole + 1 / 2 < q) (hhigh : q < whole + 1) (h : nearest = whole + 1)
  | tie (hmid : q = whole + 1 / 2) (h : nearest = whole ∨ nearest = whole + 1) (heven : Even nearest)

theorem nearest_nearestEven (num : Nat) {den : Nat} (hden : 0 < den) :
    Nearest (num / den) (nearestEven num den) (num / den) := by
  have hcast : (0 : ℚ) < den := Nat.cast_pos.mpr hden
  have hnum : (num : ℚ) = (num / den : Nat) * den + (num % den : Nat) := by
    exact_mod_cast (Nat.div_add_mod' num den).symm
  have hlt : ((num % den : Nat) : ℚ) < den := by exact_mod_cast Nat.mod_lt num hden
  have hnonneg : (0 : ℚ) ≤ (num % den : Nat) := Nat.cast_nonneg _
  rcases lt_trichotomy (2 * (num % den)) den with hless | hequal | hmore
  · have hhalf : 2 * ((num % den : Nat) : ℚ) < den := by exact_mod_cast hless
    refine .lower ?_ ?_ (by simp only [nearestEven, if_pos hless])
    · rw [le_div_iff₀ hcast]
      linarith
    · rw [div_lt_iff₀ hcast]
      linarith
  · have hhalf : 2 * ((num % den : Nat) : ℚ) = den := by exact_mod_cast hequal
    have hnearest : nearestEven num den = num / den + num / den % 2 := by
      simp only [nearestEven, if_neg hequal.not_lt, if_neg hequal.not_gt]
    have hparity := Nat.mod_two_eq_zero_or_one (num / den)
    refine .tie ?_ (by omega) (by rw [Nat.even_iff]; omega)
    rw [div_eq_iff hcast.ne']
    linarith
  · have hhalf : (den : ℚ) < 2 * (num % den : Nat) := by exact_mod_cast hmore
    refine .upper ?_ ?_ (by simp only [nearestEven, if_neg hmore.not_gt, if_pos hmore])
    · rw [lt_div_iff₀ hcast]
      linarith
    · rw [div_lt_iff₀ hcast]
      linarith

section Nearest

variable {whole nearest : Nat} {q w : ℚ}

/-- The nearest whole number is at most as far away as either neighbour. -/
theorem Nearest.distance (h : Nearest whole nearest q) :
    |nearest - q| ≤ q - whole ∧ |nearest - q| ≤ whole + 1 - q := by
  rcases h with ⟨hlow, hhigh, rfl⟩ | ⟨hlow, hhigh, rfl⟩ | ⟨hmid, rfl | rfl, -⟩
  all_goals
    push_cast
    constructor <;> rw [abs_le] <;> constructor <;> linarith

/-- Nothing is nearer that does not lie between the neighbours. -/
theorem Nearest.le (h : Nearest whole nearest q) (hw : w ≤ whole ∨ (whole : ℚ) + 1 ≤ w) :
    |nearest - q| ≤ |w - q| := by
  obtain ⟨hlower, hupper⟩ := h.distance
  rcases hw with hw | hw
  · calc |nearest - q| ≤ q - whole := hlower
      _ ≤ -(w - q) := by linarith
      _ ≤ |w - q| := neg_le_abs _
  · calc |nearest - q| ≤ whole + 1 - q := hupper
      _ ≤ w - q := by linarith
      _ ≤ |w - q| := le_abs_self _

/-- Something else is as near only if the nearest whole number is even. -/
theorem Nearest.even (h : Nearest whole nearest q) (hw : w ≤ whole ∨ (whole : ℚ) + 1 ≤ w)
    (hne : w ≠ nearest) (heq : |w - q| = |nearest - q|) : Even nearest := by
  rcases h with ⟨hlow, hhigh, rfl⟩ | ⟨hlow, hhigh, rfl⟩ | ⟨-, -, heven⟩
  · exfalso
    rcases abs_eq_abs.mp heq with h | h
    · exact hne (by linarith)
    · rcases hw with hw | hw
      · exact hne (by linarith)
      · linarith
  · exfalso
    push_cast at hne heq
    rcases abs_eq_abs.mp heq with h | h
    · exact hne (by linarith)
    · rcases hw with hw | hw
      · linarith
      · exact hne (by linarith)
  · exact heven

/-- Counts of steps are compared as the steps are. -/
theorem Nearest.scale {step v : Nat} (hstep : 0 < step) (h : Nearest whole nearest (q / step))
    (hv : v ≤ whole * step ∨ (whole + 1) * step ≤ v) :
    |((nearest * step : Nat) : ℚ) - q| ≤ |(v : ℚ) - q| ∧
      (v ≠ nearest * step → |(v : ℚ) - q| = |((nearest * step : Nat) : ℚ) - q| →
        Even nearest) := by
  have hcast : (0 : ℚ) < step := Nat.cast_pos.mpr hstep
  have hscale (a : ℚ) : |a * step - q| = |a - q / step| * step := by
    rw [← abs_of_pos hcast, ← abs_mul, abs_of_pos hcast, sub_mul, div_mul_cancel₀ _ hcast.ne']
  have hcount : (v : ℚ) = v / step * step := (div_mul_cancel₀ _ hcast.ne').symm
  have hw : (v / step : ℚ) ≤ whole ∨ (whole : ℚ) + 1 ≤ v / step := by
    rw [div_le_iff₀ hcast, le_div_iff₀ hcast]
    exact_mod_cast hv
  rw [hcount, Nat.cast_mul, hscale, hscale]
  refine ⟨mul_le_mul_of_nonneg_right (h.le hw) hcast.le, ?_⟩
  intro hne heq
  apply h.even hw _ (mul_right_cancel₀ hcast.ne' heq)
  intro hsame
  rw [div_eq_iff hcast.ne'] at hsame
  exact hne (by exact_mod_cast hsame)

end Nearest

/-! ## Rounding to patterns -/

section Quotient

variable {num den v k : Nat}

/-- No representable count lies within the step of the spacing in which a quotient lies. -/
theorem Representable.le_or_le (hv : Representable v) (num den : Nat) :
    v ≤ num / (den * spacing (num / den)) * spacing (num / den) ∨
      (num / (den * spacing (num / den)) + 1) * spacing (num / den) ≤ v := by
  rw [← Nat.div_div_eq_div_mul]
  rcases Nat.lt_or_ge (num / den) v with hlt | hle
  · right
    obtain ⟨count, rfl⟩ := (spacing_dvd_spacing hlt.le).trans hv
    rw [Nat.mul_comm (spacing _) count]
    apply Nat.mul_le_mul_right
    rw [Nat.succ_le_iff, Nat.div_lt_iff_lt_mul (spacing_pos _), Nat.mul_comm]
    exact hlt
  · exact .inl (hv.le_div_mul hle)

/-- An even count of steps has an even pattern. -/
theorem even_magnitudeOfUnits (hk : k ≤ 2 ^ 53) (heven : Even k) (e : Nat) :
    Even (magnitudeOfUnits (k * 2 ^ e)) := by
  rw [magnitudeOfUnits_eq]
  apply Even.add
  · exact Even.mul_left (Nat.even_pow.mpr ⟨even_two, by omega⟩) _
  obtain ⟨shift, hshift⟩ : ∃ shift, spacing (k * 2 ^ e) = 2 ^ shift := ⟨_, rfl⟩
  by_cases hle : shift ≤ e
  · have hdiv : k * 2 ^ e / 2 ^ shift = k * 2 ^ (e - shift) := by
      rw [Nat.mul_div_assoc _ (pow_dvd_pow 2 hle), Nat.pow_div hle Nat.two_pos]
    rw [hshift, hdiv]
    exact heven.mul_right _
  · -- Only the first power of two beyond a significand is shifted further than its factor.
    have hlarge : 2 ^ 53 ≤ k * 2 ^ e := by
      by_contra hsmall
      rw [spacing_of_lt (by omega)] at hshift
      have := Nat.one_lt_two_pow (n := shift) (by omega)
      omega
    have hspacing := mul_spacing_le (q := k * 2 ^ e) (by omega)
    have hstep : 2 ^ (e + 1) ≤ 2 ^ shift := Nat.pow_le_pow_right Nat.two_pos (by omega)
    have hk' : 2 ^ 53 * 2 ^ e ≤ k * 2 ^ e := by
      calc 2 ^ 53 * 2 ^ e = 2 ^ 52 * 2 ^ (e + 1) := by ring
        _ ≤ 2 ^ 52 * 2 ^ shift := Nat.mul_le_mul_left _ hstep
        _ ≤ k * 2 ^ e := hshift ▸ hspacing
    obtain rfl : k = 2 ^ 53 := le_antisymm hk (Nat.le_of_mul_le_mul_right hk' (by positivity))
    rw [← pow_add, spacing_eq, Nat.log2_two_pow, Nat.pow_div (by omega) Nat.two_pos]
    exact Nat.even_pow.mpr ⟨even_two, by omega⟩

/-- No representable count is nearer to a quotient than what it is rounded to, and as near only if
that has an even pattern. -/
theorem roundQuotient_nearest (num : Nat) (hden : 0 < den) (hv : Representable v) :
    |(roundQuotient num den : ℚ) - num / den| ≤ |(v : ℚ) - num / den| ∧
      (v ≠ roundQuotient num den →
        |(v : ℚ) - num / den| = |(roundQuotient num den : ℚ) - num / den| →
        Even (magnitudeOfUnits (roundQuotient num den))) := by
  have hnearest := nearest_nearestEven num (Nat.mul_pos hden (spacing_pos (num / den)))
  rw [Nat.cast_mul, ← div_div] at hnearest
  obtain ⟨hle, heven⟩ := hnearest.scale (spacing_pos (num / den)) (hv.le_or_le num den)
  exact ⟨hle, fun hne heq => even_magnitudeOfUnits (nearestEven_spacing_le hden) (heven hne heq) _⟩

theorem ofMagnitude_facts {m : Nat} (negative : Bool) (h : m < 2 ^ 63) :
    (ofMagnitude negative m).isNegative = negative ∧ (ofMagnitude negative m).magnitude = m := by
  have hbits : (ofMagnitude negative m).bits.toNat = if negative then 2 ^ 63 + m else m := by
    rw [ofMagnitude, UInt64.toNat_ofNat', Nat.pow_eq]
    split <;> omega
  rw [isNegative, magnitude, hbits, Nat.pow_eq]
  cases negative with
  | false => exact ⟨by simpa using h, by simpa using Nat.mod_eq_of_lt h⟩
  | true => exact ⟨by simp, by simpa using Nat.mod_eq_of_lt h⟩

theorem infinityMagnitude_lt : infinityMagnitude < 2 ^ 63 := by decide +kernel

theorem abs_patternValue_sub (m num den : Nat) :
    |patternValue m - num / den| =
      |(unitsOfMagnitude m : ℚ) - (num * unitsPerOne : Nat) / den| / unitsPerOne := by
  have hcast := castUnitsPerOne_pos
  have hunits : (num / den : ℚ) = (num * unitsPerOne : Nat) / den / unitsPerOne := by
    rw [Nat.cast_mul, div_right_comm, mul_div_cancel_right₀ _ hcast.ne']
  rw [patternValue, hunits, ← sub_div, abs_div, abs_of_pos hcast]

theorem unitsOfMagnitude_le {m : Nat} (h : m ≤ infinityMagnitude) :
    unitsOfMagnitude m ≤ unitsLimit := by
  rw [← unitsOfMagnitude_infinity]
  exact unitsOfMagnitude_strictMono.monotone h

/-- The number of a rounded quotient has the units that it was rounded to, or too many. -/
theorem ofUnits_facts (negative : Bool) {u : Nat} (h : Representable u) :
    (ofUnits negative u).isNegative = negative ∧
      (ofUnits negative u).magnitude =
        if u < unitsLimit then magnitudeOfUnits u else infinityMagnitude := by
  unfold ofUnits
  split
  next hlt =>
    exact ofMagnitude_facts negative ((h.magnitudeOfUnits_lt hlt).trans infinityMagnitude_lt)
  · exact ofMagnitude_facts negative infinityMagnitude_lt

/-- No pattern has units that are nearer to a quotient than those of the rounded one, and as near
only if its pattern is even. -/
theorem units_ofUnits_nearest (negative : Bool) (hden : 0 < den) {m : Nat}
    (hm : m ≤ infinityMagnitude) :
    |((ofUnits negative (roundQuotient num den)).units : ℚ) - num / den| ≤
        |(unitsOfMagnitude m : ℚ) - num / den| ∧
      (m ≠ (ofUnits negative (roundQuotient num den)).magnitude →
        |(unitsOfMagnitude m : ℚ) - num / den| =
          |((ofUnits negative (roundQuotient num den)).units : ℚ) - num / den| →
        Even (ofUnits negative (roundQuotient num den)).magnitude) := by
  have hrounded : Representable (roundQuotient num den) := representable_roundQuotient hden
  obtain ⟨hle, heven⟩ := roundQuotient_nearest num hden (representable_unitsOfMagnitude m)
  have hmagnitude := (ofUnits_facts negative hrounded).2
  rw [units, hmagnitude]
  split
  next hlt =>
    rw [hrounded.unitsOfMagnitude_eq]
    refine ⟨hle, fun hne => heven fun heq => hne ?_⟩
    rw [← heq]
    exact unitsOfMagnitude_strictMono.injective
      (representable_unitsOfMagnitude m).unitsOfMagnitude_eq.symm
  next hlarge =>
    rw [unitsOfMagnitude_infinity]
    refine ⟨?_, fun _ _ => (by decide +kernel : Even infinityMagnitude)⟩
    by_cases hfits : num ≤ unitsLimit * den
    · have hlimit : Representable unitsLimit :=
        unitsOfMagnitude_infinity ▸ representable_unitsOfMagnitude infinityMagnitude
      have hround : roundQuotient num den = unitsLimit :=
        le_antisymm (roundQuotient_le hden hlimit hfits) (not_lt.mp hlarge)
      rw [hround] at hle
      exact hle
    · have hcast : (0 : ℚ) < den := Nat.cast_pos.mpr hden
      have hbeyond : (unitsLimit : ℚ) ≤ num / den := by
        rw [le_div_iff₀ hcast]
        exact_mod_cast (not_le.mp hfits).le
      have hpattern : (unitsOfMagnitude m : ℚ) ≤ unitsLimit :=
        Nat.cast_le.mpr (unitsOfMagnitude_le hm)
      rw [abs_of_nonpos (by linarith), abs_of_nonpos (by linarith)]
      linarith

/-- A quotient is rounded to the nearest number. -/
theorem isNearest_ofQuotient (negative : Bool) (num : Nat) (hden : 0 < den) :
    (ofQuotient negative num den).IsNearest negative (num / den) := by
  have hrounded : Representable (roundQuotient (num * unitsPerOne) den) :=
    representable_roundQuotient hden
  obtain ⟨hsign, hmagnitude⟩ := ofUnits_facts negative hrounded
  have hcast := castUnitsPerOne_pos
  refine ⟨hsign, ?_, ?_, ?_⟩
  · change (ofUnits negative _).magnitude ≤ infinityMagnitude
    rw [hmagnitude]
    split
    next hlt => exact (hrounded.magnitudeOfUnits_lt hlt).le
    · exact le_rfl
  · intro m hm
    rw [abs_patternValue_sub, abs_patternValue_sub, div_le_div_iff_of_pos_right hcast]
    exact (units_ofUnits_nearest negative hden hm).1
  · intro m hm hne heq
    rw [abs_patternValue_sub, abs_patternValue_sub, div_left_inj' hcast.ne'] at heq
    exact (units_ofUnits_nearest negative hden hm).2 hne heq

end Quotient

/-- A whole number is rounded to the nearest number. -/
theorem isNearest_ofInt (n : Int) : (ofInt n).IsNearest (n < 0) n.natAbs := by
  simpa [ofInt] using isNearest_ofQuotient (decide (n < 0)) n.natAbs Nat.one_pos

/-! ## Decimals -/

section Decimal

variable {negative : Bool} {q : ℚ}

/-- What is too large for a finite number is infinite. -/
theorem isNearest_infinity (h : patternValue infinityMagnitude ≤ q) :
    (infinity negative).IsNearest negative q := by
  obtain ⟨hsign, hmagnitude⟩ := ofMagnitude_facts negative infinityMagnitude_lt
  change (infinity negative).magnitude = infinityMagnitude at hmagnitude
  refine ⟨hsign, hmagnitude.le, ?_, ?_⟩
  · intro m hm
    have hle := patternValue_strictMono.monotone hm
    rw [hmagnitude, abs_of_nonpos (by linarith), abs_of_nonpos (by linarith)]
    linarith
  · rw [hmagnitude]
    exact fun _ _ _ _ => (by decide +kernel : Even infinityMagnitude)

theorem patternValue_nonneg (m : Nat) : 0 ≤ patternValue m := by
  unfold patternValue
  positivity

theorem patternValue_zero : patternValue 0 = 0 := by
  rw [patternValue, unitsOfMagnitude_of_lt (by omega), Nat.cast_zero, zero_div]

/-- What is at most half of the smallest number is zero. -/
theorem isNearest_zero (hpos : 0 ≤ q) (h : 2 * q ≤ patternValue 1) :
    (zero negative).IsNearest negative q := by
  obtain ⟨hsign, hmagnitude⟩ := ofMagnitude_facts negative (show 0 < 2 ^ 63 by omega)
  change (zero negative).magnitude = 0 at hmagnitude
  refine ⟨hsign, hmagnitude.trans_le (Nat.zero_le _), ?_, ?_⟩
  · intro m _
    rw [hmagnitude, patternValue_zero, zero_sub, abs_neg, abs_of_nonneg hpos]
    rcases Nat.eq_zero_or_pos m with rfl | hm
    · rw [patternValue_zero, zero_sub, abs_neg]
      exact le_abs_self q
    · have hle := patternValue_strictMono.monotone (Nat.succ_le_of_lt hm)
      calc q ≤ patternValue m - q := by linarith
        _ ≤ |patternValue m - q| := le_abs_self _
  · rw [hmagnitude]
    exact fun _ _ _ _ => Even.zero

/-- The digits of a number tell between which powers of ten it lies. -/
theorem toDigits_bounds {n : Nat} (hn : n ≠ 0) :
    ∃ places, (Nat.toDigits 10 n).length = places + 1 ∧ 10 ^ places ≤ n ∧ n < 10 ^ (places + 1) := by
  obtain ⟨places, hplaces⟩ : ∃ places, (Nat.toDigits 10 n).length = places + 1 :=
    Nat.exists_eq_succ_of_ne_zero Nat.length_toDigits_pos.ne'
  refine ⟨places, hplaces, ?_, ?_⟩
  · by_contra hless
    rcases Nat.eq_zero_or_pos places with rfl | hpos
    · exact hn (by omega)
    · have := (Nat.length_toDigits_le_iff (b := 10) (by omega) hpos).mpr (not_le.mp hless)
      omega
  · exact (Nat.length_toDigits_le_iff (by omega) (Nat.succ_pos _)).mp hplaces.le

theorem patternValue_infinity_le : patternValue infinityMagnitude ≤ 10 ^ 400 := by
  have hle : unitsLimit ≤ 10 ^ 400 * unitsPerOne := by decide +kernel
  have hcast : (unitsLimit : ℚ) ≤ (10 ^ 400 * unitsPerOne : Nat) := Nat.cast_le.mpr hle
  rwa [Nat.cast_mul, Nat.cast_pow, Nat.cast_ofNat, ← div_le_iff₀ castUnitsPerOne_pos,
    ← unitsOfMagnitude_infinity] at hcast

theorem le_patternValue_one : 2 * (10 ^ 400)⁻¹ ≤ patternValue 1 := by
  have hle : 2 * unitsPerOne ≤ 10 ^ 400 := by decide +kernel
  have hcast : ((2 * unitsPerOne : Nat) : ℚ) ≤ (10 ^ 400 : Nat) := Nat.cast_le.mpr hle
  rw [Nat.cast_mul, Nat.cast_pow, Nat.cast_ofNat, Nat.cast_ofNat] at hcast
  rw [patternValue, unitsOfMagnitude_of_lt (by omega), ← div_eq_mul_inv,
    div_le_div_iff₀ (by positivity) castUnitsPerOne_pos, Nat.cast_one, one_mul]
  exact hcast

/-- A power of ten is a quotient of natural numbers. -/
theorem mul_pow_div_pow (n : Nat) (e : Int) :
    ((n * Nat.pow 10 e.toNat : Nat) : ℚ) / (Nat.pow 10 (-e).toNat : Nat) = n * 10 ^ e := by
  rw [Nat.pow_eq, Nat.pow_eq]
  push_cast
  rcases Int.le_total 0 e with h | h
  · obtain ⟨k, rfl⟩ := Int.eq_ofNat_of_zero_le h
    simp
  · obtain ⟨k, hk⟩ := Int.exists_eq_neg_ofNat h
    subst hk
    simp [div_eq_mul_inv]

/-- A decimal is read as the nearest number. -/
theorem isNearest_ofDecimal (negative : Bool) (coefficient : Nat) (exponent : Int) :
    (ofDecimal negative coefficient exponent).IsNearest negative (coefficient * 10 ^ exponent) := by
  unfold ofDecimal
  dsimp only
  split_ifs with hzero hlarge hsmall
  · rw [hzero, Nat.cast_zero, zero_mul]
    exact isNearest_zero le_rfl ((mul_zero _).trans_le (patternValue_nonneg 1))
  · obtain ⟨places, hplaces, hlow, -⟩ := toDigits_bounds hzero
    apply isNearest_infinity
    rw [hplaces] at hlarge
    calc patternValue infinityMagnitude ≤ 10 ^ 400 := patternValue_infinity_le
      _ = (10 : ℚ) ^ ((400 : Nat) : ℤ) := (zpow_natCast _ _).symm
      _ ≤ 10 ^ ((places : ℤ) + exponent) := by
          apply zpow_le_zpow_right₀ (by norm_num)
          push_cast at hlarge
          omega
      _ = ((10 ^ places : Nat) : ℚ) * 10 ^ exponent := by
          rw [zpow_add₀ (by norm_num), zpow_natCast]
          push_cast
          rfl
      _ ≤ coefficient * 10 ^ exponent :=
          mul_le_mul_of_nonneg_right (Nat.cast_le.mpr hlow) (by positivity)
  · obtain ⟨places, hplaces, -, hhigh⟩ := toDigits_bounds hzero
    apply isNearest_zero (by positivity)
    rw [hplaces] at hsmall
    refine le_trans ?_ le_patternValue_one
    apply mul_le_mul_of_nonneg_left _ (by norm_num)
    calc (coefficient : ℚ) * 10 ^ exponent ≤ (10 ^ (places + 1) : Nat) * 10 ^ exponent :=
          mul_le_mul_of_nonneg_right (Nat.cast_le.mpr hhigh.le) (by positivity)
      _ = 10 ^ (((places + 1 : Nat) : ℤ) + exponent) := by
          rw [zpow_add₀ (by norm_num), zpow_natCast]
          push_cast
          rfl
      _ ≤ 10 ^ (-((400 : Nat) : ℤ)) := zpow_le_zpow_right₀ (by norm_num) hsmall.le
      _ = (10 ^ 400)⁻¹ := by rw [zpow_neg, zpow_natCast]
  · rw [← mul_pow_div_pow]
    exact isNearest_ofQuotient negative _ (Nat.pow_pos (by norm_num))

end Decimal

end BundledReading.Numeric.Binary64

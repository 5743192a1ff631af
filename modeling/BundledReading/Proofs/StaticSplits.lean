import BundledReading.Proofs.Elements
import BundledReading.Proofs.Rounding

/-!
# Static splits

A static split cuts a source into bundles of one size, the last one taking what is left. The size
is defined as the number of elements of mean length that fit the desired size, at least one and at
most all. The mean and the number of elements are computed with rounding, so that the computed
size and the defined one may differ: they do where a whole number of elements fills the desired
size exactly and the mean was rounded up.

## Implementation notes

The quotient of the desired size and the mean comes from five roundings. Together they move it by
less than one part in `2 ^ 50`, and a number of elements that fits, or exceeds, the desired size by
that much is told correctly. The statements compare products of natural numbers; the rationals
stay in the proofs.
-/

namespace BundledReading

open Numeric

variable {α : Type}

namespace Source

/-- Pieces of one length, in the order of their numbers. -/
theorem cut_eq_map_range {step fuel start stop : Nat} (hstep : 0 < step)
    (hfuel : stop - start ≤ fuel) :
    cut step fuel start stop = (List.range ((stop - start + step - 1) / step)).map fun number =>
      (start + number * step, min (start + (number + 1) * step) stop) := by
  induction fuel generalizing start with
  | zero =>
      have hnone : (stop - start + step - 1) / step = 0 := Nat.div_eq_of_lt (by omega)
      rw [hnone]
      rfl
  | succ fuel ih =>
      rw [cut]
      split
      · have hcount : (stop - start + step - 1) / step =
            (stop - (start + step) + step - 1) / step + 1 := by
          by_cases hrest : start + step ≤ stop
          · rw [← Nat.add_div_right _ hstep]
            congr 1
            omega
          · rw [Nat.div_eq_of_lt (a := stop - (start + step) + step - 1) (by omega)]
            exact Nat.div_eq_of_lt_le (by omega) (by omega)
        rw [hcount, List.range_succ_eq_map, List.map_cons, List.map_map, ih (by omega)]
        simp only [Nat.zero_mul, Nat.add_zero, Nat.zero_add, Nat.one_mul]
        congr 1
        apply List.map_congr_left
        intro number _
        simp only [Function.comp, Nat.succ_eq_add_one, Nat.add_mul, Nat.one_mul]
        congr 1 <;> omega
      · have hnone : (stop - start + step - 1) / step = 0 := Nat.div_eq_of_lt (by omega)
        rw [hnone]
        rfl

/-- The bundles of a source with elements in it have one size, but for the last one. -/
theorem bundles_eq_map_range (source : Source α) {desired : Nat} (hdesired : 0 < desired)
    (hstart : source.start < source.stop) :
    let perBundle := source.elementsPerBundle desired
    source.bundles desired =
      (List.range ((source.size + perBundle - 1) / perBundle)).map fun number =>
        source.withRange (source.start + number * perBundle)
          (min (source.start + (number + 1) * perBundle) source.stop) := by
  intro perBundle
  have hcut : ¬(desired = 0 || source.isEmpty) = true := by
    simp [isEmpty, hdesired.ne', hstart.ne]
  have hsize : source.stop - source.start ≤ source.size := le_rfl
  rw [bundles, if_neg hcut, cut_eq_map_range (source.elementsPerBundle_pos desired) hsize,
    List.map_map]
  rfl

/-- A bundle of all elements is the source. -/
theorem bundles_eq_self {source : Source α} {desired : Nat} (hdesired : 0 < desired)
    (hstart : source.start < source.stop) (hsize : source.elementsPerBundle desired = source.size) :
    source.bundles desired = [source] := by
  have hpos : 0 < source.size := Nat.sub_pos_of_lt hstart
  have hone : (source.size + source.size - 1) / source.size = 1 :=
    Nat.div_eq_of_lt_le (by omega) (by omega)
  have hstop : source.start + source.size = source.stop := by
    unfold size
    omega
  rw [source.bundles_eq_map_range hdesired hstart, hsize, hone]
  simp [withRange, hstop]

/-! ## The computed size -/

/-- A source with elements in it over a buffer with bytes, and a desired size, all of them counted
in 64 bits. -/
structure Divisible (source : Source α) (desired : Nat) : Prop where
  valid : source.Valid
  start_lt_stop : source.start < source.stop
  bytes_pos : 0 < source.buffer.totalBytes
  desired_pos : 0 < desired
  size_lt : source.buffer.size < 2 ^ 64
  bytes_lt : source.buffer.totalBytes < 2 ^ 64
  desired_lt : desired < 2 ^ 64

/-- The desired size divided by the mean length, as it is computed. -/
def quotient (source : Source α) (desired : Nat) : Binary64 :=
  Binary64.ofNat desired / source.buffer.averageSize

/-- The desired size divided by the mean length. -/
def exactQuotient (source : Source α) (desired : Nat) : ℚ :=
  desired * source.buffer.size / source.buffer.totalBytes

namespace Divisible

variable {source : Source α} {desired count : Nat}

theorem size_pos (h : source.Divisible desired) : 0 < source.size :=
  Nat.sub_pos_of_lt h.start_lt_stop

theorem size_le (h : source.Divisible desired) : source.size ≤ source.buffer.size :=
  (Nat.sub_le _ _).trans h.valid.stop_le_size

open Binary64

/-- The mean length comes from three roundings. -/
theorem averageSize_spec (h : source.Divisible desired) :
    source.buffer.averageSize.IsFinite ∧
      Between ((1 - roundoff) * ((1 - roundoff) / (1 + roundoff)))
        ((1 + roundoff) * ((1 + roundoff) / (1 - roundoff))) source.buffer.averageSize.value
        (source.buffer.totalBytes / source.buffer.size) := by
  have hsize : 0 < source.buffer.size := h.size_pos.trans_le h.size_le
  have hbytes := value_ofNat_bounds h.bytes_pos h.bytes_lt.le
  have hcount := value_ofNat_bounds hsize h.size_lt.le
  have hpos : 0 < (ofNat source.buffer.size).value := by linarith
  rw [Buffer.averageSize, if_neg hsize.ne']
  have hfinite := (ofNat_spec h.bytes_lt.le).1
  have hfinite' := (ofNat_spec h.size_lt.le).1
  refine ⟨(div_spec hfinite hfinite' hpos (by linarith)).1, ?_⟩
  refine (between_div hfinite hfinite' hpos (by linarith) (by linarith)).trans
    ((between_ofNat h.bytes_pos h.bytes_lt.le).div (between_ofNat hsize h.size_lt.le)
      (Nat.cast_nonneg _) (Nat.cast_pos.mpr hsize) ?_ ?_) ?_ ?_
  all_goals norm_num [roundoff]

theorem averageSize_bounds (h : source.Divisible desired) :
    1 / 2 ^ 65 ≤ source.buffer.averageSize.value ∧ source.buffer.averageSize.value ≤ 2 ^ 65 := by
  have hsize : 0 < source.buffer.size := h.size_pos.trans_le h.size_le
  have hcount : (1 : ℚ) ≤ source.buffer.size := Nat.one_le_cast.mpr hsize
  have hbytes : (1 : ℚ) ≤ source.buffer.totalBytes := Nat.one_le_cast.mpr h.bytes_pos
  have hcountMost : (source.buffer.size : ℚ) ≤ 2 ^ 64 := by exact_mod_cast h.size_lt.le
  have hbytesMost : (source.buffer.totalBytes : ℚ) ≤ 2 ^ 64 := by exact_mod_cast h.bytes_lt.le
  have hmean : Between (1 / 2) 2 source.buffer.averageSize.value
      (source.buffer.totalBytes / source.buffer.size) :=
    h.averageSize_spec.2.weaken (by positivity) (by norm_num [roundoff]) (by norm_num [roundoff])
  constructor
  · calc (1 / 2 ^ 65 : ℚ) = 1 / 2 * (1 / 2 ^ 64) := by norm_num
      _ ≤ 1 / 2 * (source.buffer.totalBytes / source.buffer.size) := by gcongr
      _ ≤ source.buffer.averageSize.value := hmean.lower
  · calc source.buffer.averageSize.value
        ≤ 2 * (source.buffer.totalBytes / source.buffer.size) := hmean.upper
      _ ≤ 2 * (2 ^ 64 / 1) := by gcongr
      _ = 2 ^ 65 := by norm_num

theorem averageSize_pos (h : source.Divisible desired) : 0 < source.buffer.averageSize.value :=
  lt_of_lt_of_le (by norm_num) h.averageSize_bounds.1

theorem desired_le (h : source.Divisible desired) :
    (ofNat desired).value ≤ 2 ^ 200 * source.buffer.averageSize.value := by
  have hdesired := value_ofNat_bounds h.desired_pos h.desired_lt.le
  have hmean := h.averageSize_bounds
  linarith

/-- The quotient comes from five roundings, the three of the mean among them. -/
theorem quotient_spec (h : source.Divisible desired) :
    (source.quotient desired).IsFinite ∧
      Between (1 - 6 * roundoff) (1 + 6 * roundoff) (source.quotient desired).value
        (source.exactQuotient desired) := by
  have hdesired := value_ofNat_bounds h.desired_pos h.desired_lt.le
  have hmean := h.averageSize_bounds
  have hsize : (0 : ℚ) < source.buffer.size := Nat.cast_pos.mpr (h.size_pos.trans_le h.size_le)
  have hbytes : (0 : ℚ) < source.buffer.totalBytes := Nat.cast_pos.mpr h.bytes_pos
  have hfinite := (ofNat_spec h.desired_lt.le).1
  have hfinite' := h.averageSize_spec.1
  refine ⟨(div_spec hfinite hfinite' h.averageSize_pos h.desired_le).1, ?_⟩
  have herror := (between_div hfinite hfinite' h.averageSize_pos (by linarith) h.desired_le).trans
    ((between_ofNat h.desired_pos h.desired_lt.le).div h.averageSize_spec.2
      (Nat.cast_nonneg _) (by positivity) (by norm_num [roundoff]) (by norm_num [roundoff]))
    (by norm_num [roundoff]) (by norm_num [roundoff])
  rw [div_div_eq_mul_div] at herror
  exact herror.weaken (by positivity) (by norm_num [roundoff]) (by norm_num [roundoff])

/-- The size of a bundle, told by the quotient: the comparison with all elements is made with
their rounded number. -/
theorem elementsPerBundle_eq (h : source.Divisible desired) :
    source.elementsPerBundle desired =
      if (ofNat source.size).value ≤ ⌊(source.quotient desired).value⌋₊ then source.size
      else max (min ⌊(source.quotient desired).value⌋₊ (2 ^ 64 - 1)) 1 := by
  have hmean := h.averageSize_spec.1
  have hfloor := floor_spec h.quotient_spec.1
  have hsize := (ofNat_spec (h.size_le.trans h.size_lt.le)).1
  have hpositive : ¬source.buffer.averageSize.le (zero false) = true := by
    rw [le_iff hmean zero_spec.1, zero_spec.2]
    exact not_le.mpr h.averageSize_pos
  have hcompare : (ofNat source.size).le (source.quotient desired).floor = true ↔
      (ofNat source.size).value ≤ ⌊(source.quotient desired).value⌋₊ := by
    rw [le_iff hsize hfloor.1, hfloor.2]
  have hwhole : (source.quotient desired).floor.toNatSaturating (2 ^ 64 - 1) =
      min ⌊(source.quotient desired).value⌋₊ (2 ^ 64 - 1) := by
    rw [toNatSaturating_eq hfloor.1, hfloor.2, Nat.floor_natCast]
  rw [quotient] at hcompare hwhole ⊢
  simp only [elementsPerBundle, if_neg hpositive, hcompare, Nat.pow_eq, hwhole,
    max_eq_left (Nat.succ_le_of_lt h.size_pos)]

/-- A number of elements that the quotient reaches is in every bundle. -/
theorem le_elementsPerBundle (h : source.Divisible desired) (hcount : count ≤ source.size)
    (hfits : (count : ℚ) ≤ (source.quotient desired).value) :
    count ≤ source.elementsPerBundle desired := by
  have hfloor : count ≤ ⌊(source.quotient desired).value⌋₊ := Nat.le_floor hfits
  have hlt : source.size < 2 ^ 64 := h.size_le.trans_lt h.size_lt
  rw [h.elementsPerBundle_eq]
  split
  · exact hcount
  · omega

/-- If the quotient reaches the rounded number of all elements, they are one bundle. -/
theorem elementsPerBundle_eq_size (h : source.Divisible desired)
    (hfits : (ofNat source.size).value ≤ (source.quotient desired).value) :
    source.elementsPerBundle desired = source.size := by
  obtain ⟨whole, hwhole⟩ := exists_value_ofNat_eq (h.size_le.trans h.size_lt.le)
  rw [hwhole] at hfits
  rw [h.elementsPerBundle_eq, if_pos]
  rw [hwhole, Nat.cast_le]
  exact Nat.le_floor hfits

/-- A number of elements that the quotient stays below is more than a bundle has. -/
theorem elementsPerBundle_lt (h : source.Divisible desired) (hcount : 1 < count)
    (hlt : (source.quotient desired).value < count)
    (hsize : (source.quotient desired).value < (ofNat source.size).value) :
    source.elementsPerBundle desired < count := by
  have hfloor : ⌊(source.quotient desired).value⌋₊ < count :=
    (Nat.floor_lt (value_nonneg _)).mpr hlt
  have hbelow : ¬(ofNat source.size).value ≤ ⌊(source.quotient desired).value⌋₊ :=
    not_le.mpr ((Nat.floor_le (value_nonneg _)).trans_lt hsize)
  rw [h.elementsPerBundle_eq, if_neg hbelow]
  omega

theorem elementsPerBundle_le (h : source.Divisible desired) :
    source.elementsPerBundle desired ≤ source.size := by
  have hfloor := floor_spec h.quotient_spec.1
  rw [h.elementsPerBundle_eq]
  split
  · exact le_rfl
  next hbelow =>
    -- What exceeds all elements exceeds their rounded number.
    have hle : ⌊(source.quotient desired).value⌋₊ ≤ source.size := by
      by_contra hlt
      apply hbelow
      rw [← hfloor.2]
      apply value_ofNat_le (h.size_le.trans h.size_lt.le)
      rw [hfloor.2, Nat.cast_le]
      omega
    have := h.size_pos
    omega

end Divisible

/-! ## The defined size -/

/-- The number of elements of mean length that fit the desired size, at least one and at most
all. -/
def exactPerBundle (source : Source α) (desired : Nat) : Nat :=
  min source.size (max 1 (desired * source.buffer.size / source.buffer.totalBytes))

/-- Elements of mean length fit the desired size with more than one part in `2 ^ 50` to spare. -/
def FitsClearly (source : Source α) (desired count : Nat) : Prop :=
  count * source.buffer.totalBytes * (2 ^ 50 + 1) ≤ desired * source.buffer.size * 2 ^ 50

/-- Elements of mean length exceed the desired size by more than one part in `2 ^ 50`. -/
def ExceedsClearly (source : Source α) (desired count : Nat) : Prop :=
  desired * source.buffer.size * (2 ^ 50 + 1) < count * source.buffer.totalBytes * 2 ^ 50

/-- Elements of mean length fit the desired size, and so do they after the mean and the numbers
have been rounded. -/
def FitsRounded (source : Source α) (desired count : Nat) : Prop :=
  count * source.buffer.totalBytes ≤ desired * source.buffer.size ∧
    (Binary64.ofNat count).value * source.buffer.averageSize.value ≤
      (Binary64.ofNat desired).value

namespace Divisible

variable {source : Source α} {desired count : Nat}

open Binary64

theorem castBytes_pos (h : source.Divisible desired) : (0 : ℚ) < source.buffer.totalBytes :=
  Nat.cast_pos.mpr h.bytes_pos

theorem le_quotient_of_fitsClearly (h : source.Divisible desired)
    (hfits : source.FitsClearly desired count) :
    (count : ℚ) ≤ (source.quotient desired).value := by
  have hcast : (count * source.buffer.totalBytes * (2 ^ 50 + 1) : ℚ) ≤
      desired * source.buffer.size * 2 ^ 50 := by exact_mod_cast hfits
  have hexact : count * ((2 ^ 50 + 1) / 2 ^ 50) ≤ source.exactQuotient desired := by
    rw [exactQuotient, le_div_iff₀ h.castBytes_pos]
    linarith
  calc (count : ℚ) = 1 * count := (one_mul _).symm
    _ ≤ (1 - 6 * roundoff) * ((2 ^ 50 + 1) / 2 ^ 50) * count := by
        gcongr
        norm_num [roundoff]
    _ = (1 - 6 * roundoff) * (count * ((2 ^ 50 + 1) / 2 ^ 50)) := by ring
    _ ≤ (1 - 6 * roundoff) * source.exactQuotient desired := by
        gcongr
        norm_num [roundoff]
    _ ≤ (source.quotient desired).value := h.quotient_spec.2.lower

theorem quotient_lt_of_exceedsClearly (h : source.Divisible desired)
    (hexceeds : source.ExceedsClearly desired count) :
    (source.quotient desired).value < (1 - roundoff) * count := by
  have hcast : (desired * source.buffer.size * (2 ^ 50 + 1) : ℚ) <
      count * source.buffer.totalBytes * 2 ^ 50 := by exact_mod_cast hexceeds
  have hexact : source.exactQuotient desired < count * (2 ^ 50 / (2 ^ 50 + 1)) := by
    rw [exactQuotient, div_lt_iff₀ h.castBytes_pos]
    linarith
  calc (source.quotient desired).value
      ≤ (1 + 6 * roundoff) * source.exactQuotient desired := h.quotient_spec.2.upper
    _ < (1 + 6 * roundoff) * (count * (2 ^ 50 / (2 ^ 50 + 1))) := by
        gcongr
        norm_num [roundoff]
    _ = (1 + 6 * roundoff) * (2 ^ 50 / (2 ^ 50 + 1)) * count := by ring
    _ ≤ (1 - roundoff) * count := by
        gcongr
        norm_num [roundoff]

/-- A number of elements that fits clearly is in every bundle. -/
theorem le_of_fitsClearly (h : source.Divisible desired) (hcount : count ≤ source.size)
    (hfits : source.FitsClearly desired count) : count ≤ source.elementsPerBundle desired :=
  h.le_elementsPerBundle hcount (h.le_quotient_of_fitsClearly hfits)

/-- A number of elements that exceeds the size clearly is more than a bundle has. -/
theorem lt_of_exceedsClearly (h : source.Divisible desired) (hone : 1 < count)
    (hcount : count ≤ source.size) (hexceeds : source.ExceedsClearly desired count) :
    source.elementsPerBundle desired < count := by
  have hlt := h.quotient_lt_of_exceedsClearly hexceeds
  have hsize := (between_ofNat h.size_pos (h.size_le.trans h.size_lt.le)).lower
  have hcast : (count : ℚ) ≤ source.size := Nat.cast_le.mpr hcount
  apply h.elementsPerBundle_lt hone
  · calc (source.quotient desired).value < (1 - roundoff) * count := hlt
      _ ≤ 1 * count := by gcongr; norm_num [roundoff]
      _ = count := one_mul _
  · calc (source.quotient desired).value < (1 - roundoff) * count := hlt
      _ ≤ (1 - roundoff) * source.size := by gcongr; norm_num [roundoff]
      _ ≤ (ofNat source.size).value := hsize

/-- What fits after rounding is in every bundle, unless its number is itself rounded. -/
theorem le_of_fitsRounded (h : source.Divisible desired) (hcount : count ≤ source.size)
    (hsmall : count ≤ 2 ^ 53 ∨ count = source.size) (hfits : source.FitsRounded desired count) :
    count ≤ source.elementsPerBundle desired := by
  have hle : (ofNat count).value ≤ (source.quotient desired).value :=
    le_value_div (ofNat_spec h.desired_lt.le).1 h.averageSize_spec.1 h.averageSize_pos
      h.desired_le hfits.2
  rcases hsmall with hsmall | rfl
  · rw [value_ofNat hsmall] at hle
    exact h.le_elementsPerBundle hcount hle
  · exact (h.elementsPerBundle_eq_size hle).ge

theorem exactPerBundle_pos (h : source.Divisible desired) : 0 < source.exactPerBundle desired := by
  have := h.size_pos
  unfold exactPerBundle
  omega

/-- The elements of a defined bundle fit the desired size. -/
theorem mul_le_of_exactPerBundle (h : source.Divisible desired)
    (hone : 1 < source.exactPerBundle desired) :
    source.exactPerBundle desired * source.buffer.totalBytes ≤ desired * source.buffer.size := by
  rw [← Nat.le_div_iff_mul_le h.bytes_pos]
  unfold exactPerBundle at hone ⊢
  omega

/-- One element more than a defined bundle has does not fit the desired size. -/
theorem lt_mul_of_exactPerBundle (h : source.Divisible desired)
    (hlt : source.exactPerBundle desired < source.size) :
    desired * source.buffer.size <
      (source.exactPerBundle desired + 1) * source.buffer.totalBytes := by
  rw [← Nat.div_lt_iff_lt_mul h.bytes_pos]
  unfold exactPerBundle at hlt ⊢
  omega

/-- If one element more exceeds the size clearly, there are not many in a defined bundle. -/
theorem exactPerBundle_le (h : source.Divisible desired) (hone : 1 < source.exactPerBundle desired)
    (hexceeds : source.ExceedsClearly desired (source.exactPerBundle desired + 1)) :
    source.exactPerBundle desired ≤ 2 ^ 53 := by
  have hunder := h.mul_le_of_exactPerBundle hone
  unfold ExceedsClearly at hexceeds
  rw [Nat.add_mul, Nat.one_mul] at hexceeds
  have hlt : source.exactPerBundle desired * source.buffer.totalBytes <
      2 ^ 50 * source.buffer.totalBytes := by omega
  have := Nat.lt_of_mul_lt_mul_right hlt
  omega

/-- If one element more exceeds the size clearly, a bundle has no more elements than defined. -/
theorem le_exactPerBundle (h : source.Divisible desired)
    (hnext : source.exactPerBundle desired < source.size →
      source.ExceedsClearly desired (source.exactPerBundle desired + 1)) :
    source.elementsPerBundle desired ≤ source.exactPerBundle desired := by
  have hpos := h.exactPerBundle_pos
  have hexact : source.exactPerBundle desired ≤ source.size := Nat.min_le_left _ _
  rcases Nat.lt_or_eq_of_le hexact with hlt | heq
  · exact Nat.le_of_lt_succ (h.lt_of_exceedsClearly (by omega) hlt (hnext hlt))
  · rw [heq]
    exact h.elementsPerBundle_le

/-- The size is the defined one if every number of elements is told from the desired size, or
fits it after rounding as well. -/
theorem elementsPerBundle_eq_exact (h : source.Divisible desired)
    (htold : ∀ count, 1 < count → count ≤ source.size → source.FitsClearly desired count ∨
      source.ExceedsClearly desired count ∨ source.FitsRounded desired count) :
    source.elementsPerBundle desired = source.exactPerBundle desired := by
  have hexact : source.exactPerBundle desired ≤ source.size := Nat.min_le_left _ _
  have hpos := h.exactPerBundle_pos
  -- One element more exceeds the size, and being told from it, exceeds it clearly.
  have hnext : source.exactPerBundle desired < source.size →
      source.ExceedsClearly desired (source.exactPerBundle desired + 1) := by
    intro hlt
    have hover := h.lt_mul_of_exactPerBundle hlt
    rcases htold (source.exactPerBundle desired + 1) (by omega) hlt with hfits | hexceeds | hfits
    · unfold FitsClearly at hfits
      omega
    · exact hexceeds
    · exact absurd hfits.1 (Nat.not_le.mpr hover)
  apply Nat.le_antisymm (h.le_exactPerBundle hnext)
  rcases Nat.lt_or_eq_of_le (Nat.succ_le_of_lt hpos) with hone | heq
  · have hunder := h.mul_le_of_exactPerBundle hone
    rcases htold _ hone hexact with hfits | hexceeds | hfits
    · exact h.le_of_fitsClearly hexact hfits
    · unfold ExceedsClearly at hexceeds
      omega
    · apply h.le_of_fitsRounded hexact _ hfits
      rcases Nat.lt_or_eq_of_le hexact with hlt | heq
      · exact .inl (h.exactPerBundle_le hone (hnext hlt))
      · exact .inr heq
  · rw [← heq]
    exact source.elementsPerBundle_pos desired

/-- Elements that fill the desired size exactly are in every bundle, unless the mean was rounded
up. -/
theorem le_of_full (h : source.Divisible desired) (hcount : count ≤ source.size)
    (hsmall : desired * source.buffer.size < 2 ^ 50)
    (hfull : count * source.buffer.totalBytes = desired * source.buffer.size)
    (hmean : source.buffer.averageSize.value * source.buffer.size ≤ source.buffer.totalBytes) :
    count ≤ source.elementsPerBundle desired := by
  have hsize : 0 < source.buffer.size := h.size_pos.trans_le h.size_le
  have hlt : count < 2 ^ 50 := by
    have := Nat.le_mul_of_pos_right count h.bytes_pos
    omega
  have hdesired : desired < 2 ^ 50 := by
    have := Nat.le_mul_of_pos_right desired hsize
    omega
  apply h.le_of_fitsRounded hcount (.inl (by omega))
  refine ⟨hfull.le, ?_⟩
  rw [value_ofNat (by omega), value_ofNat (by omega)]
  have hcast : (count * source.buffer.totalBytes : ℚ) = desired * source.buffer.size := by
    exact_mod_cast hfull
  have hpos : (0 : ℚ) < source.buffer.size := Nat.cast_pos.mpr hsize
  apply le_of_mul_le_mul_right _ hpos
  calc count * source.buffer.averageSize.value * source.buffer.size
      = count * (source.buffer.averageSize.value * source.buffer.size) := by ring
    _ ≤ count * source.buffer.totalBytes := by gcongr
    _ = desired * source.buffer.size := hcast

/-- As long as the products are small, the size is the defined one, or one element less where
elements fill the desired size exactly and the mean was rounded up. -/
theorem elementsPerBundle_eq_or (h : source.Divisible desired)
    (hsmall : desired * source.buffer.size < 2 ^ 50) :
    source.elementsPerBundle desired = source.exactPerBundle desired ∨
      source.elementsPerBundle desired + 1 = source.exactPerBundle desired ∧
        source.buffer.totalBytes ∣ desired * source.buffer.size ∧
        (source.buffer.totalBytes : ℚ) < source.buffer.averageSize.value * source.buffer.size := by
  have hpos := h.exactPerBundle_pos
  have hexact : source.exactPerBundle desired ≤ source.size := Nat.min_le_left _ _
  have hmost : source.elementsPerBundle desired ≤ source.exactPerBundle desired := by
    apply h.le_exactPerBundle
    intro hlt
    have hover := h.lt_mul_of_exactPerBundle hlt
    unfold ExceedsClearly
    omega
  have hleast := source.elementsPerBundle_pos desired
  rcases Nat.lt_or_eq_of_le (Nat.succ_le_of_lt hpos) with hone | heq
  · have hunder := h.mul_le_of_exactPerBundle hone
    rcases Nat.lt_or_eq_of_le hunder with hspare | hfull
    · have hfits : source.FitsClearly desired (source.exactPerBundle desired) := by
        unfold FitsClearly
        omega
      exact .inl (Nat.le_antisymm hmost (h.le_of_fitsClearly hexact hfits))
    · by_cases hmean : source.buffer.averageSize.value * source.buffer.size ≤
          source.buffer.totalBytes
      · exact .inl (Nat.le_antisymm hmost (h.le_of_full hexact hsmall hfull hmean))
      · -- One element less leaves room for another one of mean length.
        have hprevious : source.FitsClearly desired (source.exactPerBundle desired - 1) := by
          have hbytes := h.bytes_pos
          unfold FitsClearly
          rw [Nat.sub_one_mul]
          omega
        have := h.le_of_fitsClearly ((Nat.sub_le _ _).trans hexact) hprevious
        rcases Nat.lt_or_eq_of_le hmost with hless | heq
        · exact .inr ⟨by omega, ⟨_, hfull.symm.trans (Nat.mul_comm _ _)⟩, not_le.mp hmean⟩
        · exact .inl heq
  · omega

end Divisible

/-- The bundles of a source for a desired size are consecutive, and all of them but the last one
have the same number of elements, at least one and at most all of the source's. A number of
elements of mean length that fits the desired size with one part in `2 ^ 50` to spare is in every
bundle, one that exceeds it by as much is not, and the number is the defined one if none lies
between that does not fit after rounding as well. As long as the products are small, the number is
the defined one, or one less where elements fill the desired size exactly and the mean was rounded
up. In particular the whole of a buffer is one bundle if its bytes fit the desired size clearly, or
after rounding. -/
theorem bundles_follow_mean (source : Source α) (desired : Nat) (h : source.Divisible desired) :
    let perBundle := source.elementsPerBundle desired
    source.bundles desired =
        ((List.range ((source.size + perBundle - 1) / perBundle)).map fun number =>
          source.withRange (source.start + number * perBundle)
            (min (source.start + (number + 1) * perBundle) source.stop)) ∧
      1 ≤ perBundle ∧ perBundle ≤ source.size ∧
      (∀ count, 1 < count → count ≤ source.size →
        (source.FitsClearly desired count → count ≤ perBundle) ∧
        (source.ExceedsClearly desired count → perBundle < count)) ∧
      ((∀ count, 1 < count → count ≤ source.size → source.FitsClearly desired count ∨
          source.ExceedsClearly desired count ∨ source.FitsRounded desired count) →
        perBundle = source.exactPerBundle desired) ∧
      (desired * source.buffer.size < 2 ^ 50 →
        perBundle = source.exactPerBundle desired ∨
          perBundle + 1 = source.exactPerBundle desired ∧
            source.buffer.totalBytes ∣ desired * source.buffer.size ∧
            (source.buffer.totalBytes : ℚ) <
              source.buffer.averageSize.value * source.buffer.size) ∧
      (source.size = source.buffer.size → source.buffer.totalBytes ≤ desired →
        source.buffer.totalBytes * (2 ^ 50 + 1) ≤ desired * 2 ^ 50 ∨
            (Binary64.ofNat source.size).value * source.buffer.averageSize.value ≤
              (Binary64.ofNat desired).value →
        source.bundles desired = [source]) := by
  intro perBundle
  refine ⟨source.bundles_eq_map_range h.desired_pos h.start_lt_stop,
    source.elementsPerBundle_pos desired, h.elementsPerBundle_le, ?_, h.elementsPerBundle_eq_exact,
    h.elementsPerBundle_eq_or, ?_⟩
  · intro count hone hcount
    exact ⟨h.le_of_fitsClearly hcount, h.lt_of_exceedsClearly hone hcount⟩
  · intro hwhole hbytes hfits
    apply bundles_eq_self h.desired_pos h.start_lt_stop
    apply Nat.le_antisymm h.elementsPerBundle_le
    rcases hfits with hclear | hrounded
    · apply h.le_of_fitsClearly le_rfl
      rw [FitsClearly, hwhole]
      calc source.buffer.size * source.buffer.totalBytes * (2 ^ 50 + 1)
          = source.buffer.size * (source.buffer.totalBytes * (2 ^ 50 + 1)) := by ring
        _ ≤ source.buffer.size * (desired * 2 ^ 50) := Nat.mul_le_mul_left _ hclear
        _ = desired * source.buffer.size * 2 ^ 50 := by ring
    · apply h.le_of_fitsRounded le_rfl (.inr rfl)
      refine ⟨?_, hrounded⟩
      rw [hwhole, Nat.mul_comm]
      exact Nat.mul_le_mul_right _ hbytes

/-- Seven byte strings with nine bytes together, to try results on. -/
def nineBytes : Source Bytes :=
  ofBuffer (Buffer.ofEncoded (Coder.bytes.share 0) [[0], [0], [0], [0], [0], [0, 0], [0, 0]])

/-- With room for ten bytes, all seven byte strings are one bundle. -/
theorem bundles_follow_mean_nineBytes :
    nineBytes.Divisible 10 ∧ nineBytes.elementsPerBundle 10 = 7 := by
  have hdivisible : nineBytes.Divisible 10 := by
    constructor
    · exact valid_ofBuffer _
    all_goals decide
  refine ⟨hdivisible, ?_⟩
  obtain ⟨-, -, -, -, -, hsmall, -⟩ := bundles_follow_mean nineBytes 10 hdivisible
  rcases hsmall (by decide) with hexact | ⟨-, hfull, -⟩
  · exact hexact
  · exact absurd hfull (by decide)

/-- With room for their nine bytes, they are two: the mean is rounded up. -/
example : (nineBytes.bundles 9).map span = [(0, 6), (6, 7)] := by decide +kernel

end Source

end BundledReading

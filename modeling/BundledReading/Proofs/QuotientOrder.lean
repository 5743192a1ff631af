import BundledReading.Proofs.Rounding

/-!
# The order of rounded quotients

Rounding is monotone: of two quotients the larger one is never rounded to the smaller number. A
quotient of two counts therefore does not fall as its numerator grows or its denominator shrinks,
and as long as the counts are represented exactly, it stays below one if they differ. Whatever the
counts are, a number below one precedes all others in the total order of patterns.

## Implementation notes

The statements without a bound on the counts also hold where a count is rounded to infinity, and
the quotient to something that is not a number.
-/

namespace BundledReading.Numeric.Binary64

/-! ## Rounding is monotone -/

variable {num den num' den' : Nat}

/-- Quotients are ordered as their whole parts are. -/
theorem div_le_div_of_mul_le (hden : 0 < den) (hden' : 0 < den') (h : num * den' ≤ num' * den) :
    num / den ≤ num' / den' := by
  rw [Nat.le_div_iff_mul_le hden']
  apply Nat.le_of_mul_le_mul_right _ hden
  calc num / den * den' * den = num / den * den * den' := by ring
    _ ≤ num * den' := Nat.mul_le_mul_right _ (Nat.div_mul_le_self _ _)
    _ ≤ num' * den := h

theorem nearestEven_le_succ (num den : Nat) : nearestEven num den ≤ num / den + 1 := by
  simp only [nearestEven]
  split <;> try split
  all_goals omega

theorem nearestEven_mono (hden : 0 < den) (hden' : 0 < den') (h : num * den' ≤ num' * den) :
    nearestEven num den ≤ nearestEven num' den' := by
  rcases Nat.lt_or_eq_of_le (div_le_div_of_mul_le hden hden' h) with hlt | heq
  · calc nearestEven num den ≤ num / den + 1 := nearestEven_le_succ _ _
      _ ≤ num' / den' := hlt
      _ ≤ nearestEven num' den' := div_le_nearestEven _ _
  · -- With equal whole parts the remainders decide, a tie on both sides the same way.
    have hrest : num % den * den' ≤ num' % den' * den := by
      have hnum : num * den' = num / den * den * den' + num % den * den' := by
        rw [← Nat.add_mul, Nat.div_add_mod']
      have hnum' : num' * den = num' / den' * den' * den + num' % den' * den := by
        rw [← Nat.add_mul, Nat.div_add_mod']
      have hwhole : num / den * den * den' = num' / den' * den' * den := by
        rw [heq]
        ring
      omega
    have hhalf : den ≤ 2 * (num % den) → den' ≤ 2 * (num' % den') := by
      intro hle
      apply Nat.le_of_mul_le_mul_right _ hden
      calc den' * den = den * den' := Nat.mul_comm _ _
        _ ≤ 2 * (num % den) * den' := Nat.mul_le_mul_right _ hle
        _ = 2 * (num % den * den') := Nat.mul_assoc _ _ _
        _ ≤ 2 * (num' % den' * den) := Nat.mul_le_mul_left _ hrest
        _ = 2 * (num' % den') * den := (Nat.mul_assoc _ _ _).symm
    have hmore : den < 2 * (num % den) → den' < 2 * (num' % den') := by
      intro hlt
      apply Nat.lt_of_mul_lt_mul_right (a := den)
      calc den' * den = den * den' := Nat.mul_comm _ _
        _ < 2 * (num % den) * den' := Nat.mul_lt_mul_of_pos_right hlt hden'
        _ = 2 * (num % den * den') := Nat.mul_assoc _ _ _
        _ ≤ 2 * (num' % den' * den) := Nat.mul_le_mul_left _ hrest
        _ = 2 * (num' % den') * den := (Nat.mul_assoc _ _ _).symm
    simp only [nearestEven, heq]
    split
    · exact div_le_nearestEven num' den'
    · split <;> split <;> try split
      all_goals omega

theorem roundQuotient_mono (hden : 0 < den) (hden' : 0 < den') (h : num * den' ≤ num' * den) :
    roundQuotient num den ≤ roundQuotient num' den' := by
  by_cases hspacing : spacing (num / den) = spacing (num' / den')
  · rw [roundQuotient, roundQuotient, ← hspacing]
    have hpos := spacing_pos (num / den)
    apply Nat.mul_le_mul_right
    apply nearestEven_mono (Nat.mul_pos hden hpos) (Nat.mul_pos hden' hpos)
    calc num * (den' * spacing (num / den)) = num * den' * spacing (num / den) := by ring
      _ ≤ num' * den * spacing (num / den) := Nat.mul_le_mul_right _ h
      _ = num' * (den * spacing (num / den)) := by ring
  · -- Between quotients with different spacings there is a power of two, which is representable.
    have hle := div_le_div_of_mul_le hden hden' h
    have hlog : (num / den).log2 < (num' / den').log2 := by
      by_contra hge
      have hdvd := spacing_dvd_spacing hle
      have hdvd' : spacing (num' / den') ∣ spacing (num / den) :=
        pow_dvd_pow 2 (Nat.sub_le_sub_right (Nat.not_lt.mp hge) 52)
      exact hspacing (Nat.dvd_antisymm hdvd hdvd')
    have hpower : Representable (2 ^ (num' / den').log2) := by
      simpa using Representable.mul_two_pow (u := 1) (by omega) (num' / den').log2
    have hne : num' / den' ≠ 0 := by
      intro hzero
      simp [hzero] at hlog
    have hbelow : num / den < 2 ^ (num' / den').log2 :=
      Nat.lt_of_lt_of_le Nat.lt_log2_self (Nat.pow_le_pow_right Nat.two_pos hlog)
    calc roundQuotient num den ≤ 2 ^ (num' / den').log2 := by
          apply roundQuotient_le hden hpower
          exact (Nat.lt_mul_of_div_lt hbelow hden).le
      _ ≤ roundQuotient num' den' := by
          apply le_roundQuotient hden' hpower
          exact (Nat.le_div_iff_mul_le hden').mp (Nat.log2_self_le hne)

/-! ## Quotients of counts -/

variable {x y z : Binary64} {k n k' n' : Nat}

theorem lt_iff (hx : x.IsFinite) (hy : y.IsFinite) : x.lt y = true ↔ x.value < y.value := by
  have hle := le_iff hy hx
  rw [← not_le, ← hle]
  simp [lt, le, hx.isNaN_eq, hy.isNaN_eq]

theorem value_ofNat_mono (h : k ≤ n) (hn : n ≤ 2 ^ 64) : (ofNat k).value ≤ (ofNat n).value := by
  rw [value_le_iff, (ofNat_spec (h.trans hn)).2, (ofNat_spec hn).2]
  apply roundQuotient_mono Nat.one_pos Nat.one_pos
  exact Nat.mul_le_mul_right 1 (Nat.mul_le_mul_right unitsPerOne h)

theorem value_ofNat_pos (hpos : 0 < n) (hn : n ≤ 2 ^ 64) : 0 < (ofNat n).value :=
  lt_of_lt_of_le (by norm_num) (value_ofNat_bounds hpos hn).1

/-- The quotient of two counts of 64 bits is a finite number, rounded once more. -/
theorem div_ofNat_spec (hk : k ≤ 2 ^ 64) (hpos : 0 < n) (hn : n ≤ 2 ^ 64) :
    (ofNat k / ofNat n).IsFinite ∧ (ofNat k / ofNat n).units =
      roundQuotient ((ofNat k).units * unitsPerOne) (ofNat n).units := by
  apply div_spec (ofNat_spec hk).1 (ofNat_spec hn).1 (value_ofNat_pos hpos hn)
  calc (ofNat k).value ≤ (ofNat (2 ^ 64)).value := value_ofNat_mono hk le_rfl
    _ ≤ 2 ^ 65 := (value_ofNat_bounds (by positivity) le_rfl).2
    _ ≤ 2 ^ 200 * (1 / 2) := by norm_num
    _ ≤ 2 ^ 200 * (ofNat n).value := by
        gcongr
        exact (value_ofNat_bounds hpos hn).1

/-- A quotient of counts does not fall as the numerator grows and the denominator shrinks. -/
theorem div_ofNat_mono (hnum : k ≤ k') (hden : n' ≤ n) (hpos : 0 < n') (hk : k' ≤ 2 ^ 64)
    (hn : n ≤ 2 ^ 64) : (ofNat k / ofNat n).le (ofNat k' / ofNat n') = true := by
  have hspec := div_ofNat_spec (hnum.trans hk) (hpos.trans_le hden) hn
  have hspec' := div_ofNat_spec hk hpos (hden.trans hn)
  rw [le_iff hspec.1 hspec'.1, value_le_iff, hspec.2, hspec'.2]
  apply roundQuotient_mono
  · exact value_pos_iff.mp (value_ofNat_pos (hpos.trans_le hden) hn)
  · exact value_pos_iff.mp (value_ofNat_pos hpos (hden.trans hn))
  · apply Nat.mul_le_mul
    · exact Nat.mul_le_mul_right _ (value_le_iff.mp (value_ofNat_mono hnum hk))
    · exact value_le_iff.mp (value_ofNat_mono hden hn)

theorem ofNat_one_units : (ofNat 1).units = unitsPerOne := by
  rw [(ofNat_spec (by omega)).2, one_mul]
  exact roundQuotient_eq (by simpa using representable_mul_unitsPerOne (n := 1) (by omega))

/-- Counts that are represented exactly and differ have a quotient below one. -/
theorem div_ofNat_lt_one (h : k < n) (hn : n ≤ 2 ^ 53) :
    (ofNat k / ofNat n).lt (ofNat 1) = true := by
  have hpos : 0 < n := Nat.zero_lt_of_lt h
  have hspec := div_ofNat_spec (k := k) (by omega) hpos (hn.trans (by omega))
  have hunits : ∀ m ≤ 2 ^ 53, (ofNat m).units = m * unitsPerOne := by
    intro m hm
    rw [(ofNat_spec (hm.trans (by omega))).2, roundQuotient_eq (representable_mul_unitsPerOne hm)]
  obtain ⟨step, hstep, hone⟩ : ∃ e, 0 < 2 ^ e ∧ unitsPerOne = 2 ^ 53 * 2 ^ e :=
    ⟨1021, Nat.two_pow_pos _, by decide +kernel⟩
  -- The last number below one is `2 ^ 53 - 1` parts of `2 ^ 53`.
  have hlast : (ofNat k / ofNat n).units ≤ (2 ^ 53 - 1) * 2 ^ step := by
    rw [hspec.2, hunits k (by omega), hunits n hn]
    apply roundQuotient_le (Nat.mul_pos hpos unitsPerOne_pos)
      (Representable.mul_two_pow (by omega) step)
    rw [← Nat.mul_assoc]
    apply Nat.mul_le_mul_right
    calc k * unitsPerOne = k * 2 ^ 53 * 2 ^ step := by rw [hone, Nat.mul_assoc]
      _ ≤ (2 ^ 53 - 1) * n * 2 ^ step := Nat.mul_le_mul_right _ (by omega)
      _ = (2 ^ 53 - 1) * 2 ^ step * n := Nat.mul_right_comm _ _ _
  rw [lt_iff hspec.1 (ofNat_spec (by omega)).1, ← not_le, value_le_iff, ofNat_one_units, hone,
    not_le]
  calc (ofNat k / ofNat n).units ≤ (2 ^ 53 - 1) * 2 ^ step := hlast
    _ < 2 ^ 53 * 2 ^ step := Nat.mul_lt_mul_of_pos_right (by omega) hstep

/-- A number that is not negative is once in itself, or its quotient by itself is undefined. -/
theorem div_self_cases (hx : x.isNegative = false) : x / x = ofNat 1 ∨ (x / x).isNaN = true := by
  change div x x = ofNat 1 ∨ (div x x).isNaN = true
  have hundefined : notANumber.isNaN = true := by decide +kernel
  by_cases hnan : x.isNaN = true
  · right
    simp [div, hnan]
  by_cases hinfinite : x.isInfinite = true
  · right
    simpa [div, hnan, hinfinite] using hundefined
  by_cases hzero : x.units = 0
  · right
    simpa [div, hnan, hinfinite, hzero] using hundefined
  · left
    have hpos : 0 < x.units := Nat.pos_of_ne_zero hzero
    have hrep : Representable unitsPerOne := by
      simpa using representable_mul_unitsPerOne (n := 1) (by omega)
    have hround : roundQuotient (x.units * unitsPerOne) x.units = unitsPerOne := by
      rw [Nat.mul_comm]
      exact Nat.le_antisymm (roundQuotient_le hpos hrep le_rfl) (le_roundQuotient hpos hrep le_rfl)
    have hone : ofNat 1 = ofUnits false unitsPerOne := by
      rw [← ofNat_one_units, (ofNat_spec (by omega)).2]
      rfl
    simp [div, hnan, hinfinite, hzero, hx, hround, hone]

theorem div_ofNat_self (hpos : 0 < n) (hn : n ≤ 2 ^ 64) : ofNat n / ofNat n = ofNat 1 := by
  rcases div_self_cases (ofNat_spec hn).1.nonneg with hone | hnan
  · exact hone
  · rw [(div_ofNat_spec hn hpos hn).1.isNaN_eq] at hnan
    cases hnan

protected theorem le_trans (hxy : x.le y = true) (hyz : y.le z = true) : x.le z = true := by
  simp only [le, Bool.and_eq_true, Bool.not_eq_true', decide_eq_true_eq] at hxy hyz ⊢
  exact ⟨⟨hxy.1.1, hyz.1.2⟩, Int.le_trans hxy.2 hyz.2⟩

/-! ## Signs -/

theorem isNegative_ofMagnitude {m : Nat} (h : m < 2 ^ 63) :
    (ofMagnitude false m).isNegative = false := by
  have hbits : (ofMagnitude false m).bits.toNat = m := by
    rw [ofMagnitude, if_neg (by simp), UInt64.toNat_ofNat']
    omega
  rw [isNegative, hbits, decide_eq_false_iff_not, Nat.pow_eq]
  omega

theorem isNegative_ofUnits {u : Nat} (h : Representable u) :
    (ofUnits false u).isNegative = false := by
  have hinfinity : infinityMagnitude < 2 ^ 63 := by decide +kernel
  by_cases hlt : u < unitsLimit
  · rw [ofUnits, if_pos hlt]
    exact isNegative_ofMagnitude ((h.magnitudeOfUnits_lt hlt).trans hinfinity)
  · rw [ofUnits, if_neg hlt]
    exact isNegative_ofMagnitude hinfinity

theorem isNegative_ofNat (n : Nat) : (ofNat n).isNegative = false := by
  rw [ofNat, ofQuotient]
  exact isNegative_ofUnits (representable_roundQuotient Nat.one_pos)

theorem isNegative_div (hx : x.isNegative = false) (hy : y.isNegative = false) :
    (x / y).isNegative = false := by
  change (div x y).isNegative = false
  have hundefined : notANumber.isNegative = false := by decide +kernel
  have hinfinity : (infinity false).isNegative = false := by decide +kernel
  have hzero : (zero false).isNegative = false := by decide +kernel
  simp only [div, hx, hy, bne_self_eq_false]
  split_ifs
  · exact hx
  · exact hy
  · exact hundefined
  · exact hinfinity
  · exact hzero
  · exact hundefined
  · exact hinfinity
  next hunits =>
    exact isNegative_ofUnits (representable_roundQuotient (Nat.pos_of_ne_zero hunits))

/-! ## Numbers below others in the total order -/

theorem eq_of_totalKey_eq (h : x.totalKey = y.totalKey) : x = y := by
  have hx := x.bits.toNat_lt
  have hy := y.bits.toNat_lt
  have hbits : x.bits.toNat = y.bits.toNat := by
    simp only [totalKey, isNegative, magnitude, Nat.pow_eq, decide_eq_true_eq] at h
    split_ifs at h <;> omega
  obtain ⟨bits⟩ := x
  obtain ⟨bits'⟩ := y
  exact congrArg mk (UInt64.toNat_inj.mp hbits)

theorem totalKey_le_valueKey (x : Binary64) : x.totalKey ≤ x.valueKey := by
  unfold totalKey valueKey
  split <;> omega

/-- A number below a finite one comes before whatever has no sign and is not below it. -/
theorem totalKey_lt_totalKey (hy : y.IsFinite) (hx : x.lt y = true) (hz : z.lt y = false)
    (hsign : z.isNegative = false) : x.totalKey < z.totalKey := by
  obtain ⟨-, -, hlt⟩ : x.isNaN = false ∧ y.isNaN = false ∧ x.valueKey < y.valueKey := by
    simpa [lt, and_assoc] using hx
  have hykey : y.valueKey = y.magnitude := by simp [valueKey, hy.nonneg]
  have hzkey : z.totalKey = z.magnitude := by simp [totalKey, hsign]
  have hle : y.magnitude ≤ z.magnitude := by
    by_cases hnan : z.isNaN = true
    · have : infinityMagnitude < z.magnitude := by simpa [isNaN] using hnan
      exact (hy.finite.trans this).le
    · simpa [lt, hnan, hy.isNaN_eq, valueKey, hy.nonneg, hsign] using hz
  calc x.totalKey ≤ x.valueKey := totalKey_le_valueKey x
    _ < y.valueKey := hlt
    _ = (y.magnitude : ℤ) := hykey
    _ ≤ (z.magnitude : ℤ) := Int.ofNat_le.mpr hle
    _ = z.totalKey := hzkey.symm

end BundledReading.Numeric.Binary64

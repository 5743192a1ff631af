import BundledReading.Numeric.Notation
import BundledReading.Proofs.NumberTexts
import BundledReading.Proofs.ShortestDecimals

/-!
# Written numbers

How a number is written without an exponent is told by the digits of its shortest decimal and the
place of their point. There is one way to write a number, and whatever is a number is read back from
how it is written.
-/

namespace BundledReading.Numeric

/-! ## Places -/

/-- A decimal without an exponent: zeros behind its digits, a point among them, or a point and zeros
in front of them. -/
inductive Decimal.Positional (d : Decimal) : List Char → Prop
  | whole (h : 0 ≤ d.exponent) :
      d.Positional (d.digits ++ List.replicate d.exponent.toNat '0')
  | pointed {front back : List Char} (hdigits : d.digits = front ++ back) (hfront : front ≠ [])
      (hback : back.length = -d.exponent) (h : d.exponent < 0) :
      d.Positional (front ++ '.' :: back)
  | small {zeros : Nat} (h : (zeros + d.digits.length : Int) = -d.exponent) :
      d.Positional ('0' :: '.' :: (List.replicate zeros '0' ++ d.digits))

namespace Decimal

variable {d : Decimal} {body : List Char}

theorem digits_ne_nil (d : Decimal) : d.digits ≠ [] := Nat.toDigits_ne_nil

theorem isDigit_of_mem_digits {c : Char} (h : c ∈ d.digits) : c.isDigit :=
  Nat.isDigit_of_mem_toDigits (by norm_num) (by norm_num) h

theorem ofDigitChars_digits (d : Decimal) : Nat.ofDigitChars 10 d.digits 0 = d.coefficient :=
  Nat.ofDigitChars_ten_toDigits

/-- A decimal is written in one way. -/
theorem positional_iff : d.Positional body ↔ NumberForm.plain.positional d = body := by
  have hpos : 0 < d.digits.length := List.length_pos_iff.mpr d.digits_ne_nil
  unfold NumberForm.positional
  dsimp only
  constructor
  · intro h
    cases h with
    | whole h =>
        rw [if_pos h]
        exact List.append_nil _
    | @pointed front back hdigits hfront hback h =>
        have hplaces : (-d.exponent).toNat = back.length := by omega
        have hfilled := List.length_pos_iff.mpr hfront
        rw [if_neg (not_le.mpr h), hplaces, hdigits, List.length_append, if_pos (by omega),
          Nat.add_sub_cancel, List.take_left, List.drop_left]
    | @small zeros h =>
        have hplaces : (-d.exponent).toNat = zeros + d.digits.length := by omega
        rw [if_neg (by omega), hplaces, if_neg (by omega), Nat.add_sub_cancel]
        rfl
  · rintro rfl
    split
    next h => exact (List.append_nil _).symm ▸ .whole h
    next h =>
      split
      next hless =>
        refine .pointed (List.take_append_drop _ _).symm ?_ ?_ (by omega)
        · rw [← List.length_pos_iff, List.length_take]
          omega
        · rw [List.length_drop]
          omega
      next hmore => exact .small (by omega)

/-- What is written without an exponent spells the value of the decimal. -/
theorem Positional.exists_decimalText (h : d.Positional body) :
    ∃ coefficient exponent, Binary64.DecimalText body coefficient exponent ∧
      (coefficient * 10 ^ exponent : ℚ) = d.value := by
  have hdigit : ∀ c ∈ d.digits, c.isDigit := fun c hc => isDigit_of_mem_digits hc
  have hzero (count : Nat) : ∀ c ∈ List.replicate count '0', c.isDigit := by
    intro c hc
    rw [List.eq_of_mem_replicate hc]
    rfl
  have hnone : Binary64.ExponentText [] 0 := .absent
  cases h with
  | whole h =>
      have htext := Binary64.DecimalText.whole
        (List.append_ne_nil_of_left_ne_nil d.digits_ne_nil (List.replicate d.exponent.toNat '0'))
        (List.forall_mem_append.mpr ⟨hdigit, hzero _⟩) hnone
      rw [List.append_nil, Nat.ofDigitChars_append, ofDigitChars_digits,
        Nat.ofDigitChars_replicate_zero] at htext
      refine ⟨_, _, htext, ?_⟩
      obtain ⟨k, hk⟩ := Int.eq_ofNat_of_zero_le h
      rw [value, hk, Int.toNat_natCast, zpow_zero, zpow_natCast]
      push_cast
      ring
  | @pointed front back hdigits hfront hback h =>
      rw [hdigits, List.forall_mem_append] at hdigit
      have htext := Binary64.DecimalText.pointed
        (List.append_ne_nil_of_left_ne_nil hfront back) hdigit.1 hdigit.2 hnone
      rw [List.append_nil, ← hdigits, ofDigitChars_digits, hback, zero_sub, neg_neg] at htext
      exact ⟨_, _, htext, rfl⟩
  | @small zeros h =>
      have hplaces := List.forall_mem_append.mpr ⟨hzero zeros, hdigit⟩
      have htext := Binary64.DecimalText.pointed (List.cons_ne_nil '0' _) (hzero 1) hplaces hnone
      have hcoefficient : Nat.ofDigitChars 10
          (List.replicate 1 '0' ++ (List.replicate zeros '0' ++ d.digits)) 0 = d.coefficient := by
        rw [Nat.ofDigitChars_append, Nat.ofDigitChars_append, Nat.ofDigitChars_replicate_zero,
          Nat.ofDigitChars_replicate_zero, Nat.mul_zero, ofDigitChars_digits]
      have hexponent : 0 - ((List.replicate zeros '0' ++ d.digits).length : Int) = d.exponent := by
        rw [List.length_append, List.length_replicate]
        omega
      rw [List.append_nil, hcoefficient, hexponent] at htext
      exact ⟨_, _, htext, rfl⟩

end Decimal

namespace Binary64

/-! ## Numbers -/

/-- A minus sign in front of a negative number. -/
def signMark (x : Binary64) : List Char := if x.isNegative then ['-'] else []

/-- How a number is written without an exponent. What is not a number shows no sign. -/
inductive Writes (x : Binary64) : List Char → Prop
  | undefined (h : x.isNaN) : x.Writes "NaN".toList
  | infinite (h : x.isInfinite) : x.Writes (x.signMark ++ "inf".toList)
  | zero (h : x.magnitude = 0) : x.Writes (x.signMark ++ ['0'])
  | decimal {d : Decimal} {body : List Char} (hpos : 0 < x.magnitude)
      (hfinite : x.magnitude < infinityMagnitude) (hd : x.IsShortest d)
      (hbody : d.Positional body) : x.Writes (x.signMark ++ body)

section Writes

variable {x : Binary64} {d : Decimal} {cs : List Char}

/-- What reads back is neither so large nor so small that an exponent is written. -/
theorem leading_bounds (hpos : 0 < x.magnitude) (hfinite : x.magnitude < infinityMagnitude)
    (h : x.IsNearest x.isNegative d.value) :
    -400 ≤ d.exponent + d.digits.length - 1 ∧ d.exponent + d.digits.length - 1 < 400 := by
  obtain ⟨m, hm⟩ := Nat.exists_eq_succ_of_ne_zero hpos.ne'
  obtain ⟨places, hplaces, hlow, hhigh⟩ := d.value_bounds (coefficient_pos hm h)
  have hlarge : d.value < 10 ^ (400 : Int) := by
    have hbelow := patternValue_strictMono hfinite
    have hnearest := h.nearest infinityMagnitude le_rfl
    rw [abs_sub_le_abs_sub_iff hbelow] at hnearest
    have hless : d.value < patternValue infinityMagnitude := by linarith
    exact hless.trans_le (patternValue_infinity_le.trans_eq (zpow_natCast 10 400).symm)
  have hsmall : (10 : ℚ) ^ (-400 : Int) ≤ d.value := by
    have habove := patternValue_strictMono hpos
    have hnearest := h.nearest 0 (Nat.zero_le _)
    rw [← not_lt, abs_sub_lt_abs_sub_iff habove, not_lt, patternValue_zero, zero_add] at hnearest
    have hleast := patternValue_strictMono.monotone (Nat.succ_le_of_lt hpos)
    have hinverse : (10 : ℚ) ^ (-400 : Int) = (10 ^ 400)⁻¹ := zpow_neg 10 400
    rw [hinverse]
    exact le_of_mul_le_mul_left (le_patternValue_one.trans (hleast.trans hnearest)) two_pos
  have hten : (1 : ℚ) < 10 := by norm_num
  have hup := (zpow_lt_zpow_iff_right₀ hten).mp (hlow.trans_lt hlarge)
  have hdown := (zpow_lt_zpow_iff_right₀ hten).mp (hsmall.trans_lt hhigh)
  rw [hplaces]
  omega

theorem units_eq_zero_iff : x.units = 0 ↔ x.magnitude = 0 := by
  have hzero : unitsOfMagnitude 0 = 0 := unitsOfMagnitude_of_lt (Nat.two_pow_pos 52)
  rw [units, ← hzero]
  exact unitsOfMagnitude_strictMono.injective.eq_iff

/-- A number is written as its shortest decimal. -/
theorem write_of_isShortest (hpos : 0 < x.magnitude) (hfinite : x.magnitude < infinityMagnitude)
    (hd : x.IsShortest d) :
    (NumberForm.plain.write x).toList = x.signMark ++ NumberForm.plain.positional d := by
  have hnumber : x.isNaN = false := decide_eq_false hfinite.le.not_gt
  have hinfinite : x.isInfinite = false := decide_eq_false hfinite.ne
  have hunits : x.units ≠ 0 := units_eq_zero_iff.not.mpr hpos.ne'
  have hfound : shortest NumberForm.plain.tie x.units = d :=
    (isShortest_shortest hpos hfinite).unique hd
  obtain ⟨hleast, hmost⟩ := leading_bounds hpos hfinite hd.reads
  have hplain : (decide (NumberForm.plain.leastPositional ≤ d.exponent + d.digits.length - 1) &&
      decide (d.exponent + d.digits.length - 1 < NumberForm.plain.leastScientific)) = true :=
    Bool.and_eq_true_iff.mpr ⟨decide_eq_true hleast, decide_eq_true hmost⟩
  simp only [NumberForm.write, hnumber, hinfinite, hunits, Bool.false_eq_true, if_false,
    String.toList_ofList, hfound, hplain, if_true]
  rfl

theorem write_of_isNaN (h : x.isNaN) : (NumberForm.plain.write x).toList = "NaN".toList := by
  simp only [NumberForm.write, h, if_true]

theorem write_of_isInfinite (h : x.isInfinite) :
    (NumberForm.plain.write x).toList = x.signMark ++ "inf".toList := by
  have hnumber : x.isNaN = false := decide_eq_false (of_decide_eq_true h).le.not_gt
  simp only [NumberForm.write, hnumber, h, Bool.false_eq_true, if_false, if_true,
    String.toList_ofList]
  rfl

theorem write_of_zero (h : x.magnitude = 0) :
    (NumberForm.plain.write x).toList = x.signMark ++ ['0'] := by
  have hless : x.magnitude < infinityMagnitude := by
    rw [h]
    decide
  have hnumber : x.isNaN = false := decide_eq_false hless.le.not_gt
  have hinfinite : x.isInfinite = false := decide_eq_false hless.ne
  simp only [NumberForm.write, hnumber, hinfinite, units_eq_zero_iff.mpr h, Bool.false_eq_true,
    if_false, if_true, String.toList_ofList]
  rfl

/-- A number is written in one way. -/
theorem writes_iff : x.Writes cs ↔ (NumberForm.plain.write x).toList = cs := by
  constructor
  · intro h
    cases h with
    | undefined h => exact write_of_isNaN h
    | infinite h => exact write_of_isInfinite h
    | zero h => exact write_of_zero h
    | decimal hpos hfinite hd hbody =>
        rw [write_of_isShortest hpos hfinite hd, Decimal.positional_iff.mp hbody]
  · rintro rfl
    rcases Nat.eq_zero_or_pos x.magnitude with hzero | hpos
    · rw [write_of_zero hzero]
      exact .zero hzero
    rcases lt_trichotomy x.magnitude infinityMagnitude with hfinite | hinfinite | hnumber
    · have hd := isShortest_shortest hpos hfinite
      rw [write_of_isShortest hpos hfinite hd]
      exact .decimal hpos hfinite hd (Decimal.positional_iff.mpr rfl)
    · rw [write_of_isInfinite (decide_eq_true hinfinite)]
      exact .infinite (decide_eq_true hinfinite)
    · rw [write_of_isNaN (decide_eq_true hnumber)]
      exact .undefined (decide_eq_true hnumber)

theorem signed_signMark (x : Binary64) (body : List Char) :
    Signed (x.signMark ++ body) x.isNegative body := by
  unfold signMark
  cases x.isNegative with
  | false => exact .bare body
  | true => exact .minus body

/-- A number is told by its sign and its pattern. -/
theorem eq_ofMagnitude (x : Binary64) : x = ofMagnitude x.isNegative x.magnitude := by
  have hlt : x.magnitude < 2 ^ 63 := Nat.mod_lt _ (Nat.two_pow_pos 63)
  obtain ⟨hsign, hmagnitude⟩ := ofMagnitude_facts x.isNegative hlt
  apply eq_of_totalKey_eq
  rw [totalKey, totalKey, hsign, hmagnitude]

/-- What is a number is spelled by how it is written. -/
theorem Writes.spells (h : x.Writes cs) (hnumber : x.isNaN = false) : Spells cs x := by
  have hsign (body : List Char) := x.signed_signMark body
  cases h with
  | undefined h => cases hnumber.symm.trans h
  | infinite h =>
      refine .infinite (hsign _) (.inl (by decide)) ?_
      rw [infinity, ← of_decide_eq_true h]
      exact x.eq_ofMagnitude
  | zero h =>
      have htext : DecimalText ['0'] 0 0 := .whole (List.cons_ne_nil '0' []) (by simp) .absent
      refine .decimal (hsign _) htext ?_
      rw [Nat.cast_zero, zero_mul]
      have hnearest : (ofMagnitude x.isNegative 0).IsNearest x.isNegative 0 :=
        isNearest_zero le_rfl ((mul_zero _).trans_le (patternValue_nonneg 1))
      rw [← h, ← x.eq_ofMagnitude] at hnearest
      exact hnearest
  | decimal hpos hfinite hd hbody =>
      obtain ⟨coefficient, exponent, htext, hvalue⟩ := hbody.exists_decimalText
      exact .decimal (hsign _) htext (hvalue ▸ hd.reads)

/-- What is a number is read back from how it is written. -/
theorem parse?_write (h : x.isNaN = false) : parse? (NumberForm.plain.write x) = some x :=
  parse?_eq_some_iff.mpr ((writes_iff.mpr rfl).spells h)

end Writes

end Binary64

end BundledReading.Numeric

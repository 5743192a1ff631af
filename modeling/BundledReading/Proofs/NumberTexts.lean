import BundledReading.Proofs.NearestNumbers
import Mathlib.Data.List.TakeWhile

/-!
# Numbers as texts

Which texts spell a number, and which number, is told by how they are put together: an optional
sign, digits with an optional point, an optional exponent, or a name. The number of a decimal is the
one nearest to its value.
-/

namespace BundledReading.Numeric

/-! ## Digits at the front -/

section Digits

variable {cs ds rest : List Char}

/-- Nothing, or something that does not begin with a digit. -/
def NoDigit (rest : List Char) : Prop := ∀ c ∈ rest.head?, c.isDigit = false

/-- What is of a kind is taken off what does not begin with it. -/
theorem span_append_of_head {p : Char → Bool} (hds : ∀ c ∈ ds, p c = true)
    (hrest : ∀ c ∈ rest.head?, p c = false) : (ds ++ rest).span p = (ds, rest) := by
  rw [List.span_eq_takeWhile_dropWhile, List.takeWhile_append_of_pos hds,
    List.dropWhile_append_of_pos hds]
  cases rest with
  | nil => simp
  | cons c rest => simp [hrest c rfl]

theorem dropWhile_append_of_head {p : Char → Bool} (hds : ∀ c ∈ ds, p c = true)
    (hrest : ∀ c ∈ rest.head?, p c = false) : (ds ++ rest).dropWhile p = rest := by
  have hspan := span_append_of_head hds hrest
  rw [List.span_eq_takeWhile_dropWhile] at hspan
  exact (Prod.mk.inj hspan).2

theorem spanDigits_append (hdigits : ∀ c ∈ ds, c.isDigit) (hrest : NoDigit rest) :
    spanDigits (ds ++ rest) = (ds, rest) := span_append_of_head hdigits hrest

theorem of_spanDigits (h : spanDigits cs = (ds, rest)) :
    cs = ds ++ rest ∧ (∀ c ∈ ds, c.isDigit) ∧ NoDigit rest := by
  rw [spanDigits, List.span_eq_takeWhile_dropWhile] at h
  obtain ⟨rfl, rfl⟩ := Prod.mk.inj h
  refine ⟨List.takeWhile_append_dropWhile.symm, fun c hc => List.mem_takeWhile_imp hc, ?_⟩
  intro c hc
  have hhead := List.head?_dropWhile_not Char.isDigit cs
  rwa [Option.mem_def.mp hc] at hhead

/-- Without a point there is no fraction. -/
theorem spanFraction_of_ne (h : rest.head? ≠ some '.') : spanFraction rest = ([], rest) := by
  unfold spanFraction
  split
  · exact absurd rfl h
  · rfl

end Digits

namespace Binary64

/-! ## Forms -/

/-- An optional sign in front of something. -/
inductive Signed : List Char → Bool → List Char → Prop
  | bare (cs : List Char) : Signed cs false cs
  | plus (cs : List Char) : Signed ('+' :: cs) false cs
  | minus (cs : List Char) : Signed ('-' :: cs) true cs

/-- An exponent, or nothing. -/
inductive ExponentText : List Char → Int → Prop
  | absent : ExponentText [] 0
  | present {mark : Char} {cs ds : List Char} {negative : Bool} (hmark : mark = 'e' ∨ mark = 'E')
      (hsign : Signed cs negative ds) (hds : ds ≠ []) (hdigits : ∀ c ∈ ds, c.isDigit) :
      ExponentText (mark :: cs)
        (if negative then -(Nat.ofDigitChars 10 ds 0 : Int) else Nat.ofDigitChars 10 ds 0)

/-- Digits, perhaps with a point among them, and an exponent: a coefficient times a power of ten. -/
inductive DecimalText : List Char → Nat → Int → Prop
  | whole {ds rest : List Char} {exponent : Int} (hds : ds ≠ []) (hdigits : ∀ c ∈ ds, c.isDigit)
      (hexponent : ExponentText rest exponent) :
      DecimalText (ds ++ rest) (Nat.ofDigitChars 10 ds 0) exponent
  | pointed {ds places rest : List Char} {exponent : Int} (hds : ds ++ places ≠ [])
      (hdigits : ∀ c ∈ ds, c.isDigit) (hplaces : ∀ c ∈ places, c.isDigit)
      (hexponent : ExponentText rest exponent) :
      DecimalText (ds ++ '.' :: (places ++ rest)) (Nat.ofDigitChars 10 (ds ++ places) 0)
        (exponent - places.length)

/-- The number that a text spells: a name in any case, or a decimal, with an optional sign. -/
inductive Spells (text : List Char) (x : Binary64) : Prop
  | infinite {negative : Bool} {body : List Char} (hsign : Signed text negative body)
      (hname : body.map Char.toLower = "inf".toList ∨ body.map Char.toLower = "infinity".toList)
      (h : x = infinity negative)
  | undefined {negative : Bool} {body : List Char} (hsign : Signed text negative body)
      (hname : body.map Char.toLower = "nan".toList)
      (h : x = ofMagnitude negative notANumber.magnitude)
  | decimal {negative : Bool} {body : List Char} {coefficient : Nat} {exponent : Int}
      (hsign : Signed text negative body) (hbody : DecimalText body coefficient exponent)
      (h : x.IsNearest negative (coefficient * 10 ^ exponent))

/-! ## Signs -/

theorem signed_takeSign (cs : List Char) : Signed cs (takeSign cs).1 (takeSign cs).2 := by
  unfold takeSign
  split
  · exact .minus _
  · exact .plus _
  · exact .bare _

theorem Signed.append {cs body : List Char} {negative : Bool} (h : Signed cs negative body)
    (rest : List Char) : Signed (cs ++ rest) negative (body ++ rest) := by
  cases h with
  | bare => exact .bare _
  | plus => exact .plus _
  | minus => exact .minus _

/-- What stands behind a body stands behind its sign too. -/
theorem Signed.exists_front {cs body rest : List Char} {negative : Bool}
    (h : Signed cs negative (body ++ rest)) :
    ∃ front, cs = front ++ rest ∧ Signed front negative body := by
  cases h with
  | bare => exact ⟨_, rfl, .bare body⟩
  | plus => exact ⟨_, rfl, .plus body⟩
  | minus => exact ⟨_, rfl, .minus body⟩

/-- A sign is taken off unless another one follows. -/
theorem takeSign_of_signed {cs body : List Char} {negative : Bool} (h : Signed cs negative body)
    (hbody : ∀ c ∈ body.head?, c ≠ '-' ∧ c ≠ '+') : takeSign cs = (negative, body) := by
  cases h with
  | plus => rfl
  | minus => rfl
  | bare =>
      unfold takeSign
      split
      · exact absurd rfl (hbody _ rfl).1
      · exact absurd rfl (hbody _ rfl).2
      · rfl

/-! ## Decimals -/

section Decimals

variable {cs body rest : List Char} {coefficient : Nat} {exponent : Int} {negative : Bool}
  {x : Binary64}

theorem ne_sign_of_isDigit {c : Char} (h : c.isDigit) : c ≠ '-' ∧ c ≠ '+' := by
  constructor <;> rintro rfl <;> cases h

theorem ExponentText.parse_eq (h : ExponentText rest exponent) :
    parseExponent? rest = some exponent := by
  cases h with
  | absent => rfl
  | @present mark cs ds negative hmark hsign hds hdigits =>
      have hhead : ∀ c ∈ ds.head?, c ≠ '-' ∧ c ≠ '+' := fun c hc =>
        ne_sign_of_isDigit (hdigits c (List.mem_of_head? hc))
      simpa [parseExponent?, takeSign_of_signed hsign hhead, hmark, hds] using hdigits

theorem exponentText_of_parse (h : parseExponent? rest = some exponent) :
    ExponentText rest exponent := by
  unfold parseExponent? at h
  split at h
  · cases h
    exact .absent
  · split at h
    next mark cs hmark =>
      dsimp only at h
      split at h
      · cases h
      next hds =>
        cases h
        simp only [Bool.or_eq_true, List.isEmpty_iff, Bool.not_eq_true', not_or,
          Bool.not_eq_false, List.all_eq_true] at hds
        exact .present (by simpa using hmark) (signed_takeSign cs) hds.1 hds.2
    · cases h

theorem ExponentText.noDigit (h : ExponentText rest exponent) : NoDigit rest := by
  cases h with
  | absent => simp [NoDigit]
  | present hmark => rcases hmark with rfl | rfl <;> simp [NoDigit]

theorem ExponentText.head?_ne (h : ExponentText rest exponent) : rest.head? ≠ some '.' := by
  cases h with
  | absent => simp
  | present hmark => rcases hmark with rfl | rfl <;> simp

theorem DecimalText.parse_eq (negative : Bool) (h : DecimalText body coefficient exponent) :
    parseDecimal? negative body = some (ofDecimal negative coefficient exponent) := by
  cases h with
  | @whole ds rest exponent hds hdigits hexponent =>
      rw [parseDecimal?, spanDigits_append hdigits hexponent.noDigit]
      simp [spanFraction_of_ne hexponent.head?_ne, hds, hexponent.parse_eq]
  | @pointed ds places rest exponent hds hdigits hplaces hexponent =>
      have hpoint : NoDigit ('.' :: (places ++ rest)) := by simp [NoDigit]
      have hplaces' : spanFraction ('.' :: (places ++ rest)) = (places, rest) :=
        spanDigits_append hplaces hexponent.noDigit
      have hfilled : (ds.isEmpty && places.isEmpty) = false := by
        simpa [List.append_eq_nil_iff] using hds
      rw [parseDecimal?, spanDigits_append hdigits hpoint]
      simp [hplaces', hfilled, hexponent.parse_eq]

theorem decimalText_of_parse (h : parseDecimal? negative body = some x) :
    ∃ coefficient exponent, DecimalText body coefficient exponent ∧
      x = ofDecimal negative coefficient exponent := by
  unfold parseDecimal? at h
  cases hspan : spanDigits body with
  | mk ds rest =>
      obtain ⟨rfl, hdigits, hrest⟩ := of_spanDigits hspan
      rw [hspan] at h
      by_cases hpoint : rest.head? = some '.'
      · obtain ⟨more, rfl⟩ := List.head?_eq_some_iff.mp hpoint
        cases hplaces : spanDigits more with
        | mk places rest =>
            obtain ⟨rfl, hplacesDigits, -⟩ := of_spanDigits hplaces
            have hfraction : spanFraction ('.' :: (places ++ rest)) = (places, rest) := hplaces
            simp only [hfraction] at h
            split at h
            · cases h
            next hfilled =>
              obtain ⟨exponent, hexponent, heq⟩ := Option.bind_eq_some_iff.mp h
              refine ⟨_, _, .pointed ?_ hdigits hplacesDigits (exponentText_of_parse hexponent),
                (Option.some.inj heq).symm⟩
              simpa [List.append_eq_nil_iff] using hfilled
      · simp only [spanFraction_of_ne hpoint] at h
        split at h
        · cases h
        next hfilled =>
          obtain ⟨exponent, hexponent, heq⟩ := Option.bind_eq_some_iff.mp h
          refine ⟨_, _, .whole ?_ hdigits (exponentText_of_parse hexponent), ?_⟩
          · simpa using hfilled
          · simpa using (Option.some.inj heq).symm

/-- What a decimal begins with. -/
theorem DecimalText.head (h : DecimalText body coefficient exponent) :
    ∃ c rest, body = c :: rest ∧ (c.isDigit ∨ c = '.') := by
  cases h with
  | whole hds hdigits =>
      obtain ⟨c, ds, rfl⟩ := List.exists_cons_of_ne_nil hds
      exact ⟨c, _, rfl, .inl (hdigits c List.mem_cons_self)⟩
  | @pointed ds places rest exponent hds hdigits =>
      cases ds with
      | nil => exact ⟨'.', _, rfl, .inr rfl⟩
      | cons c ds => exact ⟨c, _, rfl, .inl (hdigits c List.mem_cons_self)⟩

end Decimals

/-! ## Texts -/

section Texts

variable {text : String} {body : List Char} {negative : Bool} {x : Binary64}

/-- The names of numbers, in lower case. -/
def names : List (List Char) := ["inf".toList, "infinity".toList, "nan".toList]

/-- No sign stands at the beginning of a name. -/
theorem ne_sign_of_name (h : body.map Char.toLower ∈ names) :
    ∀ c ∈ body.head?, c ≠ '-' ∧ c ≠ '+' := by
  intro c hc
  obtain ⟨rest, rfl⟩ := List.head?_eq_some_iff.mp hc
  constructor <;> rintro rfl <;> simp [names] at h

theorem toLower_eq_self {c : Char} (h : c.isDigit ∨ c = '.') : c.toLower = c := by
  have hletter : ¬(c.val ≥ 'A'.val ∧ c.val ≤ 'Z'.val) := by
    rintro ⟨hupper, -⟩
    rcases h with hdigit | rfl
    · have hlast : c.val ≤ '9'.val := of_decide_eq_true (Bool.and_eq_true_iff.mp hdigit).2
      exact absurd (UInt32.le_trans hupper hlast) (by decide)
    · exact absurd hupper (by decide)
  exact dif_neg hletter

/-- No name is a decimal. -/
theorem DecimalText.not_name {coefficient : Nat} {exponent : Int}
    (h : DecimalText body coefficient exponent) : body.map Char.toLower ∉ names := by
  obtain ⟨c, rest, rfl, hc⟩ := h.head
  intro hname
  rw [List.map_cons, toLower_eq_self hc] at hname
  have hletter : c = 'i' ∨ c = 'n' := by
    rcases List.mem_cons.mp hname with heq | hname
    · exact .inl (List.cons.inj heq).1
    · rcases List.mem_pair.mp hname with heq | heq
      · exact .inl (List.cons.inj heq).1
      · exact .inr (List.cons.inj heq).1
  rcases hletter with rfl | rfl <;> revert hc <;> decide

/-- A text is read as a number exactly if it spells it. -/
theorem parse?_eq_some_iff : parse? text = some x ↔ Spells text.toList x := by
  have hinf : ['i', 'n', 'f'] = "inf".toList := rfl
  have hinfinity : ['i', 'n', 'f', 'i', 'n', 'i', 't', 'y'] = "infinity".toList := rfl
  have hnan : ['n', 'a', 'n'] = "nan".toList := rfl
  unfold parse?
  simp only [hinf, hinfinity, hnan, Bool.or_eq_true, decide_eq_true_eq]
  constructor
  · intro h
    have hsign := signed_takeSign text.toList
    split at h
    next hname => exact .infinite hsign hname (Option.some.inj h).symm
    · split at h
      next hname => exact .undefined hsign hname (Option.some.inj h).symm
      · obtain ⟨coefficient, exponent, hbody, rfl⟩ := decimalText_of_parse h
        exact .decimal hsign hbody (isNearest_ofDecimal _ coefficient exponent)
  · intro h
    cases h with
    | @infinite negative body hsign hname heq =>
        have hmem : body.map Char.toLower ∈ names := by rcases hname with h | h <;> simp [names, h]
        rw [takeSign_of_signed hsign (ne_sign_of_name hmem), if_pos hname, heq]
    | @undefined negative body hsign hname heq =>
        have hmem : body.map Char.toLower ∈ names := by simp [names, hname]
        rw [takeSign_of_signed hsign (ne_sign_of_name hmem), hname, heq]
        rfl
    | @decimal negative body coefficient exponent hsign hbody hnearest =>
        obtain ⟨c, rest, hhead, hc⟩ := hbody.head
        have hnot := hbody.not_name
        have hsigned : ∀ c ∈ body.head?, c ≠ '-' ∧ c ≠ '+' := by
          rw [hhead]
          rintro _ ⟨⟩
          rcases hc with hdigit | rfl
          · exact ne_sign_of_isDigit hdigit
          · decide
        simp only [names, List.mem_cons, List.not_mem_nil, or_false, not_or] at hnot
        rw [takeSign_of_signed hsign hsigned, if_neg (not_or.mpr ⟨hnot.1, hnot.2.1⟩),
          if_neg hnot.2.2,
          hbody.parse_eq, hnearest.unique (isNearest_ofDecimal negative coefficient exponent)]

end Texts

end Binary64

end BundledReading.Numeric

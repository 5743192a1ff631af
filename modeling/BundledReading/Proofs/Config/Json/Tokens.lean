import BundledReading.Proofs.Config.DistinctKeys
import BundledReading.Proofs.NumberTexts

/-!
# JSON tokens

How blanks, texts and numbers are written in JSON, and what they say, is told by inductive relations
on lists of characters. The reader takes a token off the front of a list exactly if one is written
there. A number that is not whole, or does not fit 64 bits, is what the scaling of its digits gives.
-/

namespace BundledReading.Config.Json

open Numeric (Binary64 NoDigit spanDigits_append of_spanDigits)

/-! ## Blanks -/

/-- Blanks only. -/
def Blanks (cs : List Char) : Prop := ∀ c ∈ cs, c ∈ [' ', '\n', '\t', '\r']

/-- Nothing, or something that does not begin with a blank. -/
def NoBlank (cs : List Char) : Prop := ∀ c ∈ cs.head?, c ∉ [' ', '\n', '\t', '\r']

section Blanks

variable {before cs rest : List Char}

theorem skipBlanks_append (h : Blanks before) (hrest : NoBlank rest) :
    skipBlanks (before ++ rest) = rest := by
  apply Numeric.dropWhile_append_of_head
  · simpa [Blanks, or_assoc] using h
  · intro c hc
    simpa [and_assoc] using hrest c hc

theorem NoBlank.skipBlanks_eq (h : NoBlank rest) : skipBlanks rest = rest :=
  skipBlanks_append (List.forall_mem_nil _) h

theorem noBlank_cons {c : Char} (h : c ∉ [' ', '\n', '\t', '\r']) (rest : List Char) :
    NoBlank (c :: rest) := by
  rintro _ ⟨⟩
  exact h

theorem not_blank_of_isDigit {d : Char} (h : d.isDigit) : d ∉ [' ', '\n', '\t', '\r'] := by
  intro hblank
  simp only [List.mem_cons, List.not_mem_nil, or_false] at hblank
  obtain rfl | rfl | rfl | rfl := hblank <;> cases h

theorem exists_blanks (cs : List Char) :
    ∃ before, cs = before ++ skipBlanks cs ∧ Blanks before ∧ NoBlank (skipBlanks cs) := by
  refine ⟨_, (List.takeWhile_append_dropWhile).symm, ?_, ?_⟩
  · intro c hc
    have hblank := List.mem_takeWhile_imp hc
    simpa [or_assoc] using hblank
  · intro c hc
    have hhead := List.head?_dropWhile_not (fun c => c = ' ' || c = '\n' || c = '\t' || c = '\r') cs
    rw [skipBlanks] at hc
    rw [Option.mem_def.mp hc] at hhead
    simpa [and_assoc] using hhead

end Blanks

/-! ## Texts -/

/-- Four hexadecimal digits and their number. -/
inductive HexUnit : List Char → Nat → Prop
  | intro {a b c d : Char} {i j k l : Nat} (ha : hexValue? a = some i) (hb : hexValue? b = some j)
      (hc : hexValue? c = some k) (hd : hexValue? d = some l) :
      HexUnit [a, b, c, d] (16 * (16 * (16 * i + j) + k) + l)

/-- What follows a backslash, and the character that it stands for. A character beyond four digits
is written as a pair of surrogates. -/
inductive Escaped : List Char → Char → Prop
  | quote : Escaped ['"'] '"'
  | backslash : Escaped ['\\'] '\\'
  | slash : Escaped ['/'] '/'
  | backspace : Escaped ['b'] '\x08'
  | formFeed : Escaped ['f'] '\x0c'
  | lineFeed : Escaped ['n'] '\n'
  | carriageReturn : Escaped ['r'] '\r'
  | tab : Escaped ['t'] '\t'
  | unit {ds : List Char} {n : Nat} (hds : HexUnit ds n) (hn : n < 0xd800 ∨ 0xe000 ≤ n) :
      Escaped ('u' :: ds) (Char.ofNat n)
  | pair {ds es : List Char} {high low : Nat} (hds : HexUnit ds high) (hes : HexUnit es low)
      (hhigh : 0xd800 ≤ high ∧ high < 0xdc00) (hlow : 0xdc00 ≤ low ∧ low < 0xe000) :
      Escaped ('u' :: ds ++ '\\' :: 'u' :: es)
        (Char.ofNat (0x10000 + (high - 0xd800) * 0x400 + (low - 0xdc00)))

/-- What stands between quotes, and the characters that it says. -/
inductive Quoted : List Char → List Char → Prop
  | nil : Quoted [] []
  | plain {c : Char} {body cs : List Char} (hquote : c ≠ '"') (hbackslash : c ≠ '\\')
      (hcontrol : 0x20 ≤ c.toNat) (h : Quoted body cs) : Quoted (c :: body) (c :: cs)
  | escaped {c : Char} {code body cs : List Char} (hcode : Escaped code c) (h : Quoted body cs) :
      Quoted ('\\' :: code ++ body) (c :: cs)

section Texts

variable {cs rest body chars : List Char} {n : Nat} {c : Char}

theorem HexUnit.hexUnit_append (h : HexUnit cs n) : hexUnit (cs ++ rest) = .ok (n, rest) := by
  obtain ⟨ha, hb, hc, hd⟩ := h
  simp [hexUnit, hexNumber?, ha, hb, hc, hd]

theorem exists_of_hexUnit (h : hexUnit cs = .ok (n, rest)) :
    ∃ ds, cs = ds ++ rest ∧ HexUnit ds n := by
  unfold hexUnit at h
  split at h
  next m hm =>
    split at h
    next hlength =>
      cases h
      match cs, hlength with
      | a :: b :: c :: d :: rest, _ =>
        simp only [hexNumber?, List.take_succ_cons, List.take_zero, List.foldlM_cons,
          List.foldlM_nil, Option.bind_eq_bind, Option.bind_eq_some_iff, Option.map_eq_map,
          Option.map_eq_some_iff, Option.pure_def, Option.some.injEq] at hm
        obtain ⟨_, ⟨i, ha, rfl⟩, _, ⟨j, hb, rfl⟩, _, ⟨k, hc, rfl⟩, _, ⟨l, hd, rfl⟩, rfl⟩ := hm
        have hunit := HexUnit.intro ha hb hc hd
        exact ⟨[a, b, c, d], rfl, by simpa using hunit⟩
    · cases h
  · cases h

theorem Escaped.escape_append (h : Escaped cs c) : escape (cs ++ rest) = .ok (c, rest) := by
  cases h with
  | @unit ds n hds hn =>
      have hlow : ¬(0xdc00 ≤ n ∧ n < 0xe000) := by omega
      have hhigh : ¬(0xd800 ≤ n ∧ n < 0xdc00) := by omega
      rw [List.cons_append, escape, escapedUnit, hds.hexUnit_append]
      simp only [bind, Except.bind, Bool.and_eq_true, decide_eq_true_eq, if_neg hlow, if_neg hhigh]
      rfl
  | @pair ds es high low hds hes hhigh hlow =>
      have hfirst : ¬(0xdc00 ≤ high ∧ high < 0xe000) := by omega
      rw [List.append_assoc, List.cons_append, List.cons_append, List.cons_append, escape,
        escapedUnit, hds.hexUnit_append]
      simp only [bind, Except.bind, Bool.and_eq_true, decide_eq_true_eq, if_neg hfirst,
        if_pos hhigh, dropPairMark, if_true, hes.hexUnit_append, if_pos hlow]
      rfl
  | _ => rfl

theorem exists_of_dropPairMark {mark : Char} (h : dropPairMark mark cs = .ok rest) :
    cs = mark :: rest := by
  unfold dropPairMark at h
  split at h
  · cases h
  · split at h
    next hmark =>
      cases h
      rw [hmark]
    · cases h

theorem exists_of_escapedUnit (h : escapedUnit cs = .ok (c, rest)) :
    ∃ code, cs = code ++ rest ∧ Escaped ('u' :: code) c := by
  obtain ⟨⟨unit, after⟩, hunit, hnext⟩ := exists_of_bind_eq_ok h
  obtain ⟨ds, hcs, hds⟩ := exists_of_hexUnit hunit
  simp only [Bool.and_eq_true, decide_eq_true_eq] at hnext
  split at hnext
  · cases hnext
  next hlow =>
    split at hnext
    next hhigh =>
      obtain ⟨afterSlash, hslash, hnext⟩ := exists_of_bind_eq_ok hnext
      obtain ⟨afterMark, hmark, hnext⟩ := exists_of_bind_eq_ok hnext
      obtain ⟨⟨low, last⟩, hunit, hnext⟩ := exists_of_bind_eq_ok hnext
      obtain ⟨es, hafterMark, hes⟩ := exists_of_hexUnit hunit
      dsimp only at hnext
      split at hnext
      next hpair =>
        obtain ⟨rfl, rfl⟩ := Prod.mk.inj (Except.ok.inj hnext)
        refine ⟨ds ++ '\\' :: 'u' :: es, ?_, .pair hds hes hhigh hpair⟩
        rw [hcs, exists_of_dropPairMark hslash, exists_of_dropPairMark hmark, hafterMark]
        simp
      · cases hnext
    next hhigh =>
      cases hnext
      exact ⟨ds, hcs, .unit hds (by omega)⟩

theorem exists_of_escape (h : escape cs = .ok (c, rest)) :
    ∃ code, cs = code ++ rest ∧ Escaped code c := by
  unfold escape at h
  split at h
  case h_10 =>
    obtain ⟨code, rfl, hcode⟩ := exists_of_escapedUnit h
    exact ⟨_, rfl, hcode⟩
  all_goals cases h
  · exact ⟨_, rfl, .quote⟩
  · exact ⟨_, rfl, .backslash⟩
  · exact ⟨_, rfl, .slash⟩
  · exact ⟨_, rfl, .backspace⟩
  · exact ⟨_, rfl, .formFeed⟩
  · exact ⟨_, rfl, .lineFeed⟩
  · exact ⟨_, rfl, .carriageReturn⟩
  · exact ⟨_, rfl, .tab⟩

/-- What needs no escape may be written as it is. -/
theorem quoted_self (h : cs.all fun c => c ≠ '"' ∧ c ≠ '\\' ∧ 0x20 ≤ c.toNat) :
    Quoted cs cs := by
  induction cs with
  | nil => exact .nil
  | cons c cs ih =>
      rw [List.all_cons, Bool.and_eq_true] at h
      obtain ⟨hquote, hbackslash, hcontrol⟩ := of_decide_eq_true h.1
      exact .plain hquote hbackslash hcontrol (ih h.2)

theorem Quoted.characters_append (h : Quoted body chars) {fuel : Nat} (hfuel : body.length < fuel) :
    characters fuel (body ++ '"' :: rest) = .ok (chars, rest) := by
  induction h generalizing fuel with
  | nil =>
      obtain ⟨fuel, rfl⟩ := Nat.exists_eq_succ_of_ne_zero (Nat.ne_of_gt hfuel)
      rfl
  | @plain c body cs hquote hbackslash hcontrol h ih =>
      obtain ⟨fuel, rfl⟩ := Nat.exists_eq_succ_of_ne_zero (Nat.ne_of_gt (Nat.zero_lt_of_lt hfuel))
      rw [List.length_cons, Nat.succ_lt_succ_iff] at hfuel
      rw [List.cons_append, characters, if_neg hquote, if_neg hbackslash,
        if_neg (Nat.not_lt.mpr hcontrol), ih hfuel]
      rfl
  | @escaped c code body cs hcode h ih =>
      obtain ⟨fuel, rfl⟩ := Nat.exists_eq_succ_of_ne_zero (Nat.ne_of_gt (Nat.zero_lt_of_lt hfuel))
      have hlength : body.length < fuel := by
        simp only [List.cons_append, List.length_cons, List.length_append] at hfuel
        omega
      rw [List.cons_append, List.cons_append, List.append_assoc, characters,
        if_neg (by decide), if_pos rfl, hcode.escape_append]
      dsimp only [bind, Except.bind]
      rw [ih hlength]
      rfl

theorem exists_of_characters {fuel : Nat} (h : characters fuel cs = .ok (chars, rest)) :
    ∃ body, cs = body ++ '"' :: rest ∧ Quoted body chars := by
  induction fuel generalizing cs chars with
  | zero => cases h
  | succ fuel ih =>
      cases cs with
      | nil => cases h
      | cons c cs =>
          rw [characters] at h
          split at h
          next hquote =>
            cases h
            exact ⟨[], by rw [hquote]; rfl, .nil⟩
          next hquote =>
            split at h
            next hbackslash =>
              obtain ⟨⟨first, after⟩, hescape, hnext⟩ := exists_of_bind_eq_ok h
              obtain ⟨⟨more, last⟩, hmore, hnext⟩ := exists_of_bind_eq_ok hnext
              cases hnext
              obtain ⟨code, hcs, hcode⟩ := exists_of_escape hescape
              obtain ⟨body, hafter, hbody⟩ := ih hmore
              refine ⟨'\\' :: code ++ body, ?_, .escaped hcode hbody⟩
              rw [hbackslash, hcs, hafter]
              simp
            next hbackslash =>
              split at h
              · cases h
              next hcontrol =>
                obtain ⟨⟨more, last⟩, hmore, h⟩ := exists_of_bind_eq_ok h
                cases h
                obtain ⟨body, rfl, hbody⟩ := ih hmore
                exact ⟨c :: body, rfl,
                  .plain hquote hbackslash (Nat.le_of_not_lt hcontrol) hbody⟩

end Texts

/-! ## Numbers -/

/-- The digits of a number before its point: nothing stands behind a leading zero. -/
structure WholeText (ds : List Char) : Prop where
  filled : ds ≠ []
  digits : ∀ c ∈ ds, c.isDigit
  leading : ds.head? = some '0' → ds = ['0']

/-- A fraction, or nothing. -/
inductive FractionText : List Char → Option (List Char) → Prop
  | absent : FractionText [] none
  | present {ds : List Char} (hds : ds ≠ []) (hdigits : ∀ c ∈ ds, c.isDigit) :
      FractionText ('.' :: ds) (some ds)

/-- An exponent, or nothing: whether it is negative, and its digits. -/
inductive PowerText : List Char → Option (Bool × List Char) → Prop
  | absent : PowerText [] none
  | present {mark : Char} {cs ds : List Char} {negative : Bool} (hmark : mark = 'e' ∨ mark = 'E')
      (hsign : Binary64.Signed cs negative ds) (hds : ds ≠ []) (hdigits : ∀ c ∈ ds, c.isDigit) :
      PowerText (mark :: cs) (some (negative, ds))

/-- Digits that are a whole number of 64 bits, or of 63 bits behind a minus sign. -/
inductive WholeValue (ds : List Char) : Bool → Document → Prop
  | natural (h : Nat.ofDigitChars 10 ds 0 < 2 ^ 64) :
      WholeValue ds false (.scalar (.integer (Nat.ofDigitChars 10 ds 0)))
  | negative (hpos : 0 < Nat.ofDigitChars 10 ds 0) (h : Nat.ofDigitChars 10 ds 0 ≤ 2 ^ 63) :
      WholeValue ds true (.scalar (.integer (-Nat.ofDigitChars 10 ds 0)))

/-- What the parts of a number say: a whole number if it fits, or else what scaling gives. -/
inductive NumberValue (negative : Bool) (ds : List Char) :
    Option (List Char) → Option (Bool × List Char) → Document → Prop
  | whole {document : Document} (h : WholeValue ds negative document) :
      NumberValue negative ds none none document
  | scaled {fraction : Option (List Char)} {power : Option (Bool × List Char)} {document : Document}
      (hwhole : fraction = none → power = none → ∀ document, ¬WholeValue ds negative document)
      (h : numberOfParts negative ds fraction power [] = .ok document) :
      NumberValue negative ds fraction power document

/-- A number behind its sign. -/
inductive NumberText (negative : Bool) : List Char → Document → Prop
  | intro {ds fractionText powerText : List Char} {fraction : Option (List Char)}
      {power : Option (Bool × List Char)} {document : Document} (hds : WholeText ds)
      (hfraction : FractionText fractionText fraction) (hpower : PowerText powerText power)
      (hvalue : NumberValue negative ds fraction power document) :
      NumberText negative (ds ++ (fractionText ++ powerText)) document

/-- Nothing, or something that does not go on with a number. -/
def EndsNumber (rest : List Char) : Prop :=
  ∀ c ∈ rest.head?, c.isDigit = false ∧ c ≠ '.' ∧ c ≠ 'e' ∧ c ≠ 'E'

section Numbers

variable {negative : Bool} {cs ds rest : List Char} {fraction : Option (List Char)}
  {power : Option (Bool × List Char)} {document : Document} {n : Nat}

theorem le_ofDigitChars (n : Nat) (ds : List Char) : n ≤ Nat.ofDigitChars 10 ds n := by
  induction ds generalizing n with
  | nil => exact le_rfl
  | cons d ds ih =>
      rw [Nat.ofDigitChars_cons]
      exact le_trans (by omega) (ih _)

theorem takeDigits_of_lt (h : Nat.ofDigitChars 10 ds n < 2 ^ 64) :
    takeDigits n ds = (Nat.ofDigitChars 10 ds n, []) := by
  induction ds generalizing n with
  | nil => rfl
  | cons d ds ih =>
      rw [Nat.ofDigitChars_cons] at h ⊢
      have hnext : 10 * n + (d.toNat - '0'.toNat) < wordLimit := (le_ofDigitChars _ ds).trans_lt h
      rw [takeDigits, if_pos hnext, ih h]

theorem WholeValue.numberOfParts_eq (h : WholeValue ds negative document) (rest : List Char) :
    numberOfParts negative ds none none rest = .ok document := by
  cases h with
  | natural h =>
      rw [numberOfParts, takeDigits_of_lt h]
      rfl
  | negative hpos h =>
      rw [numberOfParts, takeDigits_of_lt (h.trans_lt (by omega))]
      simpa [hpos.ne'] using h

/-- What follows a number does not count. -/
theorem numberOfParts_eq_ok_iff :
    numberOfParts negative ds fraction power rest = .ok document ↔
      numberOfParts negative ds fraction power [] = .ok document := by
  unfold numberOfParts
  dsimp only
  split
  · rfl
  · cases power with
    | none => cases scale? negative _ _ <;> simp
    | some power =>
        obtain ⟨isDown, digits⟩ := power
        dsimp only
        cases exponentOfDigits 0 digits with
        | ok n =>
            dsimp only
            cases scale? negative _ _ <;> simp
        | error left =>
            dsimp only
            split <;> simp

theorem numberValue_iff :
    numberOfParts negative ds fraction power rest = .ok document ↔
      NumberValue negative ds fraction power document := by
  rw [numberOfParts_eq_ok_iff]
  constructor
  · intro h
    by_cases hwhole : ∃ found, fraction = none ∧ power = none ∧ WholeValue ds negative found
    · obtain ⟨found, rfl, rfl, hfound⟩ := hwhole
      obtain rfl := Except.ok.inj ((hfound.numberOfParts_eq []).symm.trans h)
      exact .whole hfound
    · exact .scaled (fun hfraction hpower found hfound =>
        hwhole ⟨found, hfraction, hpower, hfound⟩) h
  · intro h
    cases h with
    | whole h => exact h.numberOfParts_eq []
    | scaled _ h => exact h

theorem FractionText.takeFraction_append (h : FractionText cs fraction)
    (hrest : ∀ c ∈ rest.head?, c.isDigit = false ∧ c ≠ '.') :
    takeFraction (cs ++ rest) = .ok (fraction, rest) := by
  cases h with
  | absent =>
      cases rest with
      | nil => rfl
      | cons c rest =>
          have hc := (hrest c rfl).2
          rw [List.nil_append]
          unfold takeFraction
          split
          next heq => exact absurd (List.cons.inj heq).1 hc
          · rfl
  | @present ds hds hdigits =>
      have hspan : Numeric.spanDigits (ds ++ rest) = (ds, rest) :=
        spanDigits_append hdigits fun c hc => (hrest c hc).1
      obtain ⟨d, ds, rfl⟩ := List.exists_cons_of_ne_nil hds
      simp only [List.cons_append, takeFraction] at hspan ⊢
      rw [hspan]

theorem exists_of_takeFraction (h : takeFraction cs = .ok (fraction, rest)) :
    ∃ front, cs = front ++ rest ∧ FractionText front fraction := by
  unfold takeFraction at h
  split at h
  next tail =>
    obtain ⟨⟨ds, after⟩, hspan⟩ : ∃ span, Numeric.spanDigits tail = span := ⟨_, rfl⟩
    obtain ⟨rfl, hdigits, -⟩ := of_spanDigits hspan
    rw [hspan] at h
    cases ds with
    | nil => cases after <;> cases h
    | cons d ds =>
        cases h
        exact ⟨'.' :: d :: ds, rfl, .present (List.cons_ne_nil d ds) hdigits⟩
  · cases h
    exact ⟨[], rfl, .absent⟩

theorem PowerText.takeExponent_append (h : PowerText cs power) (hrest : EndsNumber rest) :
    takeExponent (cs ++ rest) = .ok (power, rest) := by
  cases h with
  | absent =>
      cases rest with
      | nil => rfl
      | cons c rest =>
          obtain ⟨-, -, hlower, hupper⟩ := hrest c rfl
          simp [takeExponent, hlower, hupper]
  | @present mark cs ds negative hmark hsign hds hdigits =>
      have hspan : Numeric.spanDigits (ds ++ rest) = (ds, rest) :=
        spanDigits_append hdigits fun c hc => (hrest c hc).1
      obtain ⟨d, ds, rfl⟩ := List.exists_cons_of_ne_nil hds
      have hhead : ∀ c ∈ (d :: ds ++ rest).head?, c ≠ '-' ∧ c ≠ '+' := by
        rintro c ⟨⟩
        exact Binary64.ne_sign_of_isDigit (hdigits d List.mem_cons_self)
      have htake := Binary64.takeSign_of_signed (hsign.append rest) hhead
      rw [List.cons_append, takeExponent]
      simp only [htake, hspan, hmark, decide_eq_true_eq, Bool.or_eq_true, if_true]

theorem exists_of_takeExponent (h : takeExponent cs = .ok (power, rest)) :
    ∃ front, cs = front ++ rest ∧ PowerText front power := by
  unfold takeExponent at h
  split at h
  next mark tail =>
    split at h
    next hmark =>
      dsimp only at h
      obtain ⟨⟨ds, after⟩, hspan⟩ : ∃ span, Numeric.spanDigits (Binary64.takeSign tail).2 = span :=
        ⟨_, rfl⟩
      obtain ⟨htail, hdigits, -⟩ := of_spanDigits hspan
      rw [hspan] at h
      cases ds with
      | nil => cases after <;> cases h
      | cons d ds =>
          have hsign := Binary64.signed_takeSign tail
          rw [htail] at hsign
          obtain ⟨front, hfront, hsigned⟩ := hsign.exists_front
          cases h
          refine ⟨mark :: front, by rw [hfront]; rfl,
            .present (by simpa using hmark) hsigned (List.cons_ne_nil d ds) hdigits⟩
    · cases h
      exact ⟨[], rfl, .absent⟩
  · cases h
    exact ⟨[], rfl, .absent⟩

theorem PowerText.ends (h : PowerText cs power) (hrest : EndsNumber rest) :
    ∀ c ∈ (cs ++ rest).head?, c.isDigit = false ∧ c ≠ '.' := by
  cases h with
  | absent => exact fun c hc => ⟨(hrest c hc).1, (hrest c hc).2.1⟩
  | present hmark =>
      rintro c ⟨⟩
      rcases hmark with rfl | rfl <;> decide

theorem FractionText.noDigit (h : FractionText cs fraction)
    (hrest : ∀ c ∈ rest.head?, c.isDigit = false ∧ c ≠ '.') : NoDigit (cs ++ rest) := by
  cases h with
  | absent => exact fun c hc => (hrest c hc).1
  | present =>
      rintro c ⟨⟩
      decide

/-- How a number is read once its digits before the point are known. -/
theorem number_of_wholeText (hspan : Numeric.spanDigits cs = (ds, rest)) (hds : WholeText ds) :
    number negative cs = (do
      let (fraction, rest) ← takeFraction rest
      let (exponent, rest) ← takeExponent rest
      let value ← numberOfParts negative ds fraction exponent rest
      return (value, rest)) := by
  unfold number
  rw [hspan]
  split
  next heq => exact absurd (Prod.mk.inj heq).1 hds.filled
  next heq => exact absurd (Prod.mk.inj heq).1 hds.filled
  next d more heq =>
    obtain ⟨rfl, -⟩ := Prod.mk.inj heq
    cases hds.leading rfl
  next heq =>
    obtain ⟨rfl, rfl⟩ := Prod.mk.inj heq
    rfl

theorem wholeText_of_number (hspan : Numeric.spanDigits cs = (ds, rest))
    (hdigits : ∀ c ∈ ds, c.isDigit) {found : Document × List Char}
    (h : number negative cs = .ok found) : WholeText ds := by
  unfold number at h
  rw [hspan] at h
  split at h
  · cases h
  · cases h
  · cases h
  next hnone hsome hzero heq =>
    obtain ⟨rfl, rfl⟩ := Prod.mk.inj heq
    refine ⟨hsome, hdigits, fun hhead => ?_⟩
    obtain ⟨more, rfl⟩ := List.head?_eq_some_iff.mp hhead
    cases more with
    | nil => rfl
    | cons d more => exact (hzero d more rfl).elim

theorem WholeText.exists_digit (h : WholeText ds) : ∃ d more, ds = d :: more ∧ d.isDigit := by
  obtain ⟨d, more, rfl⟩ := List.exists_cons_of_ne_nil h.filled
  exact ⟨d, more, rfl, h.digits d List.mem_cons_self⟩

theorem NumberText.exists_digit {negative : Bool} (h : NumberText negative cs document) :
    ∃ d more, cs = d :: more ∧ d.isDigit := by
  obtain ⟨hds, -, -, -⟩ := h
  obtain ⟨d, more, rfl, hd⟩ := hds.exists_digit
  exact ⟨d, _, rfl, hd⟩

/-- A number is taken off what does not go on with it. -/
theorem NumberText.number_append (h : NumberText negative cs document) (hrest : EndsNumber rest) :
    number negative (cs ++ rest) = .ok (document, rest) := by
  obtain ⟨hds, hfraction, hpower, hvalue⟩ := h
  have hpowerEnds : ∀ c ∈ (_ ++ rest).head?, c.isDigit = false ∧ c ≠ '.' := hpower.ends hrest
  rw [List.append_assoc, List.append_assoc,
    number_of_wholeText (spanDigits_append hds.digits (hfraction.noDigit hpowerEnds)) hds,
    hfraction.takeFraction_append hpowerEnds]
  dsimp only [bind, Except.bind]
  rw [hpower.takeExponent_append hrest]
  dsimp only
  rw [numberValue_iff.mpr hvalue]
  rfl

theorem exists_of_number (h : number negative cs = .ok (document, rest)) :
    ∃ front, cs = front ++ rest ∧ NumberText negative front document := by
  obtain ⟨⟨ds, after⟩, hspan⟩ : ∃ span, Numeric.spanDigits cs = span := ⟨_, rfl⟩
  obtain ⟨hcs, hdigits, -⟩ := of_spanDigits hspan
  have hds := wholeText_of_number hspan hdigits h
  rw [number_of_wholeText hspan hds] at h
  obtain ⟨⟨fraction, afterFraction⟩, hfraction, h⟩ := exists_of_bind_eq_ok h
  obtain ⟨⟨power, last⟩, hpower, h⟩ := exists_of_bind_eq_ok h
  obtain ⟨value, hvalue, h⟩ := exists_of_bind_eq_ok h
  cases h
  obtain ⟨fractionText, hafter, hfractionText⟩ := exists_of_takeFraction hfraction
  obtain ⟨powerText, hlast, hpowerText⟩ := exists_of_takeExponent hpower
  refine ⟨ds ++ (fractionText ++ powerText), ?_,
    .intro hds hfractionText hpowerText (numberValue_iff.mp hvalue)⟩
  rw [hcs, hafter, hlast]
  simp

end Numbers

end BundledReading.Config.Json

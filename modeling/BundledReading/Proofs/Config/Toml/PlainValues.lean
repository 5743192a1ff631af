import BundledReading.Config.Toml.Document
import BundledReading.Proofs.Config.Json.Tokens

/-!
# Plain values of TOML

A plain value stands on one line: a truth value, a decimal number without underscores, or a text on
one line. How such values are written, and what they say, is told by inductive relations on lists of
characters. The reader takes a plain value off the front of what ends it. Arrays, tables as values,
texts of several lines, numbers of other bases, dates and times are not told here.
-/

namespace BundledReading.Config.Toml

open Json (HexUnit WholeText)
open Numeric (Binary64 NoDigit)
open Numeric.Binary64 (Signed ExponentText)

/-! ## What ends a value -/

/-- Nothing, or a character that ends a value on its line. -/
def EndsValue (rest : List Char) : Prop := ∀ c ∈ rest.head?, c ∈ [' ', '\t', '#', '\n', '\r']

/-- Nothing, or something that does not go on with digits. -/
def EndsDigits (rest : List Char) : Prop := ∀ c ∈ rest.head?, c.isDigit = false ∧ c ≠ '_'

theorem EndsValue.endsDigits {rest : List Char} (h : EndsValue rest) : EndsDigits rest := by
  intro c hc
  have hmem := h c hc
  simp only [List.mem_cons, List.not_mem_nil, or_false] at hmem
  rcases hmem with rfl | rfl | rfl | rfl | rfl <;> decide

theorem EndsValue.ne {rest : List Char} (h : EndsValue rest) {c : Char}
    (hc : c ∉ [' ', '\t', '#', '\n', '\r']) : rest.head? ≠ some c := fun heq => hc (h c heq)

/-! ## Texts -/

/-- A character that may stand in a text as it is. -/
def Plain (c : Char) : Prop := c = '\t' ∨ 0x20 ≤ c.toNat ∧ c.toNat ≠ 0x7f

/-- What follows a backslash, and the character that it stands for. -/
inductive Escaped : List Char → Char → Prop
  | backspace : Escaped ['b'] '\x08'
  | tab : Escaped ['t'] '\t'
  | lineFeed : Escaped ['n'] '\n'
  | formFeed : Escaped ['f'] '\x0c'
  | carriageReturn : Escaped ['r'] '\r'
  | quote : Escaped ['"'] '"'
  | backslash : Escaped ['\\'] '\\'
  | short {ds : List Char} {n : Nat} (hds : HexUnit ds n) (hn : n.isValidChar) :
      Escaped ('u' :: ds) (Char.ofNat n)
  | long {ds es : List Char} {high low : Nat} (hds : HexUnit ds high) (hes : HexUnit es low)
      (hn : (0x10000 * high + low).isValidChar) :
      Escaped ('U' :: (ds ++ es)) (Char.ofNat (0x10000 * high + low))

/-- What stands between double quotes, and the characters that it says. -/
inductive Quoted : List Char → List Char → Prop
  | nil : Quoted [] []
  | plain {c : Char} {body cs : List Char} (hc : Plain c) (hquote : c ≠ '"')
      (hbackslash : c ≠ '\\') (h : Quoted body cs) : Quoted (c :: body) (c :: cs)
  | escaped {c : Char} {code body cs : List Char} (hcode : Escaped code c) (h : Quoted body cs) :
      Quoted ('\\' :: (code ++ body)) (c :: cs)

section Texts

variable {body cs rest : List Char} {c : Char}

theorem isPlain_iff : isPlain c = true ↔ Plain c := by
  simp [isPlain, Plain]

theorem Escaped.escape?_append (h : Escaped cs c) (rest : List Char) :
    escape? (cs ++ rest) = some (c, rest) := by
  cases h with
  | short hds hn =>
      obtain ⟨hi, hj, hk, hl⟩ := hds
      simp [escape?, coded?, Json.hexNumber?, hi, hj, hk, hl, hn]
  | @long ds es high low hds hes hn =>
      have hnumber : Json.hexNumber? (ds ++ es) = some (0x10000 * high + low) := by
        obtain ⟨ha, hb, hc, hd⟩ := hds
        obtain ⟨ha', hb', hc', hd'⟩ := hes
        simp only [Json.hexNumber?, List.cons_append, List.nil_append, List.foldlM_cons,
          List.foldlM_nil, ha, hb, hc, hd, ha', hb', hc', hd']
        exact congrArg some (by ring)
      have hlength : (ds ++ es).length = 8 := by
        obtain ⟨-, -, -, -⟩ := hds
        obtain ⟨-, -, -, -⟩ := hes
        rfl
      have htake : (ds ++ es ++ rest).take 8 = ds ++ es := List.take_left' hlength
      have hdrop : (ds ++ es ++ rest).drop 8 = rest := List.drop_left' hlength
      rw [List.cons_append, escape?, coded?, htake, hdrop, if_neg (by omega), hnumber]
      exact if_pos hn
  | _ => rfl

theorem Quoted.escapedLine?_append (h : Quoted body cs) (rest : List Char) {fuel : Nat}
    (hfuel : body.length < fuel) : escapedLine? fuel (body ++ '"' :: rest) = some (cs, rest) := by
  induction h generalizing fuel with
  | nil =>
      obtain ⟨fuel, rfl⟩ := Nat.exists_eq_succ_of_ne_zero (Nat.ne_of_gt hfuel)
      rfl
  | @plain c body cs hc hquote hbackslash h ih =>
      obtain ⟨fuel, rfl⟩ := Nat.exists_eq_succ_of_ne_zero (Nat.ne_of_gt (Nat.zero_lt_of_lt hfuel))
      rw [List.length_cons, Nat.succ_lt_succ_iff] at hfuel
      rw [List.cons_append, escapedLine?, if_neg hquote, if_neg hbackslash,
        if_pos (isPlain_iff.mpr hc), ih hfuel]
      rfl
  | @escaped c code body cs hcode h ih =>
      obtain ⟨fuel, rfl⟩ := Nat.exists_eq_succ_of_ne_zero (Nat.ne_of_gt (Nat.zero_lt_of_lt hfuel))
      have hlength : body.length < fuel := by
        simp only [List.length_cons, List.length_append] at hfuel
        omega
      rw [List.cons_append, List.append_assoc, escapedLine?, if_neg (by decide), if_pos rfl,
        hcode.escape?_append]
      dsimp only [bind, Option.bind]
      rw [ih hlength]
      rfl

theorem literalLine?_append (h : ∀ c ∈ cs, Plain c ∧ c ≠ '\'') (rest : List Char) :
    literalLine? (cs ++ '\'' :: rest) = some (cs, rest) := by
  induction cs with
  | nil => rfl
  | cons c cs ih =>
      obtain ⟨⟨hc, hquote⟩, hcs⟩ := List.forall_mem_cons.mp h
      rw [List.cons_append, literalLine?, if_neg hquote, if_pos (isPlain_iff.mpr hc), ih hcs]
      rfl

theorem quoted?_of_ne (h : ∀ more, rest ≠ '"' :: '"' :: more) :
    quoted? ('"' :: rest) = escapedLine? (rest.length + 1) rest := by
  unfold quoted?
  split
  next heq => exact absurd (List.cons.inj heq).2 (h _)
  next heq =>
    obtain ⟨-, rfl⟩ := List.cons.inj heq
    rfl
  next heq => cases heq
  next heq => cases heq
  next _ hnone _ _ => exact (hnone _ rfl).elim

theorem quoted?_literal_of_ne (h : ∀ more, rest ≠ '\'' :: '\'' :: more) :
    quoted? ('\'' :: rest) = literalLine? rest := by
  unfold quoted?
  split
  next heq => cases heq
  next heq => cases heq
  next heq => exact absurd (List.cons.inj heq).2 (h _)
  next heq =>
    obtain ⟨-, rfl⟩ := List.cons.inj heq
    rfl
  next hnone => exact (hnone _ rfl).elim

/-- A text between quotes is taken off what ends it. -/
theorem Quoted.quoted?_append (h : Quoted body cs) (hrest : EndsValue rest) :
    quoted? ('"' :: (body ++ '"' :: rest)) = some (cs, rest) := by
  have hfuel : body.length < (body ++ '"' :: rest).length + 1 := by
    rw [List.length_append]
    omega
  rw [quoted?_of_ne, h.escapedLine?_append rest hfuel]
  intro more heq
  cases h with
  | nil => exact hrest.ne (by decide) (congrArg List.head? (List.cons.inj heq).2)
  | plain _ hquote => exact hquote (List.cons.inj heq).1
  | escaped => cases heq

theorem quoted?_literal_append (h : ∀ c ∈ cs, Plain c ∧ c ≠ '\'') (hrest : EndsValue rest) :
    quoted? ('\'' :: (cs ++ '\'' :: rest)) = some (cs, rest) := by
  rw [quoted?_literal_of_ne, literalLine?_append h rest]
  intro more heq
  cases cs with
  | nil => exact hrest.ne (by decide) (congrArg List.head? (List.cons.inj heq).2)
  | cons c cs => exact (h c List.mem_cons_self).2 (List.cons.inj heq).1

end Texts

/-! ## Numbers -/

/-- A number with a fraction or an exponent, behind its sign. -/
inductive FloatText : List Char → Nat → Int → Prop
  | pointed {ds places power : List Char} {exponent : Int} (hds : WholeText ds)
      (hplaces : places ≠ []) (hdigits : ∀ c ∈ places, c.isDigit)
      (hpower : ExponentText power exponent) :
      FloatText (ds ++ '.' :: (places ++ power)) (Nat.ofDigitChars 10 (ds ++ places) 0)
        (exponent - places.length)
  | scaled {ds power : List Char} {exponent : Int} (hds : WholeText ds)
      (hpower : ExponentText power exponent) (hpresent : power ≠ []) :
      FloatText (ds ++ power) (Nat.ofDigitChars 10 ds 0) exponent

section Numbers

variable {cs body ds rest : List Char} {negative : Bool} {coefficient : Nat} {exponent : Int}

theorem digits?_of_ends {d : Char} (hd : d.isDigit) (hrest : EndsDigits rest) :
    digits? Char.isDigit (d :: rest) = some ([d], rest) := by
  rw [digits?.eq_def]
  dsimp only
  rw [if_pos hd]
  split
  · exact absurd rfl (hrest '_' rfl).2
  · exact absurd rfl (hrest '_' rfl).2
  next next tail _ _ => rw [if_neg (by simp [(hrest next rfl).1])]
  · rfl

theorem digits?_append (hfilled : ds ≠ []) (hdigits : ∀ c ∈ ds, c.isDigit)
    (hrest : EndsDigits rest) : digits? Char.isDigit (ds ++ rest) = some (ds, rest) := by
  induction ds with
  | nil => exact absurd rfl hfilled
  | cons d ds ih =>
      obtain ⟨hd, hds⟩ := List.forall_mem_cons.mp hdigits
      cases ds with
      | nil => exact digits?_of_ends hd hrest
      | cons e ds =>
          have he : e.isDigit := hds e List.mem_cons_self
          have hmore := ih (List.cons_ne_nil e ds) hds
          rw [List.cons_append] at hmore
          rw [List.cons_append, List.cons_append, digits?.eq_def]
          dsimp only
          rw [if_pos hd]
          split
          next heq =>
            obtain ⟨rfl, -⟩ := List.cons.inj heq
            cases he
          next heq =>
            obtain ⟨rfl, -⟩ := List.cons.inj heq
            cases he
          next heq =>
            obtain ⟨rfl, rfl⟩ := List.cons.inj heq
            rw [if_pos he, hmore]
            rfl
          next heq => cases heq

theorem wholePart?_append (h : WholeText ds) (hrest : EndsDigits rest) :
    wholePart? (ds ++ rest) = some (ds, rest) := by
  have hdigits := digits?_append h.filled h.digits hrest
  unfold wholePart?
  split
  next heq =>
    obtain ⟨d, more, rfl, -⟩ := h.exists_digit
    obtain ⟨rfl, rfl⟩ := List.cons.inj heq
    obtain ⟨-, rfl⟩ := List.cons.inj (h.leading rfl)
    rfl
  · exact hdigits

/-- An exponent ends the digits in front of it. -/
theorem endsDigits_power {power : List Char} (h : ExponentText power exponent)
    (hrest : EndsValue rest) : EndsDigits (power ++ rest) := by
  cases h with
  | absent => exact hrest.endsDigits
  | present hmark =>
      rintro c ⟨⟩
      rcases hmark with rfl | rfl <;> decide

theorem exponent?_append {power : List Char} (h : ExponentText power exponent)
    (hpresent : power ≠ []) (hrest : EndsValue rest) :
    exponent? (power ++ rest) = some (exponent, rest) := by
  cases h with
  | absent => exact absurd rfl hpresent
  | @present mark cs ds negative hmark hsign hds hdigits =>
      have hhead : ∀ c ∈ (ds ++ rest).head?, c ≠ '-' ∧ c ≠ '+' := by
        obtain ⟨d, ds, rfl⟩ := List.exists_cons_of_ne_nil hds
        rintro c ⟨⟩
        exact Binary64.ne_sign_of_isDigit (hdigits d List.mem_cons_self)
      have hsigned : sign (cs ++ rest) = (negative, ds ++ rest) :=
        Binary64.takeSign_of_signed (hsign.append rest) hhead
      have hread := digits?_append hds hdigits hrest.endsDigits
      rw [List.cons_append, exponent?, if_pos (by simpa using hmark), hsigned]
      dsimp only
      rw [hread]
      rfl

theorem exponent?_eq_none (hrest : EndsValue rest) : exponent? rest = none := by
  cases rest with
  | nil => rfl
  | cons c rest =>
      have hc := hrest c rfl
      simp only [List.mem_cons, List.not_mem_nil, or_false] at hc
      rcases hc with rfl | rfl | rfl | rfl | rfl <;> rfl

theorem special?_eq_none {d : Char} (hd : d.isDigit) (rest : List Char) :
    special? negative (d :: rest) = none := by
  unfold special?
  split
  next heq =>
    obtain ⟨rfl, -⟩ := List.cons.inj heq
    cases hd
  next heq =>
    obtain ⟨rfl, -⟩ := List.cons.inj heq
    cases hd
  · rfl

/-- What stands behind a sign and begins with a digit is read as a decimal. -/
theorem float?_append (hsign : Signed cs negative body)
    (hbody : ∃ d more, body = d :: more ∧ d.isDigit) (rest : List Char) :
    float? (cs ++ rest) = decimal? negative (body ++ rest) := by
  obtain ⟨d, more, rfl, hd⟩ := hbody
  have hhead : ∀ c ∈ (d :: more ++ rest).head?, c ≠ '-' ∧ c ≠ '+' := by
    rintro c ⟨⟩
    exact Binary64.ne_sign_of_isDigit hd
  have hsigned : sign (cs ++ rest) = (negative, d :: more ++ rest) :=
    Binary64.takeSign_of_signed (hsign.append rest) hhead
  unfold float?
  rw [hsigned]
  dsimp only
  rw [List.cons_append, special?_eq_none hd]

theorem FloatText.decimal?_append (h : FloatText body coefficient exponent) (hrest : EndsValue rest)
    {x : Binary64} (hx : x.IsNearest negative (coefficient * 10 ^ exponent))
    (hfinite : x ≠ Binary64.infinity false) :
    decimal? negative (body ++ rest) = some (x, rest) := by
  obtain rfl := hx.unique (Binary64.isNearest_ofDecimal negative coefficient exponent)
  cases h with
  | @pointed ds places power exponent hds hplaces hdigits hpower =>
      have hpoint : EndsDigits ('.' :: (places ++ (power ++ rest))) := by
        rintro c ⟨⟩
        decide
      have hfraction := digits?_append hplaces hdigits (endsDigits_power hpower hrest)
      have hempty : places.isEmpty = false := by simpa using hplaces
      have hwhole : wholePart? (ds ++ '.' :: (places ++ power) ++ rest) =
          some (ds, '.' :: (places ++ (power ++ rest))) := by
        simpa using wholePart?_append hds hpoint
      simp only [decimal?, hwhole, fraction?, hfraction, bind, Option.bind]
      by_cases hpresent : power = []
      · subst hpresent
        obtain ⟨⟩ := hpower
        simp only [List.nil_append, exponent?_eq_none hrest, hempty]
        exact if_neg hfinite
      · simp only [exponent?_append hpower hpresent hrest]
        exact if_neg hfinite
  | @scaled ds power exponent hds hpower hpresent =>
      have hread := exponent?_append hpower hpresent hrest
      have hwhole : wholePart? (ds ++ power ++ rest) = some (ds, power ++ rest) := by
        simpa using wholePart?_append hds (endsDigits_power hpower hrest)
      cases hpower with
      | absent => exact absurd rfl hpresent
      | present hmark =>
          rw [List.cons_append] at hread hwhole
          rcases hmark with rfl | rfl
          all_goals
            simp only [decimal?, hwhole, hread, bind, Option.bind]
            simp only [List.append_nil, List.length_nil, Nat.cast_zero, sub_zero]
            exact if_neg hfinite

/-- Digits alone are no floating-point number. -/
theorem decimal?_eq_none (hds : WholeText ds) (hrest : EndsValue rest) :
    decimal? negative (ds ++ rest) = none := by
  have hexponent := exponent?_eq_none hrest
  unfold decimal?
  rw [wholePart?_append hds hrest.endsDigits]
  cases rest with
  | nil => rfl
  | cons c rest =>
      have hc := hrest c rfl
      simp only [List.mem_cons, List.not_mem_nil, or_false] at hc
      rcases hc with rfl | rfl | rfl | rfl | rfl <;> simp [hexponent]

/-- A leading zero stands alone. -/
theorem head?_of_zero {c : Char} {more : List Char} (hsign : Signed cs negative ds)
    (hds : WholeText ds) (h : cs ++ rest = '0' :: c :: more) : rest.head? = some c := by
  obtain ⟨d, others, hcons, -⟩ := hds.exists_digit
  cases hsign with
  | plus => cases (List.cons.inj h).1
  | minus => cases (List.cons.inj h).1
  | bare =>
      subst hcons
      obtain ⟨rfl, h⟩ := List.cons.inj h
      obtain ⟨-, rfl⟩ := List.cons.inj (hds.leading rfl)
      exact congrArg List.head? (List.cons.inj h).2

theorem integer?_append (hsign : Signed cs negative ds) (hds : WholeText ds)
    (hrest : EndsValue rest) (hn : Nat.ofDigitChars 10 ds 0 < 2 ^ 63 + negative.toNat) :
    integer? (cs ++ rest) = some (if negative then -(Nat.ofDigitChars 10 ds 0 : Int)
      else Nat.ofDigitChars 10 ds 0, rest) := by
  have hhead : ∀ c ∈ (ds ++ rest).head?, c ≠ '-' ∧ c ≠ '+' := by
    obtain ⟨d, more, rfl, hd⟩ := hds.exists_digit
    rintro c ⟨⟩
    exact Binary64.ne_sign_of_isDigit hd
  have hsigned : sign (cs ++ rest) = (negative, ds ++ rest) :=
    Binary64.takeSign_of_signed (hsign.append rest) hhead
  have hwhole := wholePart?_append hds hrest.endsDigits
  have hzero {c : Char} {more : List Char} (h : cs ++ rest = '0' :: c :: more) :=
    head?_of_zero hsign hds h
  unfold integer?
  split
  next heq => exact absurd (hzero heq) (hrest.ne (by decide))
  next heq => exact absurd (hzero heq) (hrest.ne (by decide))
  next heq => exact absurd (hzero heq) (hrest.ne (by decide))
  · rw [hsigned]
    dsimp only [bind, Option.bind]
    rw [hwhole]
    dsimp only
    cases negative with
    | false => exact if_pos hn
    | true => exact if_pos (Nat.le_of_lt_succ hn)

end Numbers

/-! ## Dates and times -/

section Moments

variable {cs ds tail rest : List Char} {count n : Nat}

theorem exists_of_fixed? (h : fixed? count cs = some (n, rest)) :
    ∃ ds, cs = ds ++ rest ∧ ds.length = count ∧ ∀ c ∈ ds, c.isDigit := by
  unfold fixed? at h
  dsimp only at h
  split at h
  next hds =>
    cases h
    rw [Bool.and_eq_true, decide_eq_true_eq, List.all_eq_true] at hds
    exact ⟨cs.take count, (List.take_append_drop count cs).symm, hds.1, hds.2⟩
  · cases h

/-- No mark follows digits of a number. -/
theorem mark?_of_fixed? {mark : Char} (hdigits : ∀ c ∈ ds, c.isDigit) (hmark : mark.isDigit = false)
    (htail : ∀ c ∈ tail.head?, c.isDigit = false ∧ c ≠ mark)
    (h : fixed? count (ds ++ tail) = some (n, rest)) : mark? mark rest = none := by
  obtain ⟨es, heq, -, hes⟩ := exists_of_fixed? h
  have hhead : rest.head? ≠ some mark := by
    intro hrest
    rcases List.append_eq_append_iff.mp heq with ⟨more, rfl, rfl⟩ | ⟨more, rfl, rfl⟩
    · cases more with
      | nil => exact (htail mark hrest).2 rfl
      | cons c more =>
          have hc := hes c (by simp)
          rw [(htail c rfl).1] at hc
          cases hc
    · cases more with
      | nil => exact (htail mark hrest).2 rfl
      | cons c more =>
          cases hrest
          rw [hdigits mark (by simp)] at hmark
          cases hmark
  cases rest with
  | nil => rfl
  | cons c rest => exact if_neg fun hc => hhead (congrArg some hc)

/-- A number is no date and no time. -/
theorem moment?_eq_none (hdigits : ∀ c ∈ ds, c.isDigit)
    (htail : ∀ c ∈ tail.head?, c.isDigit = false ∧ c ≠ '-' ∧ c ≠ ':') :
    moment? (ds ++ tail) = none := by
  have hdate : date? (ds ++ tail) = none := by
    unfold date?
    cases h : fixed? 4 (ds ++ tail) with
    | none => rfl
    | some found =>
        have hmark : mark? '-' found.2 = none :=
          mark?_of_fixed? hdigits (by decide) (fun c hc => ⟨(htail c hc).1, (htail c hc).2.1⟩) h
        simp [hmark]
  have htime : time? (ds ++ tail) = none := by
    unfold time?
    cases h : fixed? 2 (ds ++ tail) with
    | none => rfl
    | some found =>
        have hmark : mark? ':' found.2 = none :=
          mark?_of_fixed? hdigits (by decide) (fun c hc => ⟨(htail c hc).1, (htail c hc).2.2⟩) h
        simp [hmark]
  rw [moment?, hdate]
  exact htime

theorem moment?_of_signed {negative : Bool} (hsign : Signed cs negative (ds ++ tail))
    (hdigits : ∀ c ∈ ds, c.isDigit)
    (htail : ∀ c ∈ tail.head?, c.isDigit = false ∧ c ≠ '-' ∧ c ≠ ':') : moment? cs = none := by
  cases hsign with
  | bare => exact moment?_eq_none hdigits htail
  | plus => simp [moment?, date?, time?, fixed?]
  | minus => simp [moment?, date?, time?, fixed?]

end Moments

/-! ## Values -/

/-- How a plain value is written, and what it says. -/
inductive ValueText : List Char → Scalar → Prop
  | true : ValueText "true".toList (.bool true)
  | false : ValueText "false".toList (.bool false)
  | natural {cs ds : List Char} (hsign : Signed cs false ds) (hds : WholeText ds)
      (hn : Nat.ofDigitChars 10 ds 0 < 2 ^ 63) :
      ValueText cs (.integer (Nat.ofDigitChars 10 ds 0))
  | negative {ds : List Char} (hds : WholeText ds) (hn : Nat.ofDigitChars 10 ds 0 ≤ 2 ^ 63) :
      ValueText ('-' :: ds) (.integer (-(Nat.ofDigitChars 10 ds 0 : Int)))
  | float {cs body : List Char} {negative : Bool} {coefficient : Nat} {exponent : Int}
      {x : Binary64} (hsign : Signed cs negative body) (hbody : FloatText body coefficient exponent)
      (hx : x.IsNearest negative (coefficient * 10 ^ exponent))
      (hfinite : x ≠ Binary64.infinity false) : ValueText cs (.float x)
  | quoted {body cs : List Char} (h : Quoted body cs) :
      ValueText ('"' :: (body ++ ['"'])) (.text (String.ofList cs))
  | literal {cs : List Char} (h : ∀ c ∈ cs, Plain c ∧ c ≠ '\'') :
      ValueText ('\'' :: (cs ++ ['\''])) (.text (String.ofList cs))

section Values

variable {cs body ds rest : List Char} {negative : Bool} {value : Scalar} {fuel depth : Nat}

/-- A value that begins with a digit or a sign is a number, a date or a time. -/
theorem value?_plain {c : Char} (hc : c.isDigit ∨ c = '-' ∨ c = '+') (rest : List Char) :
    value? (fuel + 1) depth (c :: rest) = plainValue? (c :: rest) := by
  rw [value?.eq_def]
  dsimp only
  split
  case h_7 => rfl
  all_goals
    rename_i heq
    cases heq
    rcases hc with hc | hc | hc <;> cases hc

/-- What a sign and a digit begin. -/
theorem exists_head_of_signed (hsign : Signed cs negative body)
    (hbody : ∃ d more, body = d :: more ∧ d.isDigit) :
    ∃ c more, cs = c :: more ∧ (c.isDigit ∨ c = '-' ∨ c = '+') := by
  obtain ⟨d, more, rfl, hd⟩ := hbody
  cases hsign with
  | bare => exact ⟨d, more, rfl, .inl hd⟩
  | plus => exact ⟨'+', _, rfl, .inr (.inr rfl)⟩
  | minus => exact ⟨'-', _, rfl, .inr (.inl rfl)⟩

/-- A number with a fraction or an exponent begins with digits, and no date or time goes on so. -/
theorem FloatText.exists_digits {coefficient : Nat} {exponent : Int}
    (h : FloatText body coefficient exponent) (rest : List Char) :
    ∃ ds tail, body ++ rest = ds ++ tail ∧ WholeText ds ∧
      ∀ c ∈ tail.head?, c.isDigit = false ∧ c ≠ '-' ∧ c ≠ ':' := by
  cases h with
  | @pointed ds places power exponent hds =>
      refine ⟨ds, '.' :: (places ++ power) ++ rest, List.append_assoc _ _ _, hds, ?_⟩
      rintro c ⟨⟩
      decide
  | @scaled ds power exponent hds hpower hpresent =>
      refine ⟨ds, power ++ rest, List.append_assoc _ _ _, hds, ?_⟩
      cases hpower with
      | absent => exact absurd rfl hpresent
      | present hmark =>
          rintro c ⟨⟩
          rcases hmark with rfl | rfl <;> decide

theorem FloatText.exists_digit {coefficient : Nat} {exponent : Int}
    (h : FloatText body coefficient exponent) : ∃ d more, body = d :: more ∧ d.isDigit := by
  cases h with
  | pointed hds =>
      obtain ⟨d, more, rfl, hd⟩ := hds.exists_digit
      exact ⟨d, _, rfl, hd⟩
  | scaled hds =>
      obtain ⟨d, more, rfl, hd⟩ := hds.exists_digit
      exact ⟨d, _, rfl, hd⟩

theorem plainValue?_whole (hsign : Signed cs negative ds) (hds : WholeText ds)
    (hrest : EndsValue rest) (hn : Nat.ofDigitChars 10 ds 0 < 2 ^ 63 + negative.toNat) :
    plainValue? (cs ++ rest) = some (.leaf (.integer (if negative
      then -(Nat.ofDigitChars 10 ds 0 : Int) else Nat.ofDigitChars 10 ds 0)), rest) := by
  have hends : ∀ c ∈ rest.head?, c.isDigit = false ∧ c ≠ '-' ∧ c ≠ ':' := by
    intro c hc
    have hmem := hrest c hc
    simp only [List.mem_cons, List.not_mem_nil, or_false] at hmem
    rcases hmem with rfl | rfl | rfl | rfl | rfl <;> decide
  rw [plainValue?, moment?_of_signed (hsign.append rest) hds.digits hends,
    float?_append hsign hds.exists_digit, decimal?_eq_none hds hrest,
    integer?_append hsign hds hrest hn]
  rfl

theorem plainValue?_float {coefficient : Nat} {exponent : Int} {x : Binary64}
    (hsign : Signed cs negative body) (hbody : FloatText body coefficient exponent)
    (hx : x.IsNearest negative (coefficient * 10 ^ exponent))
    (hfinite : x ≠ Binary64.infinity false) (hrest : EndsValue rest) :
    plainValue? (cs ++ rest) = some (.leaf (.float x), rest) := by
  obtain ⟨ds, tail, heq, hds, htail⟩ := hbody.exists_digits rest
  have hmoment := moment?_of_signed (heq ▸ hsign.append rest) hds.digits htail
  rw [plainValue?, hmoment, float?_append hsign hbody.exists_digit,
    hbody.decimal?_append hrest hx hfinite]

/-- A plain value is taken off what ends it. -/
theorem ValueText.value?_append (h : ValueText cs value) (hrest : EndsValue rest) :
    value? (fuel + 1) depth (cs ++ rest) = some (.leaf value, rest) := by
  cases h with
  | true => simp [value?, List.isPrefixOf?]
  | false => simp [value?, List.isPrefixOf?]
  | natural hsign hds hn =>
      have hread := plainValue?_whole hsign hds hrest hn
      obtain ⟨c, more, rfl, hc⟩ := exists_head_of_signed hsign hds.exists_digit
      rw [List.cons_append, value?_plain hc]
      exact hread
  | negative hds hn =>
      rw [List.cons_append, value?_plain (.inr (.inl rfl))]
      exact plainValue?_whole (.minus _) hds hrest (Nat.lt_succ_of_le hn)
  | float hsign hbody hx hfinite =>
      have hread := plainValue?_float hsign hbody hx hfinite hrest
      obtain ⟨c, more, rfl, hc⟩ := exists_head_of_signed hsign hbody.exists_digit
      rw [List.cons_append, value?_plain hc]
      exact hread
  | quoted h =>
      rw [List.cons_append, List.append_assoc, value?.eq_def]
      dsimp only
      rw [List.singleton_append, h.quoted?_append hrest]
      rfl
  | literal h =>
      rw [List.cons_append, List.append_assoc, value?.eq_def]
      dsimp only
      rw [List.singleton_append, quoted?_literal_append h hrest]
      rfl

end Values

end BundledReading.Config.Toml

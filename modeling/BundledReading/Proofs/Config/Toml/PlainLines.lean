import BundledReading.Proofs.Config.FieldByField
import BundledReading.Proofs.Config.Toml.PlainValues

/-!
# Plain lines of TOML

A document of plain lines sets fields to plain values, first in the document itself and then, behind
a header, in a table of that name. Which fields its lines set is told by `Lines`. Such a document is
read as these fields and tables, as long as no name is given twice, and options are loaded from it
as they say.
-/

namespace BundledReading.Config.Toml

open Numeric (Binary64)

/-! ## Lines -/

/-- Blanks inside a line. -/
def Blanks (cs : List Char) : Prop := ∀ c ∈ cs, c = ' ' ∨ c = '\t'

/-- A comment, or nothing. -/
inductive Comment : List Char → Prop
  | absent : Comment []
  | present {cs : List Char} (h : ∀ c ∈ cs, Plain c) : Comment ('#' :: cs)

/-- The end of a line. -/
inductive LineEnd : List Char → Prop
  | feed : LineEnd ['\n']
  | returnFeed : LineEnd ['\r', '\n']

/-- What says nothing on a line, and what follows the line. The document may end without an end of
its last line. -/
inductive LineRest : List Char → List Char → Prop
  | next {blanks comment stop : List Char} (hblanks : Blanks blanks) (hcomment : Comment comment)
      (hstop : LineEnd stop) (rest : List Char) :
      LineRest (blanks ++ (comment ++ (stop ++ rest))) rest
  | last {blanks comment : List Char} (hblanks : Blanks blanks) (hcomment : Comment comment) :
      LineRest (blanks ++ comment) []

/-- A key that needs no quotes. -/
structure Bare (key : String) : Prop where
  filled : key.toList ≠ []
  characters : ∀ c ∈ key.toList, c.isAlphanum ∨ c = '_' ∨ c = '-'

/-- The lines of a document: the fields that they set in the document itself, and then, header by
header, in tables. -/
inductive Lines :
    List Char → List (String × Scalar) → List (String × List (String × Scalar)) → Prop
  | done {blanks comment : List Char} (hblanks : Blanks blanks) (hcomment : Comment comment) :
      Lines (blanks ++ comment) [] []
  | empty {blanks comment stop rest : List Char} {fields : List (String × Scalar)}
      {tables : List (String × List (String × Scalar))} (hblanks : Blanks blanks)
      (hcomment : Comment comment) (hstop : LineEnd stop) (hrest : Lines rest fields tables) :
      Lines (blanks ++ (comment ++ (stop ++ rest))) fields tables
  | field {before middle after cs tail rest : List Char} {key : String} {value : Scalar}
      {fields : List (String × Scalar)} {tables : List (String × List (String × Scalar))}
      (hbefore : Blanks before) (hkey : Bare key) (hmiddle : Blanks middle) (hafter : Blanks after)
      (hvalue : ValueText cs value) (htail : LineRest tail rest)
      (hrest : Lines rest fields tables) :
      Lines (before ++ (key.toList ++ (middle ++ '=' :: (after ++ (cs ++ tail)))))
        ((key, value) :: fields) tables
  | header {before inner outer tail rest : List Char} {name : String}
      {fields : List (String × Scalar)} {tables : List (String × List (String × Scalar))}
      (hbefore : Blanks before) (hinner : Blanks inner) (hname : Bare name) (houter : Blanks outer)
      (htail : LineRest tail rest) (hrest : Lines rest fields tables) :
      Lines (before ++ '[' :: (inner ++ (name.toList ++ (outer ++ ']' :: tail)))) []
        ((name, fields) :: tables)

/-! ## Reading a line -/

section Reading

variable {cs blanks comment stop rest tail : List Char} {key : String}

/-- Nothing, or something that does not begin with a blank. -/
def NoBlank (cs : List Char) : Prop := ∀ c ∈ cs.head?, c ≠ ' ' ∧ c ≠ '\t'

theorem skipBlanks_append (h : Blanks blanks) (hrest : NoBlank rest) :
    skipBlanks (blanks ++ rest) = rest := by
  apply Numeric.dropWhile_append_of_head
  · simpa [isBlank, Blanks] using h
  · intro c hc
    simpa [isBlank] using hrest c hc

theorem noBlank_cons {c : Char} (h : c ≠ ' ' ∧ c ≠ '\t') (rest : List Char) :
    NoBlank (c :: rest) := by
  rintro _ ⟨⟩
  exact h

theorem LineEnd.exists_head (h : LineEnd stop) :
    ∃ c more, stop = c :: more ∧ (c = '\n' ∨ c = '\r') := by
  cases h with
  | feed => exact ⟨_, _, rfl, .inl rfl⟩
  | returnFeed => exact ⟨_, _, rfl, .inr rfl⟩

/-- What a comment begins, and the end of a line after it. -/
theorem Comment.exists_head (hcomment : Comment comment) (hstop : LineEnd stop) (rest : List Char) :
    ∃ c more, comment ++ (stop ++ rest) = c :: more ∧ (c = '#' ∨ c = '\n' ∨ c = '\r') := by
  cases hcomment with
  | absent =>
      obtain ⟨c, more, rfl, hc⟩ := hstop.exists_head
      exact ⟨c, _, rfl, .inr hc⟩
  | present => exact ⟨'#', _, rfl, .inl rfl⟩

theorem Comment.noBlank (hcomment : Comment comment) : NoBlank comment := by
  cases hcomment with
  | absent => exact nofun
  | present => exact noBlank_cons (by decide) _

theorem dropWhile_isPlain (h : ∀ c ∈ cs, Plain c) (hstop : ∀ c ∈ rest.head?, ¬Plain c) :
    (cs ++ rest).dropWhile isPlain = rest :=
  Numeric.dropWhile_append_of_head (fun c hc => isPlain_iff.mpr (h c hc)) fun c hc =>
    Bool.eq_false_iff.mpr fun hplain => hstop c hc (isPlain_iff.mp hplain)

theorem LineEnd.not_plain (h : LineEnd stop) (rest : List Char) :
    ∀ c ∈ (stop ++ rest).head?, ¬Plain c := by
  cases h with
  | feed =>
      rintro c ⟨⟩
      simp [Plain]
  | returnFeed =>
      rintro c ⟨⟩
      simp [Plain]

/-- A comment is dropped up to the end of its line, or of the document. -/
theorem Comment.skipComment?_append (h : Comment comment) (hstop : ∀ c ∈ rest.head?, ¬Plain c) :
    (skipComment? (comment ++ rest)).getD (comment ++ rest) = rest := by
  cases h with
  | absent =>
      rw [List.nil_append]
      unfold skipComment?
      split
      · exact absurd (.inr ⟨by decide, by decide⟩) (hstop '#' rfl)
      · rfl
  | present h => exact dropWhile_isPlain h hstop

/-- The rest of a line is dropped. -/
theorem LineRest.lineRest?_eq (h : LineRest cs rest) : lineRest? cs = some rest := by
  unfold lineRest?
  dsimp only
  cases h with
  | @next blanks comment stop hblanks hcomment hstop rest =>
      obtain ⟨c, more, hhead, hc⟩ := hcomment.exists_head hstop rest
      have hnone : NoBlank (comment ++ (stop ++ rest)) := by
        rw [hhead]
        exact noBlank_cons (by rcases hc with rfl | rfl | rfl <;> decide) more
      rw [skipBlanks_append hblanks hnone, hcomment.skipComment?_append (hstop.not_plain rest)]
      cases hstop <;> rfl
  | @last blanks comment hblanks hcomment =>
      have hdrop : (skipComment? (comment ++ [])).getD (comment ++ []) = [] :=
        hcomment.skipComment?_append nofun
      rw [List.append_nil] at hdrop
      rw [skipBlanks_append hblanks hcomment.noBlank, hdrop]

theorem endsValue_append (hblanks : Blanks blanks) (hrest : EndsValue rest) :
    EndsValue (blanks ++ rest) := by
  cases blanks with
  | nil => exact hrest
  | cons c blanks =>
      rintro _ ⟨⟩
      rcases hblanks c List.mem_cons_self with rfl | rfl <;> decide

/-- What stands in front of the rest of a line ends there. -/
theorem LineRest.endsValue (h : LineRest cs rest) : EndsValue cs := by
  cases h with
  | @next blanks comment stop hblanks hcomment hstop rest =>
      obtain ⟨c, more, hhead, hc⟩ := hcomment.exists_head hstop rest
      apply endsValue_append hblanks
      rw [hhead]
      rintro _ ⟨⟩
      rcases hc with rfl | rfl | rfl <;> decide
  | last hblanks hcomment =>
      apply endsValue_append hblanks
      cases hcomment with
      | absent => exact nofun
      | present =>
          rintro _ ⟨⟩
          decide

theorem LineRest.length_le (h : LineRest cs rest) : rest.length ≤ cs.length := by
  cases h with
  | next =>
      simp only [List.length_append]
      omega
  | last => exact Nat.zero_le _

theorem Bare.isBare (h : Bare key) : ∀ c ∈ key.toList, isBare c = true := by
  intro c hc
  simpa [Toml.isBare, or_assoc] using h.characters c hc

theorem Bare.exists_head (h : Bare key) :
    ∃ c more, key.toList = c :: more ∧ Toml.isBare c = true := by
  obtain ⟨c, more, heq⟩ := List.exists_cons_of_ne_nil h.filled
  exact ⟨c, more, heq, h.isBare c (by simp [heq])⟩

theorem ne_of_isBare {c d : Char} (hc : isBare c = true) (hd : isBare d = false) : c ≠ d := by
  rintro rfl
  rw [hc] at hd
  cases hd

theorem Bare.simpleKey?_append (h : Bare key) (hrest : ∀ c ∈ rest.head?, Toml.isBare c = false) :
    simpleKey? (key.toList ++ rest) = some (key, rest) := by
  obtain ⟨c, more, hkey, hc⟩ := h.exists_head
  have hspan := Numeric.span_append_of_head h.isBare hrest
  unfold simpleKey?
  split
  next heq =>
    rw [hkey] at heq
    exact absurd (List.cons.inj heq).1 (ne_of_isBare hc (by decide))
  next heq =>
    rw [hkey] at heq
    exact absurd (List.cons.inj heq).1 (ne_of_isBare hc (by decide))
  · rw [hspan]
    dsimp only
    rw [hkey, List.isEmpty_cons, ← hkey, String.ofList_toList]
    rfl

/-- A bare key is taken off the mark that follows it. -/
theorem Bare.keyPath?_append (h : Bare key) {before middle : List Char} {mark : Char}
    (hbefore : Blanks before) (hmiddle : Blanks middle) (hmark : mark = '=' ∨ mark = ']') :
    keyPath? (before ++ (key.toList ++ (middle ++ mark :: rest))) = some ([key], mark :: rest) := by
  have hbare : NoBlank (key.toList ++ (middle ++ mark :: rest)) := by
    obtain ⟨c, more, hkey, hc⟩ := h.exists_head
    rw [hkey]
    exact noBlank_cons ⟨ne_of_isBare hc (by decide), ne_of_isBare hc (by decide)⟩ _
  have hends : ∀ c ∈ (middle ++ mark :: rest).head?, Toml.isBare c = false := by
    cases middle with
    | nil =>
        rintro c ⟨⟩
        rcases hmark with rfl | rfl <;> decide
    | cons b middle =>
        rintro c ⟨⟩
        rcases hmiddle b List.mem_cons_self with rfl | rfl <;> decide
  have hnoBlank : NoBlank (mark :: rest) :=
    noBlank_cons (by rcases hmark with rfl | rfl <;> decide) rest
  change keys? (78 + 1) _ = _
  rw [keys?, skipBlanks_append hbefore hbare, h.simpleKey?_append hends]
  dsimp only [bind, Option.bind]
  rw [skipBlanks_append hmiddle hnoBlank]
  rcases hmark with rfl | rfl <;> rfl

/-- No blank stands in front of a value. -/
theorem ValueText.noBlank {value : Scalar} (h : ValueText cs value) (tail : List Char) :
    NoBlank (cs ++ tail) := by
  have hnumber {negative : Bool} {body : List Char} (hsign : Binary64.Signed cs negative body)
      (hbody : ∃ d more, body = d :: more ∧ d.isDigit) : NoBlank (cs ++ tail) := by
    obtain ⟨c, more, rfl, hc⟩ := exists_head_of_signed hsign hbody
    exact noBlank_cons ⟨by rintro rfl; revert hc; decide, by rintro rfl; revert hc; decide⟩ _
  cases h with
  | natural hsign hds => exact hnumber hsign hds.exists_digit
  | float hsign hbody => exact hnumber hsign hbody.exists_digit
  | _ => exact noBlank_cons (by decide) _

/-- A line that sets a field puts its value under its key in the table of the last header. -/
theorem line?_field (reading : Reading) (hkey : Bare key) {middle after : List Char}
    {value : Scalar} (hmiddle : Blanks middle) (hafter : Blanks after) (hvalue : ValueText cs value)
    (htail : LineRest tail rest) :
    line? reading (key.toList ++ (middle ++ '=' :: (after ++ (cs ++ tail)))) =
      (Node.reach (Node.insert (.leaf value) true [key]) reading.header reading.entries).map
        fun entries => ({ reading with entries }, rest) := by
  have hpath : keyPath? ([] ++ (key.toList ++ (middle ++ '=' :: (after ++ (cs ++ tail))))) = _ :=
    hkey.keyPath?_append (List.forall_mem_nil _) hmiddle (.inl rfl)
  obtain ⟨c, more, hcons, hc⟩ := hkey.exists_head
  have hne {d : Char} (hd : Toml.isBare d = false) : c ≠ d := ne_of_isBare hc hd
  rw [List.nil_append, hcons, List.cons_append] at hpath
  rw [hcons, List.cons_append]
  unfold line?
  split
  next heq => exact absurd (List.cons.inj heq).1 (hne (by decide))
  next heq => exact absurd (List.cons.inj heq).1 (hne (by decide))
  next heq => cases heq
  next heq =>
    obtain ⟨rfl, -⟩ := List.cons.inj heq
    have hmarks : ¬(c = '#' || c = '\n' || c = '\r') = true := by
      simpa using ⟨⟨hne (by decide), hne (by decide)⟩, hne (by decide)⟩
    rw [if_neg hmarks, hpath]
    dsimp only [bind, Option.bind, mark?]
    rw [if_pos rfl]
    dsimp only
    rw [skipBlanks_append hafter (hvalue.noBlank tail), hvalue.value?_append htail.endsValue]
    dsimp only
    rw [htail.lineRest?_eq]
    cases Node.reach (Node.insert (.leaf value) true [key]) reading.header reading.entries <;> rfl

theorem line?_header (reading : Reading) (hname : Bare key) {inner outer : List Char}
    (hinner : Blanks inner) (houter : Blanks outer) (htail : LineRest tail rest) :
    line? reading ('[' :: (inner ++ (key.toList ++ (outer ++ ']' :: tail)))) =
      (reading.openHeader [key] false).map (·, rest) := by
  have hpath : keyPath? (inner ++ (key.toList ++ (outer ++ ']' :: tail))) = _ :=
    hname.keyPath?_append hinner houter (.inr rfl)
  have hhead : (inner ++ (key.toList ++ (outer ++ ']' :: tail))).head? ≠ some '[' := by
    obtain ⟨c, more, hcons, hc⟩ := hname.exists_head
    cases inner with
    | nil => simpa [hcons] using ne_of_isBare hc (by decide)
    | cons b inner =>
        rintro ⟨⟩
        rcases hinner '[' List.mem_cons_self with h | h <;> cases h
  unfold line?
  split
  next heq => exact absurd (congrArg List.head? (List.cons.inj heq).2) hhead
  next heq =>
    obtain ⟨-, rfl⟩ := List.cons.inj heq
    rw [hpath]
    dsimp only [bind, Option.bind, mark?]
    rw [if_pos rfl]
    dsimp only
    rw [htail.lineRest?_eq]
    cases reading.openHeader [key] false <;> rfl
  next heq => cases heq
  next hnone heq =>
    obtain ⟨rfl, -⟩ := List.cons.inj heq
    exact (hnone rfl).elim

end Reading

/-! ## Tables -/

namespace Node

variable {entries front : Entries} {key name : String} {node old new : Node}

theorem find?_of_new (h : key ∉ entries.map Prod.fst) : find? key entries = none := by
  cases hfound : find? key entries with
  | none => rfl
  | some node => exact absurd (List.mem_map_of_mem (mem_of_find? hfound)) h

theorem put_of_new (h : key ∉ entries.map Prod.fst) :
    put key node entries = entries ++ [(key, node)] := by
  induction entries with
  | nil => rfl
  | cons entry rest ih =>
      rw [List.map_cons, List.mem_cons, not_or] at h
      rw [put, if_neg (Ne.symm h.1), ih h.2]
      rfl

theorem find?_concat (h : key ∉ front.map Prod.fst) :
    find? key (front ++ [(key, node)]) = some node := by
  induction front with
  | nil => exact if_pos rfl
  | cons entry rest ih =>
      rw [List.map_cons, List.mem_cons, not_or] at h
      rw [List.cons_append, find?, if_neg (Ne.symm h.1), ih h.2]

theorem put_concat (h : key ∉ front.map Prod.fst) :
    put key new (front ++ [(key, old)]) = front ++ [(key, new)] := by
  induction front with
  | nil => exact if_pos rfl
  | cons entry rest ih =>
      rw [List.map_cons, List.mem_cons, not_or] at h
      rw [List.cons_append, put, if_neg (Ne.symm h.1), ih h.2]
      rfl

/-- A new key gets its value behind the others. -/
theorem insert_of_new (h : key ∉ entries.map Prod.fst) :
    insert node true [key] entries = some (entries ++ [(key, node)]) := by
  rw [insert, find?_of_new h]
  exact congrArg some (put_of_new h)

end Node

/-- Where the next fields stand: in the document itself, or under its last header. -/
inductive Place where
  | document
  | under (front : Entries) (name : String)

namespace Place

/-- The entries of a document, given those of the table where the next fields stand. -/
def entries (place : Place) (inner : Entries) : Entries :=
  match place with
  | document => inner
  | under front name => front ++ [(name, .table .header inner)]

/-- The path of the header under which the next fields stand. -/
def header : Place → List String
  | document => []
  | under _ name => [name]

/-- What has been read, given the entries of the table where the next fields stand. -/
def reading (place : Place) (inner : Entries) : Reading := ⟨place.entries inner, place.header⟩

/-- No table of the last header stands in front of it already. -/
def Fresh : Place → Prop
  | document => True
  | under front name => name ∉ front.map Prod.fst

variable {place : Place} {inner : Entries} {key : String} {node : Node}

/-- A new field is put behind the others where the next fields stand. -/
theorem reach_insert (hplace : place.Fresh) (hkey : key ∉ inner.map Prod.fst) :
    Node.reach (Node.insert node true [key]) place.header (place.entries inner) =
      some (place.entries (inner ++ [(key, node)])) := by
  cases place with
  | document => exact Node.insert_of_new hkey
  | under front name =>
      dsimp only [header, entries]
      rw [Node.reach, Node.find?_concat hplace]
      dsimp only [Node.reach]
      rw [Node.insert_of_new hkey]
      exact congrArg some (Node.put_concat hplace)

theorem openHeader_new {name : String} (hname : name ∉ (place.entries inner).map Prod.fst) :
    (place.reading inner).openHeader [name] false =
      some ((under (place.entries inner) name).reading []) := by
  have hothers : (place.entries inner).filter (fun entry => entry.1 ≠ name) =
      place.entries inner := by
    refine List.filter_eq_self.mpr fun entry hentry => ?_
    exact decide_eq_true fun heq => hname (List.mem_map.mpr ⟨entry, hentry, heq⟩)
  have hopen : Node.openTable name (place.entries inner) =
      some (place.entries inner ++ [(name, .table .header [])]) := by
    unfold Node.openTable
    rw [Node.find?_of_new hname, hothers]
  unfold Reading.openHeader
  exact congrArg (Option.bind · fun entries => some (Reading.mk entries [name])) hopen

end Place

/-! ## Documents -/

/-- The entries that fields are. -/
def leaves (fields : List (String × Scalar)) : Entries :=
  fields.map fun field => (field.1, .leaf field.2)

/-- The entries that tables under headers are. -/
def headed (tables : List (String × List (String × Scalar))) : Entries :=
  tables.map fun table => (table.1, .table .header (leaves table.2))

theorem keys_leaves (fields : List (String × Scalar)) :
    (leaves fields).map Prod.fst = fields.map Prod.fst := by
  simp [leaves, Function.comp_def]

section Documents

variable {cs : List Char} {fields : List (String × Scalar)}
  {tables : List (String × List (String × Scalar))}

theorem lines?_of_head {fuel : Nat} {reading : Reading} {blanks : List Char} {c : Char}
    {more : List Char} (hblanks : Blanks blanks) (hc : c ≠ ' ' ∧ c ≠ '\t') :
    lines? (fuel + 1) reading (blanks ++ c :: more) =
      (line? reading (c :: more)).bind fun found => lines? fuel found.1 found.2 := by
  rw [lines?, skipBlanks_append hblanks (noBlank_cons hc more)]
  rfl

theorem line?_empty (reading : Reading) {c : Char} {more : List Char}
    (hc : c = '#' ∨ c = '\n' ∨ c = '\r') :
    line? reading (c :: more) = (lineRest? (c :: more)).map (reading, ·) := by
  unfold line?
  generalize lineRest? (c :: more) = found
  rcases hc with rfl | rfl | rfl <;> cases found <;> rfl

theorem lines?_nil {fuel : Nat} (hfuel : 0 < fuel) (reading : Reading) :
    lines? fuel reading [] = some reading.entries := by
  obtain ⟨fuel, rfl⟩ := Nat.exists_eq_add_one.mpr hfuel
  rfl

section Steps

variable {fuel : Nat} {reading : Reading} {blanks comment stop tail rest : List Char}

theorem lines?_done (hblanks : Blanks blanks) (hcomment : Comment comment)
    (hfuel : (blanks ++ comment).length < fuel) :
    lines? fuel reading (blanks ++ comment) = some reading.entries := by
  obtain ⟨fuel, rfl⟩ := Nat.exists_eq_add_one.mpr (Nat.zero_lt_of_lt hfuel)
  cases hcomment with
  | absent =>
      rw [lines?, skipBlanks_append hblanks Comment.absent.noBlank]
  | @present cs h =>
      have hrest : lineRest? ([] ++ '#' :: cs) = some [] :=
        (LineRest.last (List.forall_mem_nil _) (.present h)).lineRest?_eq
      rw [List.nil_append] at hrest
      rw [List.length_append, List.length_cons] at hfuel
      rw [lines?_of_head hblanks (by decide), line?_empty reading (.inl rfl), hrest]
      exact lines?_nil (by omega) reading

theorem lines?_empty (hblanks : Blanks blanks) (hcomment : Comment comment)
    (hstop : LineEnd stop) :
    lines? (fuel + 1) reading (blanks ++ (comment ++ (stop ++ rest))) =
      lines? fuel reading rest := by
  obtain ⟨c, more, hhead, hc⟩ := hcomment.exists_head hstop rest
  have hline : lineRest? ([] ++ (comment ++ (stop ++ rest))) = some rest :=
    (LineRest.next (List.forall_mem_nil _) hcomment hstop rest).lineRest?_eq
  rw [List.nil_append, hhead] at hline
  rw [hhead, lines?_of_head hblanks (by rcases hc with rfl | rfl | rfl <;> decide),
    line?_empty reading hc, hline]
  rfl

theorem lines?_field {before middle after : List Char} {key : String} {value : Scalar}
    (hbefore : Blanks before) (hkey : Bare key) (hmiddle : Blanks middle) (hafter : Blanks after)
    (hvalue : ValueText cs value) (htail : LineRest tail rest) :
    lines? (fuel + 1) reading
        (before ++ (key.toList ++ (middle ++ '=' :: (after ++ (cs ++ tail))))) =
      (Node.reach (Node.insert (.leaf value) true [key]) reading.header reading.entries).bind
        fun entries => lines? fuel { reading with entries } rest := by
  obtain ⟨c, more, hcons, hc⟩ := hkey.exists_head
  have hline := line?_field reading hkey hmiddle hafter hvalue htail
  rw [hcons, List.cons_append] at hline ⊢
  rw [lines?_of_head hbefore ⟨ne_of_isBare hc (by decide), ne_of_isBare hc (by decide)⟩, hline,
    Option.bind_map]
  rfl

theorem lines?_header {before inner outer : List Char} {name : String} (hbefore : Blanks before)
    (hinner : Blanks inner) (hname : Bare name) (houter : Blanks outer)
    (htail : LineRest tail rest) :
    lines? (fuel + 1) reading
        (before ++ '[' :: (inner ++ (name.toList ++ (outer ++ ']' :: tail)))) =
      (reading.openHeader [name] false).bind fun opened => lines? fuel opened rest := by
  rw [lines?_of_head hbefore (by decide), line?_header reading hname hinner houter htail,
    Option.bind_map]
  rfl

end Steps

theorem LineEnd.length_pos {stop : List Char} (h : LineEnd stop) : 0 < stop.length := by
  cases h <;> decide

/-- Lines are read one after the other: each field is put behind those before it, and each header
opens a table behind those before it. -/
theorem Lines.lines?_eq (h : Lines cs fields tables) {place : Place} {inner : Entries} {fuel : Nat}
    (hfuel : cs.length < fuel) (hplace : place.Fresh)
    (hnames : ((place.entries (inner ++ leaves fields)).map Prod.fst ++
      tables.map Prod.fst).Nodup)
    (hkeys : ((inner ++ leaves fields).map Prod.fst).Nodup)
    (htables : ∀ table ∈ tables, (table.2.map Prod.fst).Nodup) :
    lines? fuel (place.reading inner) cs =
      some (place.entries (inner ++ leaves fields) ++ headed tables) := by
  have hempty (entries : Entries) : entries ++ leaves [] = entries := List.append_nil entries
  induction h generalizing place inner fuel with
  | done hblanks hcomment =>
      rw [lines?_done hblanks hcomment hfuel, hempty]
      exact congrArg some (List.append_nil _).symm
  | @empty blanks comment stop rest fields tables hblanks hcomment hstop hrest ih =>
      obtain ⟨fuel, rfl⟩ := Nat.exists_eq_add_one.mpr (Nat.zero_lt_of_lt hfuel)
      have hpos := hstop.length_pos
      simp only [List.length_append] at hfuel
      rw [lines?_empty hblanks hcomment hstop]
      exact ih (by omega) hplace hnames hkeys htables
  | @field before middle after cs tail rest key value fields tables hbefore hkey hmiddle hafter
      hvalue htail hrest ih =>
      obtain ⟨fuel, rfl⟩ := Nat.exists_eq_add_one.mpr (Nat.zero_lt_of_lt hfuel)
      have hle := htail.length_le
      simp only [List.length_append, List.length_cons] at hfuel
      have hsplit : inner ++ leaves ((key, value) :: fields) =
          inner ++ [(key, .leaf value)] ++ leaves fields := by simp [leaves]
      have hnew : key ∉ inner.map Prod.fst := by
        rw [List.map_append] at hkeys
        exact fun hmem => (List.nodup_append.mp hkeys).2.2 key hmem key List.mem_cons_self rfl
      rw [hsplit] at hnames hkeys ⊢
      rw [lines?_field hbefore hkey hmiddle hafter hvalue htail]
      dsimp only [Place.reading]
      rw [Place.reach_insert hplace hnew]
      exact ih (by omega) hplace hnames hkeys htables
  | @header before inside outside tail rest name fields tables hbefore hinside hname houtside htail
      hrest ih =>
      obtain ⟨fuel, rfl⟩ := Nat.exists_eq_add_one.mpr (Nat.zero_lt_of_lt hfuel)
      have hle := htail.length_le
      simp only [List.length_append, List.length_cons] at hfuel
      rw [hempty] at hnames ⊢
      have hfresh : name ∉ (place.entries inner).map Prod.fst := fun hmem =>
        (List.nodup_append.mp hnames).2.2 name hmem name List.mem_cons_self rfl
      have hread : lines? fuel ((Place.under (place.entries inner) name).reading []) rest = _ :=
        ih (by omega) hfresh (by simpa [leaves, Place.entries] using hnames)
          (by simpa [keys_leaves] using htables (name, fields) List.mem_cons_self)
          fun table htable => htables table (List.mem_cons_of_mem _ htable)
      rw [lines?_header hbefore hinside hname houtside htail, Place.openHeader_new hfresh]
      refine hread.trans ?_
      simp [headed, Place.entries]

/-- The fields of a document that sets plain values. -/
def scalars (fields : List (String × Scalar)) : List (String × Document) :=
  fields.map fun field => (field.1, .scalar field.2)

/-- The fields of a document that sets plain values, first in itself and then in tables. -/
def plainFields (fields : List (String × Scalar))
    (tables : List (String × List (String × Scalar))) : List (String × Document) :=
  scalars fields ++ tables.map fun table => (table.1, .table (scalars table.2))

/-- Every key and every name is bare. -/
theorem Lines.bare (h : Lines cs fields tables) :
    (∀ field ∈ fields, Bare field.1) ∧
      ∀ table ∈ tables, Bare table.1 ∧ ∀ field ∈ table.2, Bare field.1 := by
  induction h with
  | done => exact ⟨nofun, nofun⟩
  | empty _ _ _ _ ih => exact ih
  | field _ hkey _ _ _ _ _ ih => exact ⟨List.forall_mem_cons.mpr ⟨hkey, ih.1⟩, ih.2⟩
  | header _ _ hname _ _ _ ih =>
      exact ⟨nofun, List.forall_mem_cons.mpr ⟨⟨hname, ih.1⟩, ih.2⟩⟩

theorem Bare.ne_momentKey {key : String} (h : Bare key) : key ≠ Node.momentKey := by
  rintro rfl
  have hbare := h.characters '$' (by decide +kernel)
  revert hbare
  decide

theorem tableDocument?_of_toFields? {entries : Entries} {documents : List (String × Document)}
    (hkeys : ∀ entry ∈ entries, entry.1 ≠ Node.momentKey)
    (h : Node.toFields? entries = some documents) :
    Node.tableDocument? entries = some (.table documents) := by
  cases entries with
  | nil =>
      rw [Node.toFields?] at h
      cases h
      rfl
  | cons entry rest =>
      obtain ⟨key, node⟩ := entry
      have hkey : key ≠ Node.momentKey := hkeys (key, node) List.mem_cons_self
      rw [Node.toFields?] at h
      obtain ⟨document, hdocument, h⟩ := Option.bind_eq_some_iff.mp h
      obtain ⟨others, hothers, h⟩ := Option.bind_eq_some_iff.mp h
      cases h
      rw [Node.tableDocument?.eq_def]
      dsimp only
      rw [if_neg hkey, hdocument, hothers]
      rfl

theorem toFields?_map {α : Type} {key : α → String} {node : α → Node} {document : α → Document}
    {items : List α} (h : ∀ item ∈ items, (node item).toDocument? = some (document item)) :
    Node.toFields? (items.map fun item => (key item, node item)) =
      some (items.map fun item => (key item, document item)) := by
  induction items with
  | nil => rfl
  | cons item rest ih =>
      obtain ⟨hitem, hrest⟩ := List.forall_mem_cons.mp h
      rw [List.map_cons, Node.toFields?, hitem, ih hrest]
      rfl

theorem toFields?_append {entries others : Entries} {documents more : List (String × Document)}
    (h : Node.toFields? entries = some documents) (hothers : Node.toFields? others = some more) :
    Node.toFields? (entries ++ others) = some (documents ++ more) := by
  induction entries generalizing documents with
  | nil =>
      rw [Node.toFields?] at h
      cases h
      exact hothers
  | cons entry rest ih =>
      obtain ⟨key, node⟩ := entry
      rw [Node.toFields?] at h
      obtain ⟨document, hdocument, h⟩ := Option.bind_eq_some_iff.mp h
      obtain ⟨later, hlater, h⟩ := Option.bind_eq_some_iff.mp h
      cases h
      rw [List.cons_append, Node.toFields?, hdocument, ih hlater]
      rfl

theorem toFields?_leaves (fields : List (String × Scalar)) :
    Node.toFields? (leaves fields) = some (scalars fields) :=
  toFields?_map fun _ _ => by rw [Node.toDocument?]

theorem ne_momentKey_of_leaves (h : ∀ field ∈ fields, Bare field.1) :
    ∀ entry ∈ leaves fields, entry.1 ≠ Node.momentKey := by
  intro entry hentry
  obtain ⟨field, hfield, rfl⟩ := List.mem_map.mp hentry
  exact (h field hfield).ne_momentKey

theorem toFields?_headed (h : ∀ table ∈ tables, ∀ field ∈ table.2, Bare field.1) :
    Node.toFields? (headed tables) =
      some (tables.map fun table => (table.1, .table (scalars table.2))) := by
  refine toFields?_map fun table htable => ?_
  rw [Node.toDocument?]
  exact tableDocument?_of_toFields? (ne_momentKey_of_leaves (h table htable))
    (toFields?_leaves table.2)

/-- Plain lines begin with no byte order mark. -/
theorem Lines.head?_ne (h : Lines cs fields tables) : cs.head? ≠ some '\ufeff' := by
  have hblank {blanks rest : List Char} (hblanks : Blanks blanks)
      (hrest : rest.head? ≠ some '\ufeff') : (blanks ++ rest).head? ≠ some '\ufeff' := by
    cases blanks with
    | nil => exact hrest
    | cons b blanks =>
        rintro ⟨⟩
        rcases hblanks '\ufeff' List.mem_cons_self with h | h <;> cases h
  cases h with
  | done hblanks hcomment =>
      refine hblank hblanks ?_
      cases hcomment <;> simp
  | @empty _ _ _ rest _ _ hblanks hcomment hstop =>
      refine hblank hblanks ?_
      obtain ⟨c, more, hhead, hc⟩ := hcomment.exists_head hstop rest
      rw [hhead]
      rcases hc with rfl | rfl | rfl <;> simp
  | field hbefore hkey =>
      refine hblank hbefore ?_
      obtain ⟨c, more, hcons, hc⟩ := hkey.exists_head
      rw [hcons]
      simpa using ne_of_isBare hc (by decide)
  | header hbefore => exact hblank hbefore (by simp)

/-- A text of plain lines is read as the fields and tables that they set, if no name is given
twice. -/
theorem parse?_of_lines {text : String} (h : Lines text.toList fields tables)
    (hnames : (fields.map Prod.fst ++ tables.map Prod.fst).Nodup)
    (htables : ∀ table ∈ tables, (table.2.map Prod.fst).Nodup) :
    parse? text = some (.table (plainFields fields tables)) := by
  have hentries : entries? text = some (leaves fields ++ headed tables) := by
    have hread : lines? (text.toList.length + 1) (Place.document.reading []) text.toList = _ :=
      h.lines?_eq (Nat.lt_succ_self _) trivial (by simpa [Place.entries, keys_leaves] using hnames)
        (by simpa [keys_leaves] using (List.nodup_append.mp hnames).1) htables
    unfold entries?
    dsimp only
    split
    next heq => exact absurd (congrArg List.head? heq) h.head?_ne
    · exact hread
  obtain ⟨hfields, hheaded⟩ := h.bare
  rw [parse?, hentries]
  refine tableDocument?_of_toFields? ?_ (toFields?_append (toFields?_leaves fields)
    (toFields?_headed fun table htable => (hheaded table htable).2))
  intro entry hentry
  rcases List.mem_append.mp hentry with hleaf | htable
  · exact ne_momentKey_of_leaves hfields entry hleaf
  · obtain ⟨table, hmem, rfl⟩ := List.mem_map.mp htable
    exact (hheaded table hmem).1.ne_momentKey

end Documents

/-! ## Loading -/

section Loading

variable {files : Files} {formats : List Format} {environment : Environment}
  {name path text : String} {options : Options} {fields : List (String × Scalar)}
  {tables : List (String × List (String × Scalar))}

/-- A file of plain lines says the fields and tables that they set. -/
theorem says_iff_of_lines (hfound : files.Finds formats name ⟨path, format, Text.Utf8.encode text⟩)
    (h : Lines text.toList fields tables)
    (hnames : (fields.map Prod.fst ++ tables.map Prod.fst).Nodup)
    (htables : ∀ table ∈ tables, (table.2.map Prod.fst).Nodup)
    {said : List (String × Document)} :
    files.Says formats name said ↔ said = plainFields fields tables := by
  have hread : format.read text = .ok (.table (plainFields fields tables)) := by
    dsimp only [format]
    rw [parse?_of_lines h hnames htables]
  rw [hfound.says_iff, hread]
  simp [eq_comm]

/-- Options are loaded from a file of plain lines exactly if they are what these lines, and the
environment, say field by field. -/
theorem load_eq_ok_iff_of_lines (hformats : ∀ format ∈ formats, format.Distinct)
    (henv : environment.Plain)
    (hfound : files.Finds formats name ⟨path, format, Text.Utf8.encode text⟩)
    (h : Lines text.toList fields tables)
    (hnames : (fields.map Prod.fst ++ tables.map Prod.fst).Nodup)
    (htables : ∀ table ∈ tables, (table.2.map Prod.fst).Nodup)
    (hplain : PlainFile (plainFields fields tables)) :
    load formats files environment (some name) = .ok options ↔
      Layered (plainFields fields tables) environment options := by
  have htold {said : List (String × Document)} : FileSays files formats (some name) said ↔
      said = plainFields fields tables :=
    fileSays_some_iff.trans (says_iff_of_lines hfound h hnames htables)
  rw [load_eq_ok_iff hformats henv fun said hsaid => htold.mp hsaid ▸ hplain]
  simp [htold]

end Loading

end BundledReading.Config.Toml

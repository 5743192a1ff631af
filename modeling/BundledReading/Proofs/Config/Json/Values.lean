import BundledReading.Proofs.Config.Json.Tokens

/-!
# JSON values

A grammar of JSON as one inductive relation between texts and what they say. A text is read as a
document exactly if it spells this document. Of several fields of one name the last counts, and
values may be nested 127 deep.

## Implementation notes

Values, the items of an array and the fields of an object are phrases of one relation, so that one
induction goes through all of them. The reader is followed by induction on its fuel; a text of `n`
characters needs `2 * n + 1` of it.
-/

namespace BundledReading.Config.Json

/-- What a part of a text says: a value, a value among blanks, the items of an array up to its
closing bracket, or the fields of an object up to its closing brace. -/
inductive Phrase where
  | value (document : Document)
  | padded (document : Document)
  | items (documents : List Document)
  | fields (fields : List (String × Document))

/-- The name of a field, up to its colon. -/
inductive KeyText : List Char → String → Prop
  | intro {before body key after : List Char} (hbefore : Blanks before) (hkey : Quoted body key)
      (hafter : Blanks after) :
      KeyText (before ++ '"' :: (body ++ '"' :: (after ++ [':']))) (String.ofList key)

/-- How phrases are written that are nested less than `depth` deep. -/
inductive Spells : Nat → List Char → Phrase → Prop
  | null {depth : Nat} : Spells depth "null".toList (.value (.scalar .unit))
  | true {depth : Nat} : Spells depth "true".toList (.value (.scalar (.bool true)))
  | false {depth : Nat} : Spells depth "false".toList (.value (.scalar (.bool false)))
  | text {depth : Nat} {body cs : List Char} (h : Quoted body cs) :
      Spells depth ('"' :: (body ++ ['"'])) (.value (.scalar (.text (String.ofList cs))))
  | natural {depth : Nat} {cs : List Char} {document : Document}
      (h : NumberText false cs document) : Spells depth cs (.value document)
  | negative {depth : Nat} {cs : List Char} {document : Document}
      (h : NumberText true cs document) : Spells depth ('-' :: cs) (.value document)
  | emptyArray {depth : Nat} {blanks : List Char} (hdepth : 0 < depth) (h : Blanks blanks) :
      Spells (depth + 1) ('[' :: (blanks ++ [']'])) (.value (.array []))
  | array {depth : Nat} {cs : List Char} {items : List Document} (hdepth : 0 < depth)
      (h : Spells depth cs (.items items)) :
      Spells (depth + 1) ('[' :: (cs ++ [']'])) (.value (.array items))
  | emptyObject {depth : Nat} {blanks : List Char} (hdepth : 0 < depth) (h : Blanks blanks) :
      Spells (depth + 1) ('\x7b' :: (blanks ++ ['\x7d'])) (.value (.table []))
  | object {depth : Nat} {cs : List Char} {fields : List (String × Document)} (hdepth : 0 < depth)
      (h : Spells depth cs (.fields fields)) :
      Spells (depth + 1) ('\x7b' :: (cs ++ ['\x7d'])) (.value (.table (keepLast fields)))
  | padded {depth : Nat} {before cs after : List Char} {document : Document}
      (hbefore : Blanks before) (h : Spells depth cs (.value document)) (hafter : Blanks after) :
      Spells depth (before ++ (cs ++ after)) (.padded document)
  | lastItem {depth : Nat} {cs : List Char} {item : Document} (h : Spells depth cs (.padded item)) :
      Spells depth cs (.items [item])
  | moreItems {depth : Nat} {cs rest : List Char} {item : Document} {items : List Document}
      (h : Spells depth cs (.padded item)) (hrest : Spells depth rest (.items items)) :
      Spells depth (cs ++ ',' :: rest) (.items (item :: items))
  | lastField {depth : Nat} {front cs : List Char} {key : String} {value : Document}
      (hkey : KeyText front key) (h : Spells depth cs (.padded value)) :
      Spells depth (front ++ cs) (.fields [(key, value)])
  | moreFields {depth : Nat} {front cs rest : List Char} {key : String} {value : Document}
      {fields : List (String × Document)} (hkey : KeyText front key)
      (h : Spells depth cs (.padded value)) (hrest : Spells depth rest (.fields fields)) :
      Spells depth (front ++ (cs ++ ',' :: rest)) (.fields ((key, value) :: fields))

/-! ## What is written is read -/

section Reading

variable {depth fuel : Nat} {cs before rest : List Char} {document : Document} {phrase : Phrase}

/-- Blanks before a value do not count. -/
theorem value_append (h : Blanks before) (hrest : NoBlank rest) :
    value fuel depth (before ++ rest) = value fuel depth rest := by
  cases fuel with
  | zero => rfl
  | succ fuel =>
      rw [value.eq_def, value.eq_def _ _ rest]
      dsimp only
      rw [skipBlanks_append h hrest, hrest.skipBlanks_eq]

theorem value_digit {d : Char} (h : d.isDigit) :
    value (fuel + 1) depth (d :: rest) = number false (d :: rest) := by
  have hskip := (noBlank_cons (not_blank_of_isDigit h) rest).skipBlanks_eq
  rw [value.eq_def]
  dsimp only
  rw [hskip]
  split
  case h_9 heq =>
    cases heq
    exact if_pos h
  all_goals
    rename_i heq
    cases heq
    try cases h

/-- Nothing, or a mark that ends an item or a field. -/
def EndsItem (rest : List Char) : Prop := ∀ c ∈ rest.head?, c ∈ [',', ']', '\x7d']

theorem endsItem_cons {c : Char} (h : c ∈ [',', ']', '\x7d']) (rest : List Char) :
    EndsItem (c :: rest) := by
  rintro _ ⟨⟩
  exact h

/-- No value begins with a blank. -/
theorem Spells.noBlank (h : Spells depth cs (.value document)) (rest : List Char) :
    NoBlank (cs ++ rest) := by
  cases h with
  | natural h =>
      obtain ⟨d, more, rfl, hd⟩ := h.exists_digit
      exact noBlank_cons (not_blank_of_isDigit hd) _
  | _ => exact noBlank_cons (by decide) _

theorem EndsItem.endsNumber {after : List Char} (hafter : Blanks after) (h : EndsItem rest) :
    EndsNumber (after ++ rest) := by
  intro c hc
  have hmark : c ∈ [' ', '\n', '\t', '\r'] ∨ c ∈ [',', ']', '\x7d'] := by
    cases after with
    | nil => exact .inr (h c hc)
    | cons d after =>
        obtain rfl := Option.some.inj hc
        exact .inl (hafter _ (by simp))
  simp only [List.mem_cons, List.not_mem_nil, or_false] at hmark
  obtain (rfl | rfl | rfl | rfl) | (rfl | rfl | rfl) := hmark <;> decide

/-! ### Arrays and objects -/

theorem items_skipBlanks (cs : List Char) :
    items fuel depth (skipBlanks cs) = items fuel depth cs := by
  obtain ⟨before, hcs, hbefore, hrest⟩ := exists_blanks cs
  cases fuel with
  | zero => rfl
  | succ fuel =>
      rw [items, items, ← value_append hbefore hrest, ← hcs]

theorem fields_skipBlanks (cs : List Char) :
    fields fuel depth (skipBlanks cs) = fields fuel depth cs := by
  obtain ⟨-, -, -, hrest⟩ := exists_blanks cs
  cases fuel with
  | zero => rfl
  | succ fuel =>
      rw [fields.eq_def, fields.eq_def _ _ cs]
      dsimp only
      rw [hrest.skipBlanks_eq]

section Brackets

variable {documents : List Document} {list : List (String × Document)} {last : List Char}

theorem items_of_skipBlanks_ne (h : items fuel depth cs = .ok (documents, last))
    (rest : List Char) : skipBlanks cs ≠ [] ∧ skipBlanks cs ≠ ']' :: rest := by
  rw [← items_skipBlanks] at h
  refine ⟨fun hcs => ?_, fun hcs => ?_⟩ <;>
  · rw [hcs] at h
    rcases fuel with _ | _ | fuel <;> cases h

theorem value_of_items (hdepth : 0 < depth) (h : items fuel depth cs = .ok (documents, last)) :
    value (fuel + 1) (depth + 1) ('[' :: cs) = .ok (.array documents, last) := by
  have hblank := items_of_skipBlanks_ne h
  change (if depth + 1 ≤ 1 then _ else _) = _
  rw [if_neg (by omega)]
  split
  next hcs => exact absurd hcs (hblank []).1
  next hcs => exact absurd hcs (hblank _).2
  · rw [Nat.add_sub_cancel, items_skipBlanks, h]
    rfl

theorem fields_of_skipBlanks_ne (h : fields fuel depth cs = .ok (list, last)) (rest : List Char) :
    skipBlanks cs ≠ [] ∧ skipBlanks cs ≠ '\x7d' :: rest := by
  rw [← fields_skipBlanks] at h
  refine ⟨fun hcs => ?_, fun hcs => ?_⟩ <;>
  · rw [hcs] at h
    cases fuel <;> cases h

theorem value_of_fields (hdepth : 0 < depth) (h : fields fuel depth cs = .ok (list, last)) :
    value (fuel + 1) (depth + 1) ('\x7b' :: cs) = .ok (.table (keepLast list), last) := by
  have hblank := fields_of_skipBlanks_ne h
  change (if depth + 1 ≤ 1 then _ else _) = _
  rw [if_neg (by omega)]
  split
  next hcs => exact absurd hcs (hblank []).1
  next hcs => exact absurd hcs (hblank _).2
  · rw [Nat.add_sub_cancel, fields_skipBlanks, h]
    rfl

theorem items_last {after : List Char} (hafter : Blanks after)
    (h : value fuel depth cs = .ok (document, after ++ ']' :: last)) :
    items (fuel + 1) depth cs = .ok ([document], last) := by
  rw [items, h]
  dsimp only [bind, Except.bind]
  rw [skipBlanks_append hafter (noBlank_cons (by decide) _)]
  rfl

theorem items_more {after : List Char} (hafter : Blanks after)
    (h : value fuel depth cs = .ok (document, after ++ ',' :: rest))
    (hrest : items fuel depth rest = .ok (documents, last)) :
    items (fuel + 1) depth cs = .ok (document :: documents, last) := by
  rw [items, h]
  dsimp only [bind, Except.bind]
  rw [skipBlanks_append hafter (noBlank_cons (by decide) _)]
  split
  next heq => cases heq
  next tail heq =>
    obtain rfl := (List.cons.inj heq).2
    split
    next hbracket => exact absurd hbracket (items_of_skipBlanks_ne hrest _).2
    · rw [items_skipBlanks, hrest]
      rfl
  next heq => exact absurd (List.cons.inj heq).1 (by decide)
  next hcomma _ => exact absurd rfl (hcomma rest)

/-- The reader of fields behind a name and its colon. -/
theorem KeyText.fields_append {front : List Char} {key : String} (h : KeyText front key)
    (rest : List Char) :
    fields (fuel + 1) depth (front ++ rest) = (do
      let (value, rest) ← value fuel depth rest
      match skipBlanks rest with
      | [] => .error (.atEnd .endInObject)
      | ',' :: rest =>
        let (fields, rest) ← fields fuel depth rest
        return ((key, value) :: fields, rest)
      | '\x7d' :: rest => return ([(key, value)], rest)
      | rest => .error (.inside .noObjectEnd rest)) := by
  obtain ⟨hbefore, hkey, hafter⟩ := h
  rename_i before body key after
  have hlength : body.length < (body ++ '"' :: (after ++ ':' :: rest)).length + 1 := by
    simp only [List.length_append]
    omega
  have hfront : before ++ '"' :: (body ++ '"' :: (after ++ [':'])) ++ rest
      = before ++ '"' :: (body ++ '"' :: (after ++ ':' :: rest)) := by simp
  rw [hfront, fields.eq_def]
  dsimp only
  rw [skipBlanks_append hbefore (noBlank_cons (by decide) _)]
  change (characters _ (body ++ '"' :: (after ++ ':' :: rest)) >>= _) = _
  rw [hkey.characters_append hlength]
  dsimp only [bind, Except.bind]
  rw [skipBlanks_append hafter (noBlank_cons (by decide) _)]
  rfl

theorem fields_last {front after : List Char} {key : String} (hkey : KeyText front key)
    (hafter : Blanks after) (h : value fuel depth cs = .ok (document, after ++ '\x7d' :: last)) :
    fields (fuel + 1) depth (front ++ cs) = .ok ([(key, document)], last) := by
  rw [hkey.fields_append, h]
  dsimp only [bind, Except.bind]
  rw [skipBlanks_append hafter (noBlank_cons (by decide) _)]
  rfl

theorem fields_more {front after : List Char} {key : String} (hkey : KeyText front key)
    (hafter : Blanks after) (h : value fuel depth cs = .ok (document, after ++ ',' :: rest))
    (hrest : fields fuel depth rest = .ok (list, last)) :
    fields (fuel + 1) depth (front ++ cs) = .ok ((key, document) :: list, last) := by
  rw [hkey.fields_append, h]
  dsimp only [bind, Except.bind]
  rw [skipBlanks_append hafter (noBlank_cons (by decide) _)]
  change (fields fuel depth rest >>= fun (list, rest) =>
    Except.ok ((key, document) :: list, rest)) = _
  rw [hrest]
  rfl

end Brackets

theorem enclosed_append (first last : Char) (body rest : List Char) :
    first :: (body ++ [last]) ++ rest = first :: (body ++ last :: rest) := by simp

/-- What the reader makes of a phrase with enough fuel. -/
def ReadAs (depth : Nat) (cs : List Char) : Phrase → Prop
  | .value document => ∀ fuel rest, 2 * cs.length < fuel → EndsNumber rest →
      value fuel depth (cs ++ rest) = .ok (document, rest)
  | .padded document => ∀ fuel rest, 2 * cs.length < fuel → EndsItem rest →
      ∃ after, Blanks after ∧ value fuel depth (cs ++ rest) = .ok (document, after ++ rest)
  | .items documents => ∀ fuel rest, 2 * cs.length + 1 < fuel →
      items fuel depth (cs ++ ']' :: rest) = .ok (documents, rest)
  | .fields list => ∀ fuel rest, 2 * cs.length + 1 < fuel →
      fields fuel depth (cs ++ '\x7d' :: rest) = .ok (list, rest)

theorem Spells.readAs (h : Spells depth cs phrase) : ReadAs depth cs phrase := by
  induction h with
  | null =>
      rintro (_ | fuel) rest hfuel -
      · omega
      · rfl
  | true =>
      rintro (_ | fuel) rest hfuel -
      · omega
      · rfl
  | false =>
      rintro (_ | fuel) rest hfuel -
      · omega
      · rfl
  | @text depth body cs h =>
      rintro (_ | fuel) rest hfuel -
      · omega
      · have hlength : body.length < (body ++ '"' :: rest).length + 1 := by
          simp only [List.length_append]
          omega
        rw [enclosed_append]
        change (characters _ (body ++ '"' :: rest) >>= _) = _
        rw [h.characters_append hlength]
        rfl
  | natural h =>
      rintro (_ | fuel) rest hfuel hrest
      · omega
      · obtain ⟨d, more, rfl, hd⟩ := h.exists_digit
        rw [List.cons_append, value_digit hd]
        exact h.number_append hrest
  | negative h =>
      rintro (_ | fuel) rest hfuel hrest
      · omega
      · exact h.number_append hrest
  | @emptyArray depth blanks hdepth h =>
      rintro (_ | fuel) rest hfuel -
      · omega
      · rw [enclosed_append]
        change (if depth + 1 ≤ 1 then _ else _) = _
        rw [if_neg (by omega), skipBlanks_append h (noBlank_cons (by decide) _)]
        rfl
  | @array depth cs documents hdepth h ih =>
      rintro (_ | fuel) rest hfuel -
      · omega
      · rw [enclosed_append]
        simp only [List.length_cons, List.length_append] at hfuel
        exact value_of_items hdepth (ih fuel rest (by omega))
  | @emptyObject depth blanks hdepth h =>
      rintro (_ | fuel) rest hfuel -
      · omega
      · rw [enclosed_append]
        change (if depth + 1 ≤ 1 then _ else _) = _
        rw [if_neg (by omega), skipBlanks_append h (noBlank_cons (by decide) _)]
        rfl
  | @object depth cs list hdepth h ih =>
      rintro (_ | fuel) rest hfuel -
      · omega
      · rw [enclosed_append]
        simp only [List.length_cons, List.length_append] at hfuel
        exact value_of_fields hdepth (ih fuel rest (by omega))
  | @padded depth before cs after document hbefore h hafter ih =>
      intro fuel rest hfuel hrest
      simp only [List.length_append] at hfuel
      refine ⟨after, hafter, ?_⟩
      rw [List.append_assoc, List.append_assoc, value_append hbefore (h.noBlank _)]
      exact ih fuel (after ++ rest) (by omega) (hrest.endsNumber hafter)
  | lastItem h ih =>
      rintro (_ | fuel) rest hfuel
      · omega
      · obtain ⟨after, hafter, hvalue⟩ := ih fuel (']' :: rest) (by omega)
          (endsItem_cons (by decide) _)
        exact items_last hafter hvalue
  | @moreItems depth cs more item documents h hrest ih ihrest =>
      rintro (_ | fuel) rest hfuel
      · omega
      · simp only [List.length_append, List.length_cons] at hfuel
        obtain ⟨after, hafter, hvalue⟩ := ih fuel (',' :: (more ++ ']' :: rest)) (by omega)
          (endsItem_cons (by decide) _)
        rw [List.append_assoc]
        exact items_more hafter hvalue (ihrest fuel rest (by omega))
  | @lastField depth front cs key document hkey h ih =>
      rintro (_ | fuel) rest hfuel
      · omega
      · simp only [List.length_append] at hfuel
        obtain ⟨after, hafter, hvalue⟩ := ih fuel ('\x7d' :: rest) (by omega)
          (endsItem_cons (by decide) _)
        rw [List.append_assoc]
        exact fields_last hkey hafter hvalue
  | @moreFields depth front cs more key document list hkey h hrest ih ihrest =>
      rintro (_ | fuel) rest hfuel
      · omega
      · simp only [List.length_append, List.length_cons] at hfuel
        obtain ⟨after, hafter, hvalue⟩ := ih fuel (',' :: (more ++ '\x7d' :: rest)) (by omega)
          (endsItem_cons (by decide) _)
        rw [List.append_assoc, List.append_assoc]
        exact fields_more hkey hafter hvalue (ihrest fuel rest (by omega))

end Reading

/-! ## What is read is written -/

section Writing

variable {fuel depth : Nat} {cs rest word : List Char} {document : Document}
  {documents : List Document} {list : List (String × Document)} {found : Document × List Char}

/-- What is read as a value with this fuel spells it, behind blanks. -/
def ValuesSpelled (fuel : Nat) : Prop :=
  ∀ {depth : Nat} {cs rest : List Char} {document : Document},
    value fuel depth cs = .ok (document, rest) →
      ∃ before text, cs = before ++ (text ++ rest) ∧ Blanks before ∧
        Spells depth text (.value document)

/-- What is read as items with this fuel spells them. -/
def ItemsSpelled (fuel : Nat) : Prop :=
  ∀ {depth : Nat} {cs rest : List Char} {documents : List Document},
    items fuel depth cs = .ok (documents, rest) →
      ∃ text, cs = text ++ ']' :: rest ∧ Spells depth text (.items documents)

/-- What is read as fields with this fuel spells them. -/
def FieldsSpelled (fuel : Nat) : Prop :=
  ∀ {depth : Nat} {cs rest : List Char} {list : List (String × Document)},
    fields fuel depth cs = .ok (list, rest) →
      ∃ text, cs = text ++ '\x7d' :: rest ∧ Spells depth text (.fields list)

theorem eq_append_of_afterWord (h : afterWord word cs = .ok rest) : cs = word ++ rest := by
  induction word generalizing cs with
  | nil => exact Except.ok.inj h
  | cons w word ih =>
      cases cs with
      | nil => cases h
      | cons c cs =>
          rw [afterWord] at h
          split at h
          next hletter => rw [hletter, ih h, List.cons_append]
          · cases h

theorem exists_of_map_afterWord (h : (document, ·) <$> afterWord word cs = .ok found) :
    cs = word ++ found.2 ∧ document = found.1 := by
  cases hword : afterWord word cs with
  | error fault =>
      rw [hword] at h
      cases h
  | ok left =>
      rw [hword] at h
      cases h
      exact ⟨eq_append_of_afterWord hword, rfl⟩

/-! ### Blanks in front -/

section Front

variable {before : List Char} (hbefore : Blanks before)
include hbefore

theorem Blanks.append {more : List Char} (hmore : Blanks more) : Blanks (before ++ more) :=
  List.forall_mem_append.mpr ⟨hbefore, hmore⟩

theorem KeyText.append {key : String} (h : KeyText cs key) : KeyText (before ++ cs) key := by
  obtain ⟨hfront, hkey, hafter⟩ := h
  rw [← List.append_assoc]
  exact .intro (hbefore.append hfront) hkey hafter

theorem Spells.padded_append (h : Spells depth cs (.padded document)) :
    Spells depth (before ++ cs) (.padded document) := by
  cases h with
  | padded hfront h hafter =>
      rw [← List.append_assoc]
      exact .padded (hbefore.append hfront) h hafter

theorem Spells.items_append (h : Spells depth cs (.items documents)) :
    Spells depth (before ++ cs) (.items documents) := by
  cases h with
  | lastItem h => exact .lastItem (h.padded_append hbefore)
  | moreItems h hrest =>
      rw [← List.append_assoc]
      exact .moreItems (h.padded_append hbefore) hrest

theorem Spells.fields_append (h : Spells depth cs (.fields list)) :
    Spells depth (before ++ cs) (.fields list) := by
  cases h with
  | lastField hkey h =>
      rw [← List.append_assoc]
      exact .lastField (hkey.append hbefore) h
  | moreFields hkey h hrest =>
      rw [← List.append_assoc]
      exact .moreFields (hkey.append hbefore) h hrest

end Front

/-! ### The steps of the reader -/

theorem exists_of_bracket (hitems : ItemsSpelled fuel)
    (h : value (fuel + 1) depth ('[' :: cs) = .ok (document, rest)) :
    ∃ text, '[' :: cs = text ++ rest ∧ Spells depth text (.value document) := by
  obtain ⟨blanks, hcs, hblanks, -⟩ := exists_blanks cs
  change (if depth ≤ 1 then _ else _) = _ at h
  split at h
  · cases h
  next hdeep =>
    obtain ⟨depth, rfl⟩ := Nat.exists_eq_succ_of_ne_zero (n := depth) (by omega)
    have hdepth : 0 < depth := by omega
    split at h
    · cases h
    next hempty =>
      cases h
      rw [hempty] at hcs
      exact ⟨_, (hcs ▸ enclosed_append _ _ _ _).symm, .emptyArray hdepth hblanks⟩
    · obtain ⟨⟨documents, left⟩, hread, h⟩ := exists_of_bind_eq_ok h
      cases h
      obtain ⟨text, htext, hspells⟩ := hitems hread
      rw [htext, ← List.append_assoc] at hcs
      exact ⟨_, (hcs ▸ enclosed_append _ _ _ _).symm,
        .array hdepth (hspells.items_append hblanks)⟩

theorem exists_of_brace (hfields : FieldsSpelled fuel)
    (h : value (fuel + 1) depth ('\x7b' :: cs) = .ok (document, rest)) :
    ∃ text, '\x7b' :: cs = text ++ rest ∧ Spells depth text (.value document) := by
  obtain ⟨blanks, hcs, hblanks, -⟩ := exists_blanks cs
  change (if depth ≤ 1 then _ else _) = _ at h
  split at h
  · cases h
  next hdeep =>
    obtain ⟨depth, rfl⟩ := Nat.exists_eq_succ_of_ne_zero (n := depth) (by omega)
    have hdepth : 0 < depth := by omega
    split at h
    · cases h
    next hempty =>
      cases h
      rw [hempty] at hcs
      exact ⟨_, (hcs ▸ enclosed_append _ _ _ _).symm, .emptyObject hdepth hblanks⟩
    · obtain ⟨⟨list, left⟩, hread, h⟩ := exists_of_bind_eq_ok h
      cases h
      obtain ⟨text, htext, hspells⟩ := hfields hread
      rw [htext, ← List.append_assoc] at hcs
      exact ⟨_, (hcs ▸ enclosed_append _ _ _ _).symm,
        .object hdepth (hspells.fields_append hblanks)⟩

/-- A value and the blanks behind it. -/
theorem ValuesSpelled.exists_padded (hvalues : ValuesSpelled fuel)
    (h : value fuel depth cs = .ok (document, rest)) :
    ∃ text, cs = text ++ skipBlanks rest ∧ Spells depth text (.padded document) := by
  obtain ⟨before, text, hcs, hbefore, hspells⟩ := hvalues h
  obtain ⟨after, hrest, hafter, -⟩ := exists_blanks rest
  refine ⟨before ++ (text ++ after), ?_, .padded hbefore hspells hafter⟩
  rw [List.append_assoc, List.append_assoc, ← hrest]
  exact hcs

theorem ItemsSpelled.succ (hvalues : ValuesSpelled fuel) (hitems : ItemsSpelled fuel) :
    ItemsSpelled (fuel + 1) := by
  intro depth cs rest documents h
  rw [items] at h
  obtain ⟨⟨item, left⟩, hvalue, h⟩ := exists_of_bind_eq_ok h
  obtain ⟨text, hcs, hitem⟩ := hvalues.exists_padded hvalue
  dsimp only at h
  split at h
  · cases h
  next tail hcomma =>
    obtain ⟨blanks, htail, hblanks, -⟩ := exists_blanks tail
    split at h
    · cases h
    · obtain ⟨⟨more, last⟩, hmore, h⟩ := exists_of_bind_eq_ok h
      cases h
      obtain ⟨moreText, hskip, hspells⟩ := hitems hmore
      refine ⟨text ++ ',' :: (blanks ++ moreText), ?_,
        .moreItems hitem (hspells.items_append hblanks)⟩
      rw [hcs, hcomma, htail, hskip]
      simp
  next tail hbracket =>
    cases h
    exact ⟨text, hbracket ▸ hcs, .lastItem hitem⟩
  · cases h

theorem FieldsSpelled.succ (hvalues : ValuesSpelled fuel) (hfields : FieldsSpelled fuel) :
    FieldsSpelled (fuel + 1) := by
  intro depth cs rest list h
  obtain ⟨before, hcs, hbefore, -⟩ := exists_blanks cs
  rw [fields.eq_def] at h
  dsimp only at h
  split at h
  · cases h
  next tail hquote =>
    obtain ⟨⟨key, afterKey⟩, hkey, h⟩ := exists_of_bind_eq_ok h
    obtain ⟨body, htail, hbody⟩ := exists_of_characters hkey
    obtain ⟨after, hafterKey, hafter, -⟩ := exists_blanks afterKey
    dsimp only at h
    split at h
    · cases h
    next afterColon hcolon =>
      have hkeyText := KeyText.intro hbefore hbody hafter
      have hfront : cs = before ++ '"' :: (body ++ '"' :: (after ++ [':'])) ++ afterColon := by
        rw [hcs, hquote, htail, hafterKey, hcolon]
        simp
      obtain ⟨⟨item, left⟩, hvalue, h⟩ := exists_of_bind_eq_ok h
      obtain ⟨text, hafterColon, hitem⟩ := hvalues.exists_padded hvalue
      dsimp only at h
      split at h
      · cases h
      next afterComma hcomma =>
        obtain ⟨⟨more, last⟩, hmore, h⟩ := exists_of_bind_eq_ok h
        cases h
        obtain ⟨moreText, hafterComma, hspells⟩ := hfields hmore
        refine ⟨_, ?_, .moreFields hkeyText hitem hspells⟩
        rw [hfront, hafterColon, hcomma, hafterComma]
        simp
      next afterBrace hbrace =>
        cases h
        refine ⟨_, ?_, .lastField hkeyText hitem⟩
        rw [hfront, hafterColon, hbrace]
        simp
      · cases h
    · cases h
  · cases h
  · cases h

/-- The step of the reader of values. -/
theorem ValuesSpelled.succ (hitems : ItemsSpelled fuel) (hfields : FieldsSpelled fuel) :
    ValuesSpelled (fuel + 1) := by
  intro depth cs rest document h
  obtain ⟨before, hcs, hbefore, -⟩ := exists_blanks cs
  have hspells : ∃ text, skipBlanks cs = text ++ rest ∧ Spells depth text (.value document) := by
    rw [value.eq_def] at h
    dsimp only at h
    split at h
    · cases h
    next tail hn =>
      obtain ⟨rfl, rfl⟩ := exists_of_map_afterWord h
      exact ⟨_, hn, .null⟩
    next tail ht =>
      obtain ⟨rfl, rfl⟩ := exists_of_map_afterWord h
      exact ⟨_, ht, .true⟩
    next tail hf =>
      obtain ⟨rfl, rfl⟩ := exists_of_map_afterWord h
      exact ⟨_, hf, .false⟩
    next tail hquote =>
      obtain ⟨⟨chars, left⟩, hchars, h⟩ := exists_of_bind_eq_ok h
      cases h
      obtain ⟨body, rfl, hbody⟩ := exists_of_characters hchars
      exact ⟨_, hquote.trans (enclosed_append _ _ _ _).symm, .text hbody⟩
    next tail hbracket =>
      rw [hbracket]
      exact exists_of_bracket hitems h
    next tail hbrace =>
      rw [hbrace]
      exact exists_of_brace hfields h
    next tail hminus =>
      obtain ⟨text, rfl, htext⟩ := exists_of_number h
      exact ⟨_, hminus, .negative htext⟩
    next d tail hd =>
      split at h
      · obtain ⟨text, htail, htext⟩ := exists_of_number h
        exact ⟨text, hd.trans htail, .natural htext⟩
      · cases h
  obtain ⟨text, htext, hspells⟩ := hspells
  exact ⟨before, text, htext ▸ hcs, hbefore, hspells⟩

theorem read_isSpelled (fuel : Nat) :
    ValuesSpelled fuel ∧ ItemsSpelled fuel ∧ FieldsSpelled fuel := by
  induction fuel with
  | zero => exact ⟨nofun, nofun, nofun⟩
  | succ fuel ih =>
      obtain ⟨hvalues, hitems, hfields⟩ := ih
      exact ⟨ValuesSpelled.succ hitems hfields, ItemsSpelled.succ hvalues hitems,
        FieldsSpelled.succ hvalues hfields⟩

end Writing

/-- A text is read as a document exactly if it spells this document. -/
theorem parse_eq_ok_iff {text : String} {document : Document} :
    parse text = .ok document ↔ Spells 128 text.toList (.padded document) := by
  constructor
  · intro h
    obtain ⟨⟨found, rest⟩, hvalue, h⟩ := exists_of_bind_eq_ok h
    obtain ⟨cs, htext, hspells⟩ := ValuesSpelled.exists_padded (read_isSpelled _).1 hvalue
    dsimp only at h
    split at h
    next hrest =>
      cases h
      rw [htext, hrest, List.append_nil]
      exact hspells
    · cases h
  · intro h
    obtain ⟨after, hafter, hvalue⟩ :=
      h.readAs (2 * text.toList.length + 2) [] (by omega) (by simp [EndsItem])
    have hblank : skipBlanks (after ++ []) = [] := skipBlanks_append hafter (by simp [NoBlank])
    rw [List.append_nil] at hvalue
    rw [parse, hvalue]
    dsimp only [bind, Except.bind]
    rw [hblank]
    rfl

end BundledReading.Config.Json

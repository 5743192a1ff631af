import BundledReading.Proofs.RoundTrips
import BundledReading.Proofs.WholeReading
import Mathlib.Data.List.Basic

/-!
# Building sources

A source is built from a list of values all at once or not at all. Which coder is used is settled
before any value is looked at, the first value that the coder refuses is named by its place, and a
source that comes about holds the codes of all values, in order, and gives the values back.

## Implementation notes

Encoding a list is characterised twice, by the list of all codes (`encodeFrom_eq_ok_iff`) and by the
first value without one (`encodeFrom_eq_error_iff`). Everything else is read off these two.
-/

namespace BundledReading

variable {α : Type}

/-- The value at `index` is the first that the coder refuses, and `cause` is why. -/
def Coder.RefusesFirst (coder : Coder α) (values : List α) (index : Nat) (cause : CoderError) :
    Prop :=
  (∃ value, values[index]? = some value ∧ coder.encode value = .error cause) ∧
    ∀ earlier < index, ∀ value, values[earlier]? = some value →
      ∃ code, coder.encode value = .ok code

theorem Coder.refusesFirst_cons_iff {coder : Coder α} {value : α} {rest : List α} {index : Nat}
    {cause : CoderError} :
    coder.RefusesFirst (value :: rest) index cause ↔
      index = 0 ∧ coder.encode value = .error cause ∨
        ∃ code before, coder.encode value = .ok code ∧ index = before + 1 ∧
          coder.RefusesFirst rest before cause := by
  cases index with
  | zero => simp [RefusesFirst]
  | succ before =>
      constructor
      · rintro ⟨hrefused, hearlier⟩
        obtain ⟨code, hcode⟩ := hearlier 0 (Nat.succ_pos before) value rfl
        refine Or.inr ⟨code, before, hcode, rfl, hrefused, ?_⟩
        intro earlier hlt
        exact hearlier (earlier + 1) (Nat.succ_lt_succ hlt)
      · rintro (⟨hzero, -⟩ | ⟨code, other, hcode, hindex, hrefused, hearlier⟩)
        · exact absurd hzero (Nat.succ_ne_zero before)
        · obtain rfl := Nat.succ.inj hindex
          refine ⟨hrefused, ?_⟩
          rintro (_ | earlier) hlt other hother
          · obtain rfl : value = other := Option.some.inj hother
            exact ⟨code, hcode⟩
          · exact hearlier earlier (Nat.lt_of_succ_lt_succ hlt) other hother

namespace Buffer

variable {coder : Coder α} {index : Nat} {value : α} {values rest : List α}

theorem encodeFrom_cons_eq_ok_iff {codes : List Bytes} :
    encodeFrom coder index (value :: rest) = .ok codes ↔
      ∃ code others, coder.encode value = .ok code ∧
        encodeFrom coder (index + 1) rest = .ok others ∧ codes = code :: others := by
  rw [encodeFrom]
  cases coder.encode value with
  | error cause => simp [Except.mapError, bind, Except.bind]
  | ok code =>
      cases encodeFrom coder (index + 1) rest with
      | error failure => simp [Except.mapError, bind, Except.bind]
      | ok others => simp [Except.mapError, pure, Except.pure, bind, Except.bind, eq_comm]

theorem encodeFrom_cons_eq_error_iff {failure : Failure} :
    encodeFrom coder index (value :: rest) = .error failure ↔
      (∃ cause, coder.encode value = .error cause ∧ failure = .encode index cause) ∨
        ∃ code, coder.encode value = .ok code ∧
          encodeFrom coder (index + 1) rest = .error failure := by
  rw [encodeFrom]
  cases coder.encode value with
  | error cause => simp [Except.mapError, bind, Except.bind, eq_comm]
  | ok code =>
      cases encodeFrom coder (index + 1) rest with
      | error failure => simp [Except.mapError, bind, Except.bind]
      | ok others => simp [Except.mapError, pure, Except.pure, bind, Except.bind]

/-- Encoding succeeds with the codes of all values. -/
theorem encodeFrom_eq_ok_iff {codes : List Bytes} :
    encodeFrom coder index values = .ok codes ↔ values.map coder.encode = codes.map .ok := by
  induction values generalizing index codes with
  | nil => simp [encodeFrom, eq_comm]
  | cons value rest ih =>
      rw [encodeFrom_cons_eq_ok_iff, List.map_cons]
      cases codes with
      | nil => simp
      | cons first codes =>
          simp only [ih, List.map_cons, List.cons.injEq]
          constructor
          · rintro ⟨code, others, hcode, hothers, rfl, rfl⟩
            exact ⟨hcode, hothers⟩
          · rintro ⟨hcode, hothers⟩
            exact ⟨first, codes, hcode, hothers, rfl, rfl⟩

/-- Encoding fails with the first value that is refused. -/
theorem encodeFrom_eq_error_iff {failure : Failure} :
    encodeFrom coder index values = .error failure ↔
      ∃ before cause, coder.RefusesFirst values before cause ∧
        failure = .encode (index + before) cause := by
  induction values generalizing index with
  | nil => simp [encodeFrom, Coder.RefusesFirst]
  | cons value rest ih =>
      simp only [encodeFrom_cons_eq_error_iff, ih, Coder.refusesFirst_cons_iff]
      constructor
      · rintro (⟨cause, hcause, rfl⟩ | ⟨code, hcode, before, cause, hrefused, rfl⟩)
        · exact ⟨0, cause, Or.inl ⟨rfl, hcause⟩, rfl⟩
        · refine ⟨before + 1, cause, Or.inr ⟨code, before, hcode, rfl, hrefused⟩, ?_⟩
          rw [Nat.add_assoc, Nat.add_comm 1]
      · rintro ⟨_, cause, ⟨rfl, hcause⟩ | ⟨code, before, hcode, rfl, hrefused⟩, rfl⟩
        · exact Or.inl ⟨cause, hcause, rfl⟩
        · refine Or.inr ⟨code, hcode, before, cause, hrefused, ?_⟩
          rw [Nat.add_assoc, Nat.add_comm 1]

/-- The buffer of a list of values holds their codes. -/
theorem encode_eq_ok_iff {coder : SharedCoder α} {buffer : Buffer α} :
    encode coder values = .ok buffer ↔
      ∃ codes, values.map coder.encode = codes.map .ok ∧ buffer = ofEncoded coder codes := by
  rw [encode]
  cases hcodes : encodeFrom coder.toCoder 0 values with
  | error failure =>
      constructor
      · intro h
        cases h
      · rintro ⟨codes, hmap, -⟩
        rw [← @encodeFrom_eq_ok_iff _ _ 0, hcodes] at hmap
        cases hmap
  | ok codes =>
      constructor
      · intro h
        exact ⟨codes, encodeFrom_eq_ok_iff.mp hcodes, (Except.ok.inj h).symm⟩
      · rintro ⟨others, hmap, rfl⟩
        rw [← @encodeFrom_eq_ok_iff _ _ 0, hcodes] at hmap
        rw [Except.ok.inj hmap]
        rfl

theorem encode_eq_error_iff {coder : SharedCoder α} {failure : Failure} :
    encode coder values = .error failure ↔
      ∃ index cause, coder.RefusesFirst values index cause ∧ failure = .encode index cause := by
  have hfrom : encode coder values = .error failure ↔
      encodeFrom coder.toCoder 0 values = .error failure := by
    rw [encode]
    cases encodeFrom coder.toCoder 0 values <;> simp [bind, Except.bind, pure, Except.pure]
  rw [hfrom, encodeFrom_eq_error_iff]
  simp only [Nat.zero_add]

end Buffer

namespace Source

/-- The source is over the codes of the values. -/
structure HoldsCodes (coder : SharedCoder α) (values : List α) (source : Source α) : Prop where
  start_eq : source.start = 0
  stop_eq : source.stop = values.length
  coder_eq : source.buffer.coder = coder
  get_of_lt : ∀ index value, values[index]? = some value →
    ∃ code, coder.encode value = .ok code ∧ source.buffer.get? index = some code
  get_of_le : ∀ index, values.length ≤ index → source.buffer.get? index = none
  totalBytes_eq : ∃ codes : List Bytes, values.map coder.encode = codes.map .ok ∧
    source.buffer.totalBytes = (codes.map List.length).sum

variable {coder : SharedCoder α} {values : List α} {source : Source α}

theorem holdsCodes_ofEncoded {codes : List Bytes} (h : values.map coder.encode = codes.map .ok) :
    (ofBuffer (Buffer.ofEncoded coder codes)).HoldsCodes coder values := by
  have hlength : values.length = codes.length := by simpa using congrArg List.length h
  refine ⟨rfl, ?_, rfl, ?_, ?_, codes, h, rfl⟩
  · simp [ofBuffer, Buffer.size, Buffer.ofEncoded, hlength]
  · intro index value hvalue
    have hget := congrArg (·[index]?) h
    simp only [List.getElem?_map, hvalue, Option.map_some] at hget
    obtain ⟨code, hcode, hencode⟩ := Option.map_eq_some_iff.mp hget.symm
    exact ⟨code, hencode.symm, by simpa [ofBuffer, Buffer.get?, Buffer.ofEncoded] using hcode⟩
  · intro index hle
    simp only [ofBuffer, Buffer.get?, Buffer.ofEncoded, List.getElem?_toArray]
    exact List.getElem?_eq_none (hlength ▸ hle)

namespace HoldsCodes

theorem valid (h : source.HoldsCodes coder values) : source.Valid where
  start_le_stop := h.start_eq ▸ Nat.zero_le _
  stop_le_size := by
    by_contra hlt
    have hsize : source.buffer.size < values.length := by
      rw [← h.stop_eq]
      exact Nat.lt_of_not_le hlt
    obtain ⟨code, -, hcode⟩ := h.get_of_lt _ _ (List.getElem?_eq_getElem hsize)
    simp [Buffer.get?, Buffer.size] at hcode

theorem decode_eq (h : source.HoldsCodes coder values) {index : Nat} {value : α}
    (hvalue : values[index]? = some value) (hround : coder.RoundTrips value) :
    source.buffer.decode index = .ok value := by
  obtain ⟨code, hencode, hget⟩ := h.get_of_lt index value hvalue
  obtain ⟨other, hother, hdecode⟩ := hround
  obtain rfl : code = other := Except.ok.inj (hencode.symm.trans hother)
  simp only [Buffer.decode, hget, h.coder_eq, hdecode, Except.mapError]

/-- Values that the coder reads back are the elements of the source. -/
theorem elements_eq (h : source.HoldsCodes coder values)
    (hround : ∀ value ∈ values, coder.RoundTrips value) : source.elements = values.map .ok := by
  apply List.ext_getElem
  · simp [elements, h.start_eq, h.stop_eq]
  · intro index hleft hright
    have hlt : index < values.length := by simpa using hright
    simp only [elements, Buffer.slice, h.start_eq, List.getElem_map, List.getElem_range',
      Nat.zero_add, Nat.one_mul]
    exact h.decode_eq (List.getElem?_eq_getElem hlt) (hround _ (List.getElem_mem hlt))

theorem readAll_eq (h : source.HoldsCodes coder values)
    (hround : ∀ value ∈ values, coder.RoundTrips value) {budget : Nat}
    (hbudget : values.length ≤ budget) :
    (Contract.inMemory α).readAll budget source () = .ok values () := by
  have hsize : source.size ≤ budget := by
    rw [size, h.start_eq, h.stop_eq]
    exact hbudget
  rw [Contract.readAll_inMemory h.valid hsize, read_eq_ok (h.elements_eq hround)]
  rfl

end HoldsCodes

theorem ofValues_eq_ok_iff :
    ofValues coder values = .ok source ↔
      ∃ codes, values.map coder.encode = codes.map .ok ∧
        source = ofBuffer (Buffer.ofEncoded coder codes) := by
  rw [ofValues]
  constructor
  · intro h
    cases hbuffer : Buffer.encode coder values with
    | error failure => simp [hbuffer] at h
    | ok buffer =>
        obtain ⟨codes, hcodes, rfl⟩ := Buffer.encode_eq_ok_iff.mp hbuffer
        rw [hbuffer] at h
        exact ⟨codes, hcodes, (Except.ok.inj h).symm⟩
  · rintro ⟨codes, hcodes, rfl⟩
    rw [Buffer.encode_eq_ok_iff.mpr ⟨codes, hcodes, rfl⟩]
    rfl

theorem ofValues_eq_error_iff {failure : Failure} :
    ofValues coder values = .error failure ↔
      ∃ index cause, coder.RefusesFirst values index cause ∧ failure = .encode index cause := by
  rw [ofValues, ← Buffer.encode_eq_error_iff]
  cases Buffer.encode coder values <;> simp

/-- A list of values is encoded if each of them is. -/
theorem exists_codes (h : ∀ value ∈ values, ∃ code, coder.encode value = .ok code) :
    ∃ codes : List Bytes, values.map coder.encode = codes.map .ok := by
  induction values with
  | nil => exact ⟨[], rfl⟩
  | cons value rest ih =>
      obtain ⟨code, hcode⟩ := h value List.mem_cons_self
      obtain ⟨codes, hcodes⟩ := ih fun other hother => h other (List.mem_cons_of_mem value hother)
      exact ⟨code :: codes, by rw [List.map_cons, hcode, hcodes, List.map_cons]⟩

end Source

/-! ## The choice of the coder -/

theorem Registry.find?_eq_none_iff {t : ElementType} {entries : List RegistryEntry} :
    find? t entries = none ↔ ∀ entry ∈ entries, entry.1 ≠ t := by
  induction entries with
  | nil => simp [find?]
  | cons entry rest ih =>
      obtain ⟨s, coder⟩ := entry
      by_cases h : s = t <;> simp [find?, h, ih]

namespace Source

variable {t : ElementType} {coder? : Option (SharedCoder t.Carrier)} {registry : Registry}
  {coder : SharedCoder t.Carrier} {values : List t.Carrier}

/-- The coder that a source is built with: the one that was supplied, or else the registered
one. -/
def Chosen (coder? : Option (SharedCoder t.Carrier)) (registry : Registry)
    (coder : SharedCoder t.Carrier) : Prop :=
  coder? = some coder ∨ coder? = none ∧ registry.resolve t = .ok coder

/-- No coder was supplied, and none is registered for the element type. -/
def NoneChosen (coder? : Option (SharedCoder t.Carrier)) (registry : Registry) : Prop :=
  coder? = none ∧ ∀ entry ∈ registry.entries, entry.1 ≠ t

theorem create_of_chosen (h : Chosen coder? registry coder) (values : List t.Carrier) :
    create coder? registry values = ofValues coder values := by
  rcases h with rfl | ⟨rfl, hresolve⟩
  · rfl
  · rw [create, hresolve]
    rfl

theorem create_of_noneChosen (h : NoneChosen coder? registry) (values : List t.Carrier) :
    create coder? registry values = .error (.noCoder t.name) := by
  obtain ⟨rfl, hentries⟩ := h
  have hresolve : registry.resolve t = .error (.noCoder t.name) := by
    rw [Registry.resolve, Registry.find?_eq_none_iff.mpr hentries]
  rw [create, hresolve]
  rfl

theorem noneChosen_or_chosen (coder? : Option (SharedCoder t.Carrier)) (registry : Registry) :
    NoneChosen coder? registry ∨ ∃ coder, Chosen coder? registry coder := by
  cases coder? with
  | some coder => exact Or.inr ⟨coder, Or.inl rfl⟩
  | none =>
      cases hfind : Registry.find? t registry.entries with
      | none => exact Or.inl ⟨rfl, Registry.find?_eq_none_iff.mp hfind⟩
      | some coder => exact Or.inr ⟨coder, Or.inr ⟨rfl, by rw [Registry.resolve, hfind]⟩⟩

theorem NoneChosen.not_chosen (h : NoneChosen coder? registry) :
    ¬ Chosen coder? registry coder := by
  rintro (hsome | ⟨-, hresolve⟩)
  · exact absurd (h.1.symm.trans hsome) (Option.some_ne_none coder).symm
  · rw [Registry.resolve, Registry.find?_eq_none_iff.mpr h.2] at hresolve
    cases hresolve

theorem Chosen.unique {other : SharedCoder t.Carrier} (h : Chosen coder? registry coder)
    (hother : Chosen coder? registry other) : coder = other := by
  rcases h with rfl | ⟨rfl, hresolve⟩
  · rcases hother with hsome | ⟨hnone, -⟩
    · exact Option.some.inj hsome
    · cases hnone
  · rcases hother with hsome | ⟨-, hother⟩
    · cases hsome
    · exact Except.ok.inj (hresolve.symm.trans hother)

/-- Building a source fails for want of a coder, whatever the values, or else with the first value
that the chosen coder refuses, and in no other way. If every value has a code, there is a source: it
is over the codes of all values in order, it uses the chosen coder, and reading it gives the values
back if the coder reads back each of them. -/
theorem create_is_all_or_nothing (coder? : Option (SharedCoder t.Carrier)) (registry : Registry)
    (values : List t.Carrier) :
    (∀ failure, create coder? registry values = .error failure ↔
      NoneChosen coder? registry ∧ failure = .noCoder t.name ∨
        ∃ coder index cause, Chosen coder? registry coder ∧
          coder.RefusesFirst values index cause ∧ failure = .encode index cause) ∧
      ∀ coder, Chosen coder? registry coder →
        (∀ value ∈ values, ∃ code, coder.encode value = .ok code) →
        ∃ source, create coder? registry values = .ok source ∧ source.HoldsCodes coder values ∧
          ((∀ value ∈ values, coder.RoundTrips value) → ∀ budget, values.length ≤ budget →
            (Contract.inMemory t.Carrier).readAll budget source () = .ok values ()) := by
  refine ⟨?_, ?_⟩
  · intro failure
    rcases noneChosen_or_chosen coder? registry with hnone | ⟨coder, hcoder⟩
    · rw [create_of_noneChosen hnone]
      constructor
      · intro h
        exact Or.inl ⟨hnone, (Except.error.inj h).symm⟩
      · rintro (⟨-, rfl⟩ | ⟨coder, _, _, hcoder, -⟩)
        · rfl
        · exact absurd hcoder hnone.not_chosen
    · rw [create_of_chosen hcoder, ofValues_eq_error_iff]
      constructor
      · rintro ⟨index, cause, hrefused, rfl⟩
        exact Or.inr ⟨coder, index, cause, hcoder, hrefused, rfl⟩
      · rintro (⟨hnone, -⟩ | ⟨other, index, cause, hother, hrefused, rfl⟩)
        · exact absurd hcoder hnone.not_chosen
        · obtain rfl := hcoder.unique hother
          exact ⟨index, cause, hrefused, rfl⟩
  · intro coder hcoder hcodes
    obtain ⟨codes, hmap⟩ := exists_codes hcodes
    have hholds := holdsCodes_ofEncoded hmap
    refine ⟨_, ?_, hholds, fun hround budget hbudget => hholds.readAll_eq hround hbudget⟩
    rw [create_of_chosen hcoder]
    exact ofValues_eq_ok_iff.mpr ⟨codes, hmap, rfl⟩

/-- Texts, some of them absent, with the registered coder. -/
theorem create_is_all_or_nothing_absentTexts :
    let values : List (ElementType.optional .text).Carrier := [none, some "ham", none]
    ∃ source, create (t := .optional .text) none Registry.standard values = .ok source ∧
      (Contract.inMemory _).readAll 3 source () = .ok values () := by
  intro values
  have hround : ∀ value ∈ values,
      ((Coder.nullable Coder.utf8).share 4).RoundTrips value := by
    intro value _
    cases value with
    | none => exact Coder.roundTrips_none _
    | some text => exact (Coder.roundTrips_utf8 text).some
  have hcodes : ∀ value ∈ values,
      ∃ code, ((Coder.nullable Coder.utf8).share 4).encode value = .ok code := by
    intro value hvalue
    obtain ⟨code, hcode, -⟩ := hround value hvalue
    exact ⟨code, hcode⟩
  obtain ⟨source, hsource, -, hread⟩ := (create_is_all_or_nothing none Registry.standard values).2
    _ (Or.inr ⟨rfl, rfl⟩) hcodes
  exact ⟨source, hsource, hread hround 3 (by decide)⟩

end Source

end BundledReading

import BundledReading.Proofs.WholeReading

/-!
# Reading bundles

Reading the bundles of a source one after the other, until one of them fails, gives what reading the
source gives: its elements if all of them decode, and otherwise the failure of the first that does
not, at its place in the buffer. Bundles may have been split again before, at any desired sizes.

## Implementation notes

`Parted` replaces one part at a time by its bundles, wherever it stands, so it covers every way to
split parts again. What its induction carries is that the parts follow one another over one buffer;
what they give is then the reading of their elements, put together.
-/

namespace BundledReading

open Contract

variable {σ S R α : Type}

/-! ## The first failure -/

/-- From `start` up to, but without, `stop`, the element at `index` is the first that the coder
refuses, and `cause` is why. -/
structure Buffer.RefusedFirst (buffer : Buffer α) (start stop index : Nat) (cause : CoderError) :
    Prop where
  start_le : start ≤ index
  lt_stop : index < stop
  refused : ∃ bytes, buffer.get? index = some bytes ∧ buffer.coder.decode bytes = .error cause
  earlier : ∀ before, start ≤ before → before < index → ∃ value, buffer.decode before = .ok value

theorem mapM_id_cons_of_error {failure : Failure} (rest : List (Except Failure α)) :
    (Except.error failure :: rest).mapM id = .error failure := by
  rw [List.mapM_cons]
  rfl

theorem mapM_id_cons_of_ok (value : α) (rest : List (Except Failure α)) :
    (Except.ok value :: rest).mapM id = (value :: ·) <$> rest.mapM id := by
  rw [List.mapM_cons]
  cases rest.mapM id <;> rfl

theorem mapM_id_append (front back : List (Except Failure α)) :
    (front ++ back).mapM id = do
      let values ← front.mapM id
      let more ← back.mapM id
      return values ++ more := by
  induction front with
  | nil => cases hback : back.mapM id <;> simp [hback, bind, Except.bind, pure, Except.pure]
  | cons element front ih =>
      cases element with
      | error failure =>
          rw [List.cons_append, mapM_id_cons_of_error, mapM_id_cons_of_error]
          rfl
      | ok value =>
          rw [List.cons_append, mapM_id_cons_of_ok, mapM_id_cons_of_ok, ih]
          cases front.mapM id with
          | error failure => rfl
          | ok values => cases back.mapM id <;> rfl

/-- Putting elements together fails with the first that does not decode. -/
theorem Buffer.RefusedFirst.mapM_slice {buffer : Buffer α} {start stop index : Nat}
    {cause : CoderError} (h : buffer.RefusedFirst start stop index cause) :
    (buffer.slice start stop).mapM id = .error (.decode index cause) := by
  obtain ⟨values, hvalues⟩ := exists_values_iff.mpr h.earlier
  obtain ⟨bytes, hget, hcause⟩ := h.refused
  have hdecode : buffer.decode index = .error (.decode index cause) := by
    simp [decode, hget, hcause, Except.mapError]
  rw [← slice_append buffer h.start_le (Nat.le_of_lt h.lt_stop), hvalues,
    slice_cons buffer h.lt_stop, hdecode, mapM_id_append, mapM_id_map_ok, mapM_id_cons_of_error]
  rfl

/-- The elements of a range decode, or one of them is the first that does not. -/
theorem Buffer.exists_values_or_refused {buffer : Buffer α} {start stop : Nat}
    (hstop : stop ≤ buffer.size) :
    (∃ values : List α, buffer.slice start stop = values.map .ok) ∨
      ∃ index cause, buffer.RefusedFirst start stop index cause := by
  induction hlength : stop - start generalizing start with
  | zero => exact .inl ⟨[], by simp [slice, hlength]⟩
  | succ length ih =>
      have hlt : start < stop := by omega
      rw [slice_cons buffer hlt]
      cases hdecode : buffer.decode start with
      | error failure =>
          obtain ⟨bytes, cause, hget, hcause, rfl⟩ :=
            decode_eq_error (Nat.lt_of_lt_of_le hlt hstop) hdecode
          refine .inr ⟨start, cause, Nat.le_refl _, hlt, ⟨bytes, hget, hcause⟩, ?_⟩
          intro before hle hbefore
          exact absurd hbefore (Nat.not_lt.mpr hle)
      | ok value =>
          rcases @ih (start + 1) (by omega) with ⟨values, hvalues⟩ | ⟨index, cause, hfirst⟩
          · exact .inl ⟨value :: values, by rw [hvalues, List.map_cons]⟩
          · refine .inr ⟨index, cause, Nat.le_of_succ_le hfirst.start_le, hfirst.lt_stop,
              hfirst.refused, ?_⟩
            intro before hle hbefore
            rcases Nat.eq_or_lt_of_le hle with rfl | hlater
            · exact ⟨value, hdecode⟩
            · exact hfirst.earlier before hlater hbefore

/-- Reading a source whose elements do not all decode fails with the first that does not. -/
theorem Source.read_eq_error {source : Source α} (hvalid : source.Valid)
    (h : ∀ values : List α, source.elements ≠ values.map .ok) :
    ∃ index cause, source.buffer.RefusedFirst source.start source.stop index cause ∧
      source.read = .error (.decode index cause) := by
  rcases Buffer.exists_values_or_refused hvalid.stop_le_size with
    ⟨values, hvalues⟩ | ⟨index, cause, hfirst⟩
  · exact absurd hvalues (h values)
  · exact ⟨index, cause, hfirst, hfirst.mapM_slice⟩

/-! ## Parts -/

/-- The lists of parts that a source is divided into by splitting it, or some of its parts again,
into bundles of any desired sizes. -/
inductive Source.Parted (source : Source α) : List (Source α) → Prop
  | whole : Parted source [source]
  | bundles (before after : List (Source α)) (part : Source α) (desiredBytes : Nat)
      (h : Parted source (before ++ part :: after)) :
      Parted source (before ++ (part.bundles desiredBytes ++ after))

namespace Source.Parted

variable {source : Source α} {parts : List (Source α)}

/-- Parts are parts of one buffer. -/
theorem buffer_eq (h : source.Parted parts) : ∀ part ∈ parts, part.buffer = source.buffer := by
  induction h with
  | whole => simp
  | bundles before after part desiredBytes _ ih =>
      have hpart : part.buffer = source.buffer := ih part (by simp)
      intro other hother
      rcases List.mem_append.mp hother with hbefore | hrest
      · exact ih other (List.mem_append_left _ hbefore)
      rcases List.mem_append.mp hrest with hbundle | hafter
      · rw [buffer_of_mem_bundles hbundle, hpart]
      · exact ih other (List.mem_append_right _ (List.mem_cons_of_mem part hafter))

/-- Parts follow one another. -/
theorem consecutive (h : source.Parted parts) (hle : source.start ≤ source.stop) :
    Consecutive source.start (parts.map span) source.stop := by
  induction h with
  | whole => exact ⟨rfl, hle, rfl⟩
  | bundles before after part desiredBytes _ ih =>
      rw [List.map_append, List.map_cons] at ih
      have hpart : part.start ≤ part.stop := (ih.bounds (by simp : part.span ∈ _)).2.1
      rw [List.map_append, List.map_append]
      exact ih.replace (consecutive_bundles desiredBytes hpart)

theorem bounds (h : source.Parted parts) (hle : source.start ≤ source.stop) {part : Source α}
    (hpart : part ∈ parts) :
    source.start ≤ part.start ∧ part.start ≤ part.stop ∧ part.stop ≤ source.stop :=
  (h.consecutive hle).bounds (List.mem_map_of_mem hpart)

theorem valid (h : source.Parted parts) (hvalid : source.Valid) {part : Source α}
    (hpart : part ∈ parts) : part.Valid where
  start_le_stop := (h.bounds hvalid.start_le_stop hpart).2.1
  stop_le_size := by
    rw [h.buffer_eq part hpart]
    exact Nat.le_trans (h.bounds hvalid.start_le_stop hpart).2.2 hvalid.stop_le_size

theorem size_le (h : source.Parted parts) (hle : source.start ≤ source.stop) {part : Source α}
    (hpart : part ∈ parts) : part.size ≤ source.size := by
  have hbounds := h.bounds hle hpart
  simp only [size]
  omega

/-- The parts of a source have its elements, in order. -/
theorem flatMap_elements (h : source.Parted parts) (hle : source.start ≤ source.stop) :
    parts.flatMap elements = source.elements := by
  calc
    parts.flatMap elements =
        parts.flatMap fun part => source.buffer.slice part.start part.stop := by
      apply List.flatMap_congr
      intro part hpart
      rw [elements, h.buffer_eq part hpart]
    _ = (parts.map span).flatMap fun span => source.buffer.slice span.1 span.2 := by
      rw [List.flatMap_map]
      rfl
    _ = source.elements := (h.consecutive hle).flatMap_slice source.buffer

end Source.Parted

/-! ## Reading in order -/

namespace Contract

/-- Reads sources one after the other and puts together what they give, until one fails. -/
def SourceModel.readInOrder (model : SourceModel σ S R α) (budget : Nat) :
    List S → Check σ (List α)
  | [] => pure []
  | source :: rest => do
    let values ← model.readAll budget source
    let more ← model.readInOrder budget rest
    return values ++ more

variable {source : Source α} {parts : List (Source α)} {budget : Nat}

/-- Reading sources in order puts their elements together, or fails with the first failure. -/
theorem readInOrder_inMemory (hparts : ∀ part ∈ parts, part.Valid ∧ part.size ≤ budget) :
    (inMemory α).readInOrder budget parts () =
      answer ((parts.flatMap Source.elements).mapM id) () := by
  induction parts with
  | nil => rfl
  | cons part parts ih =>
      obtain ⟨⟨hvalid, hsize⟩, hrest⟩ := List.forall_mem_cons.mp hparts
      have hpart : (inMemory α).readAll budget part () =
          answer (part.elements.mapM id) () := readAll_inMemory hvalid hsize
      rw [SourceModel.readInOrder, List.flatMap_cons, mapM_id_append]
      cases hread : part.elements.mapM id with
      | error failure =>
          rw [hread] at hpart
          exact bind_of_error hpart
      | ok values =>
          rw [hread] at hpart
          rw [bind_of_ok hpart]
          exact map_of_answer (ih hrest)

/-- Reading the parts of a source in order is reading the source, failures included: it gives all
elements if they decode, and otherwise the coder's error for the first that does not, at its index
in the buffer. Elements outside the source do not matter. -/
theorem reading_parts_is_reading_whole (hvalid : source.Valid) (hparts : source.Parted parts)
    (hbudget : source.size ≤ budget) :
    (inMemory α).readInOrder budget parts () = (inMemory α).readAll budget source () ∧
      (∀ values, source.elements = values.map .ok →
        (inMemory α).readAll budget source () = .ok values ()) ∧
      ((∀ values : List α, source.elements ≠ values.map .ok) →
        ∃ index cause, source.buffer.RefusedFirst source.start source.stop index cause ∧
          (inMemory α).readAll budget source () =
            .error (.failure (.decode index cause)) ()) := by
  have hwhole : (inMemory α).readAll budget source () = answer source.read () :=
    readAll_inMemory hvalid hbudget
  refine ⟨?_, ?_, ?_⟩
  · rw [hwhole, Source.read, ← hparts.flatMap_elements hvalid.start_le_stop]
    apply readInOrder_inMemory
    intro part hpart
    exact ⟨hparts.valid hvalid hpart,
      Nat.le_trans (hparts.size_le hvalid.start_le_stop hpart) hbudget⟩
  · intro values hvalues
    rw [hwhole, Source.read_eq_ok hvalues]
    rfl
  · intro hrefused
    obtain ⟨index, cause, hfirst, hread⟩ := Source.read_eq_error hvalid hrefused
    exact ⟨index, cause, hfirst, by rw [hwhole, hread]; rfl⟩

/-- Of five elements in the middle of a buffer two are cut short. The first of three bundles is
split again, and still the failure names the first of them by its place in the buffer. -/
theorem reading_parts_is_reading_whole_cutShort :
    let buffer := Buffer.ofEncoded (Coder.bigEndian32.share 0)
      [[9], [0, 0, 0, 1], [0, 0], [0, 0, 0, 3], [0, 0, 0, 4, 0, 0], [0, 0, 0, 5], [9]]
    let source : Source Int32 := ⟨buffer, 1, 6⟩
    ∃ parts, parts.map Source.span = [(1, 2), (2, 3), (3, 5), (5, 6)] ∧ source.Parted parts ∧
      (inMemory Int32).readInOrder 5 parts () =
        .error (.failure (.decode 2 (.truncated 4 2))) () := by
  intro buffer source
  have hvalid : source.Valid := ⟨by decide, by decide⟩
  have hspans : (source.bundles 8).map Source.span = [(1, 3), (3, 5), (5, 6)] := by decide +kernel
  have hagain : ((source.withRange 1 3).bundles 4).map Source.span = [(1, 2), (2, 3)] := by
    decide +kernel
  obtain ⟨first, rest, hbundles, hfirst, hrest⟩ := List.map_eq_cons_iff.mp hspans
  have hparted : source.Parted ([] ++ (source.bundles 8 ++ [])) := .bundles [] [] source 8 .whole
  rw [List.nil_append, List.append_nil, hbundles] at hparted
  obtain rfl : first = source.withRange 1 3 := by
    have hbuffer := hparted.buffer_eq first List.mem_cons_self
    cases first
    cases hfirst
    cases hbuffer
    rfl
  have hparts : source.Parted ([] ++ ((source.withRange 1 3).bundles 4 ++ rest)) :=
    .bundles [] rest _ 4 hparted
  refine ⟨_, ?_, hparts, ?_⟩
  · rw [List.nil_append, List.map_append, hagain, hrest]
    rfl
  · exact (reading_parts_is_reading_whole hvalid hparts (by decide)).1.trans rfl

end Contract

end BundledReading

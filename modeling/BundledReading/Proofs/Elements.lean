import BundledReading.Coder.Plain
import BundledReading.Proofs.Tiling
import Mathlib.Data.List.Basic
import Mathlib.Data.Set.List

/-!
# The elements of a range

What reading a range should give is said once, as the list of what decoding each of its indices
gives. Cutting a range cuts this list, and the bundles of a source tile its range over the same
buffer.
-/

namespace BundledReading

variable {α : Type}

namespace Buffer

variable {buffer : Buffer α} {start mid stop : Nat}

/-- What decoding gives for the indices from `start` up to, but without, `stop`. -/
def slice (buffer : Buffer α) (start stop : Nat) : List (Except Failure α) :=
  (List.range' start (stop - start)).map buffer.decode

@[simp] theorem slice_self (buffer : Buffer α) (start : Nat) : buffer.slice start start = [] := by
  simp [slice]

@[simp] theorem length_slice (buffer : Buffer α) (start stop : Nat) :
    (buffer.slice start stop).length = stop - start := by
  simp [slice]

theorem length_of_slice_eq {values : List α} (h : buffer.slice start stop = values.map .ok) :
    values.length = stop - start := by
  simpa using (congrArg List.length h).symm

theorem slice_append (buffer : Buffer α) (hstart : start ≤ mid) (hstop : mid ≤ stop) :
    buffer.slice start mid ++ buffer.slice mid stop = buffer.slice start stop := by
  have hrange : List.range' start (mid - start) ++ List.range' mid (stop - mid) =
      List.range' start (stop - start) := by
    have h := List.range'_append_1 (s := start) (m := mid - start) (n := stop - mid)
    rwa [show start + (mid - start) = mid by omega,
      show mid - start + (stop - mid) = stop - start by omega] at h
  simp only [slice, ← List.map_append, hrange]

theorem slice_cons (buffer : Buffer α) (h : start < stop) :
    buffer.slice start stop = buffer.decode start :: buffer.slice (start + 1) stop := by
  rw [← slice_append buffer (Nat.le_succ start) h]
  simp [slice]

theorem slice_concat (buffer : Buffer α) (h : start ≤ stop) :
    buffer.slice start (stop + 1) = buffer.slice start stop ++ [buffer.decode stop] := by
  rw [← slice_append buffer h (Nat.le_succ stop)]
  simp [slice]

theorem mem_slice {element : Except Failure α} :
    element ∈ buffer.slice start stop ↔
      ∃ index, start ≤ index ∧ index < stop ∧ buffer.decode index = element := by
  simp only [slice, List.mem_map, List.mem_range'_1, and_assoc]
  constructor
  · rintro ⟨index, hstart, hstop, rfl⟩
    exact ⟨index, hstart, by omega, rfl⟩
  · rintro ⟨index, hstart, hstop, rfl⟩
    exact ⟨index, hstart, by omega, rfl⟩

/-- All elements decode exactly if there are values that they decode to. -/
theorem exists_values_iff :
    (∃ values : List α, buffer.slice start stop = values.map .ok) ↔
      ∀ index, start ≤ index → index < stop → ∃ value, buffer.decode index = .ok value := by
  constructor
  · rintro ⟨values, hvalues⟩ index hstart hstop
    have hmem : buffer.decode index ∈ values.map Except.ok :=
      hvalues ▸ mem_slice.mpr ⟨index, hstart, hstop, rfl⟩
    obtain ⟨value, _, hvalue⟩ := List.mem_map.mp hmem
    exact ⟨value, hvalue.symm⟩
  · intro h
    have hrange : buffer.slice start stop ∈ Set.range (List.map (Except.ok (ε := Failure))) := by
      rw [Set.range_list_map]
      intro element helement
      obtain ⟨index, hstart, hstop, rfl⟩ := mem_slice.mp helement
      obtain ⟨value, hvalue⟩ := h index hstart hstop
      exact ⟨value, hvalue.symm⟩
    obtain ⟨values, hvalues⟩ := hrange
    exact ⟨values, hvalues.symm⟩

/-- Within the buffer, decoding fails only with the coder's own error. -/
theorem decode_eq_error {index : Nat} {failure : Failure} (hsize : index < buffer.size)
    (h : buffer.decode index = .error failure) :
    ∃ bytes cause, buffer.get? index = some bytes ∧ buffer.coder.decode bytes = .error cause ∧
      failure = .decode index cause := by
  have hget : buffer.get? index = some buffer.elements[index] :=
    Array.getElem?_eq_getElem hsize
  cases hdecode : buffer.coder.decode buffer.elements[index] with
  | ok value => simp [decode, hget, hdecode, Except.mapError] at h
  | error cause =>
      refine ⟨_, cause, hget, hdecode, ?_⟩
      simpa [decode, hget, hdecode, Except.mapError] using h.symm

end Buffer

/-- Reading consecutive spans one after the other is reading the range that they fill. -/
theorem Consecutive.flatMap_slice {start stop : Nat} {spans : List Span} (buffer : Buffer α)
    (h : Consecutive start spans stop) :
    spans.flatMap (fun span => buffer.slice span.1 span.2) = buffer.slice start stop := by
  induction spans generalizing start with
  | nil =>
      obtain rfl : start = stop := h
      simp
  | cons span rest ih =>
      obtain ⟨rfl, hle, hrest⟩ := h
      rw [List.flatMap_cons, ih hrest, buffer.slice_append hle hrest.le]

namespace Source

/-- What every source keeps: its range is a range of its buffer. -/
structure Valid (source : Source α) : Prop where
  start_le_stop : source.start ≤ source.stop
  stop_le_size : source.stop ≤ source.buffer.size

/-- The range of a source. -/
def span (source : Source α) : Span := (source.start, source.stop)

/-- What decoding gives for the elements of a source, in order. -/
def elements (source : Source α) : List (Except Failure α) :=
  source.buffer.slice source.start source.stop

theorem valid_ofBuffer (buffer : Buffer α) : (ofBuffer buffer).Valid where
  start_le_stop := Nat.zero_le _
  stop_le_size := Nat.le_refl _

/-- Four numbers of four bytes each, to try results on. -/
def fourNumbers : Source Int32 :=
  ofBuffer (Buffer.ofEncoded (Coder.bigEndian32.share 0)
    [[0, 0, 0, 1], [0, 0, 0, 2], [0, 0, 0, 3], [0, 0, 0, 4]])

theorem elements_fourNumbers : fourNumbers.elements = [1, 2, 3, 4].map .ok := rfl

theorem Valid.withRange {source : Source α} {start stop : Nat} (hle : start ≤ stop)
    (hstop : stop ≤ source.stop) (h : source.Valid) : (source.withRange start stop).Valid where
  start_le_stop := hle
  stop_le_size := Nat.le_trans hstop h.stop_le_size

/-! ## Static splits -/

theorem cut_of_le {step fuel start stop : Nat} (h : stop ≤ start) :
    cut step fuel start stop = [] := by
  cases fuel with
  | zero => rfl
  | succ fuel => exact if_neg (Nat.not_lt.mpr h)

/-- The pieces of a cut follow one another. -/
theorem consecutive_cut {step fuel start stop : Nat} (hstep : 0 < step) (hle : start ≤ stop)
    (hfuel : stop - start ≤ fuel) : Consecutive start (cut step fuel start stop) stop := by
  induction fuel generalizing start with
  | zero => exact show start = stop by omega
  | succ fuel ih =>
      rw [cut]
      split
      · refine ⟨rfl, by dsimp only; omega, ?_⟩
        dsimp only
        by_cases h : start + step ≤ stop
        · rw [Nat.min_eq_left h]
          exact ih h (by omega)
        · rw [Nat.min_eq_right (by omega), cut_of_le (by omega)]
          rfl
      · exact show start = stop by omega

theorem buffer_of_mem_bundles {source bundle : Source α} {desiredBytes : Nat}
    (h : bundle ∈ source.bundles desiredBytes) : bundle.buffer = source.buffer := by
  unfold bundles at h
  split at h
  · rw [List.mem_singleton.mp h]
  · obtain ⟨piece, _, rfl⟩ := List.mem_map.mp h
    rfl

/-- The bundles of a source that is cut are the pieces of the cut. -/
theorem map_span_bundles {source : Source α} {desiredBytes : Nat}
    (hcut : ¬ (desiredBytes = 0 || source.isEmpty) = true) :
    (source.bundles desiredBytes).map span =
      cut (source.elementsPerBundle desiredBytes) source.size source.start source.stop := by
  rw [bundles, if_neg hcut, List.map_map,
    show span ∘ (fun piece => source.withRange piece.1 piece.2) = id from rfl, List.map_id]

/-- The bundles of a source follow one another. -/
theorem consecutive_bundles {source : Source α} (desiredBytes : Nat)
    (h : source.start ≤ source.stop) :
    Consecutive source.start ((source.bundles desiredBytes).map span) source.stop := by
  by_cases hcut : (desiredBytes = 0 || source.isEmpty) = true
  · rw [bundles, if_pos hcut]
    exact ⟨rfl, h, rfl⟩
  · rw [map_span_bundles hcut]
    exact consecutive_cut (source.elementsPerBundle_pos desiredBytes) h (Nat.le_refl _)

/-- Reading the bundles of a source one after the other is reading the source. -/
theorem flatMap_elements_bundles {source : Source α} (desiredBytes : Nat)
    (h : source.start ≤ source.stop) :
    (source.bundles desiredBytes).flatMap elements = source.elements := by
  calc
    (source.bundles desiredBytes).flatMap elements =
        (source.bundles desiredBytes).flatMap fun bundle =>
          source.buffer.slice bundle.start bundle.stop := by
      apply List.flatMap_congr
      intro bundle hbundle
      rw [elements, buffer_of_mem_bundles hbundle]
    _ = ((source.bundles desiredBytes).map span).flatMap fun span =>
          source.buffer.slice span.1 span.2 := by
      rw [List.flatMap_map]
      rfl
    _ = source.elements := (consecutive_bundles desiredBytes h).flatMap_slice source.buffer

/-- The bundles of a source tile its range. -/
theorem tiles_bundles {source : Source α} (desiredBytes : Nat) (h : source.start ≤ source.stop) :
    Tiles ((source.bundles desiredBytes).map span) source.start source.stop := by
  by_cases hcut : (desiredBytes = 0 || source.isEmpty) = true
  · rw [bundles, if_pos hcut]
    exact Tiles.whole h
  · have hne : source.start ≠ source.stop := by
      intro heq
      simp [isEmpty, heq] at hcut
    apply Tiles.of_consecutive (consecutive_bundles desiredBytes h)
    · rw [map_span_bundles hcut]
      intro piece hpiece
      exact (bounds_of_mem_cut (source.elementsPerBundle_pos desiredBytes) hpiece).2.1
    · omega

end Source

/-! ## Pieces -/

/-- Pieces that tile the range of a source, over its buffer. -/
structure Covers (source : Source α) (pieces : List (Source α)) : Prop where
  tiles : Tiles (pieces.map Source.span) source.start source.stop
  buffer_eq : ∀ piece ∈ pieces, piece.buffer = source.buffer

namespace Covers

variable {source taken : Source α} {pieces rest parts others : List (Source α)}

theorem self (h : source.start ≤ source.stop) : Covers source [source] where
  tiles := Tiles.whole h
  buffer_eq := by simp

theorem bundles (desiredBytes : Nat) (h : source.start ≤ source.stop) :
    Covers source (source.bundles desiredBytes) where
  tiles := Source.tiles_bundles desiredBytes h
  buffer_eq := fun _ => Source.buffer_of_mem_bundles

theorem bounds (h : Covers source pieces) {piece : Source α} (hpiece : piece ∈ pieces) :
    source.start ≤ piece.start ∧ piece.start ≤ piece.stop ∧ piece.stop ≤ source.stop :=
  h.tiles.bounds (List.mem_map_of_mem hpiece)

theorem valid (h : Covers source pieces) (hsource : source.Valid) {piece : Source α}
    (hpiece : piece ∈ pieces) : piece.Valid where
  start_le_stop := (h.bounds hpiece).2.1
  stop_le_size := by
    rw [h.buffer_eq piece hpiece]
    exact Nat.le_trans (h.bounds hpiece).2.2 hsource.stop_le_size

/-- The order of the pieces does not matter. -/
theorem perm (h : Covers source pieces) (hperm : pieces.Perm others) : Covers source others where
  tiles := h.tiles.perm (hperm.map Source.span)
  buffer_eq := fun piece hpiece => h.buffer_eq piece (hperm.mem_iff.mpr hpiece)

/-- Covering one of the pieces by others covers the source. -/
theorem refine (h : Covers source pieces) (htaken : pieces.Perm (taken :: rest))
    (hparts : Covers taken parts) (hothers : (parts ++ rest).Perm others) :
    Covers source others := by
  have htiles : Tiles (taken.span :: rest.map Source.span) source.start source.stop :=
    h.tiles.perm (htaken.map Source.span)
  constructor
  · have hrefined := htiles.refine hparts.tiles
    rw [← List.map_append] at hrefined
    exact hrefined.perm (hothers.map Source.span)
  · intro piece hpiece
    rcases List.mem_append.mp (hothers.mem_iff.mpr hpiece) with hpart | hrest
    · rw [hparts.buffer_eq piece hpart]
      exact h.buffer_eq taken (htaken.mem_iff.mpr List.mem_cons_self)
    · exact h.buffer_eq piece (htaken.mem_iff.mpr (List.mem_cons_of_mem taken hrest))

end Covers

end BundledReading

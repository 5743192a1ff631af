import BundledReading.Proofs.Division
import Mathlib.Data.Nat.ModEq

/-!
# Size estimates

The estimated size of a range is its share of the bytes of the buffer, as if all elements were
equally long, rounded down. However a range is divided into pieces, each further piece loses less
than one byte by its own rounding: the estimates of the pieces never come to more than that of the
range, and to no less than that but for one byte for each piece after the first.

The share of a range of the buffer is at most all of its bytes. So as long as these are counted in
64 bits, an estimate is as well, and the product that it comes from in 128.
-/

namespace BundledReading

variable {α : Type}

/-! ## Shares, rounded down -/

/-- Two shares together are rounded down once, and not twice. -/
theorem add_div_le_add_one (a b size : Nat) : (a + b) / size ≤ a / size + b / size + 1 := by
  rcases size.eq_zero_or_pos with rfl | hsize
  · simp
  · rw [Nat.add_div hsize]
    split <;> omega

/-- Shares come to no more than the share of the sum. -/
theorem sum_shares_le (total size : Nat) (counts : List Nat) :
    (counts.map fun count => total * count / size).sum ≤ total * counts.sum / size := by
  induction counts with
  | nil => simp
  | cons count rest ih =>
      rw [List.map_cons, List.sum_cons, List.sum_cons, Nat.mul_add]
      exact (Nat.add_le_add_left ih _).trans Nat.div_add_div_le_add_div

/-- Each share after the first one costs the sum at most one. -/
theorem share_sum_le (total size : Nat) (counts : List Nat) :
    total * counts.sum / size ≤
      (counts.map fun count => total * count / size).sum + (counts.length - 1) := by
  induction counts with
  | nil => simp
  | cons count rest ih =>
      cases rest with
      | nil => simp
      | cons next rest =>
          have hrest : (next :: rest).length - 1 = rest.length := Nat.add_sub_cancel _ _
          rw [hrest] at ih
          calc total * (count :: next :: rest).sum / size
              = (total * count + total * (next :: rest).sum) / size := by
                simp only [List.sum_cons, Nat.mul_add]
            _ ≤ total * count / size + total * (next :: rest).sum / size + 1 :=
                add_div_le_add_one _ _ _
            _ ≤ total * count / size +
                  (((next :: rest).map fun count => total * count / size).sum + rest.length) + 1 :=
                Nat.succ_le_succ (Nat.add_le_add_left ih _)
            _ = ((count :: next :: rest).map fun count => total * count / size).sum +
                  ((count :: next :: rest).length - 1) := by
                simp only [List.map_cons, List.sum_cons, List.length_cons]
                omega

/-! ## Estimates -/

namespace Buffer

variable {buffer : Buffer α} {count : Nat}

theorem share_le (hcount : count ≤ buffer.size) :
    buffer.totalBytes * count / buffer.size ≤ buffer.totalBytes := by
  apply Nat.div_le_of_le_mul
  rw [Nat.mul_comm buffer.size]
  exact Nat.mul_le_mul_left _ hcount

/-- Cutting the estimate for a range of the buffer to 64 bits loses nothing. -/
theorem estimatedBytes_eq (hbytes : buffer.totalBytes < 2 ^ 64) (hcount : count ≤ buffer.size) :
    buffer.estimatedBytes count = buffer.totalBytes * count / buffer.size := by
  rw [estimatedBytes]
  split
  next hempty => rw [hempty, Nat.div_zero]
  · exact Nat.mod_eq_of_lt ((share_le hcount).trans_lt hbytes)

/-- The estimate for the whole buffer is exact. -/
theorem estimatedBytes_size (hbytes : buffer.totalBytes < 2 ^ 64) :
    buffer.estimatedBytes buffer.size = buffer.totalBytes := by
  rw [estimatedBytes_eq hbytes (Nat.le_refl _)]
  rcases buffer.size.eq_zero_or_pos with hempty | hsize
  · have hnone : buffer.elements = #[] := Array.eq_empty_of_size_eq_zero hempty
    rw [hempty, Nat.div_zero, totalBytes, hnone]
    rfl
  · exact Nat.mul_div_cancel _ hsize

end Buffer

namespace Source

/-- The estimates of pieces come to that of the source, but for one byte at each cut at most. -/
structure EstimatesAddUp (source : Source α) (pieces : List (Source α)) : Prop where
  sum_le : (pieces.map estimatedBytes).sum ≤ source.estimatedBytes
  le_sum : source.estimatedBytes ≤ (pieces.map estimatedBytes).sum + (pieces.length - 1)

variable {source : Source α} {pieces : List (Source α)}

/-- The estimates of pieces that in some order follow one another add up. -/
theorem estimatesAddUp_of_consecutive (hbytes : source.buffer.totalBytes < 2 ^ 64)
    (hvalid : source.Valid) {order : List Span} (hperm : order.Perm (pieces.map span))
    (horder : Consecutive source.start order source.stop)
    (hbuffer : ∀ piece ∈ pieces, piece.buffer = source.buffer) :
    source.EstimatesAddUp pieces := by
  have hsize : source.size ≤ source.buffer.size := (Nat.sub_le _ _).trans hvalid.stop_le_size
  have hsum : (pieces.map size).sum = source.size := by
    rw [size, ← horder.sum_lengths, (hperm.map fun span => span.2 - span.1).sum_nat, List.map_map]
    rfl
  have hestimates : pieces.map estimatedBytes = (pieces.map size).map fun count =>
      source.buffer.totalBytes * count / source.buffer.size := by
    rw [List.map_map]
    apply List.map_congr_left
    intro piece hpiece
    have hbounds := horder.bounds (hperm.mem_iff.mpr (List.mem_map_of_mem hpiece))
    have hpieceSize : piece.size ≤ source.buffer.size :=
      (Nat.sub_le _ _).trans (hbounds.2.2.trans hvalid.stop_le_size)
    rw [estimatedBytes, hbuffer piece hpiece, Buffer.estimatedBytes_eq hbytes hpieceSize]
    rfl
  constructor
  · rw [hestimates, estimatedBytes, Buffer.estimatedBytes_eq hbytes hsize, ← hsum]
    exact sum_shares_le _ _ _
  · rw [hestimates, estimatedBytes, Buffer.estimatedBytes_eq hbytes hsize, ← hsum,
      ← List.length_map (f := size)]
    exact share_sum_le _ _ _

theorem estimatesAddUp_of_covers (hbytes : source.buffer.totalBytes < 2 ^ 64)
    (hvalid : source.Valid) (h : Covers source pieces) : source.EstimatesAddUp pieces := by
  obtain ⟨order, hperm, horder⟩ := h.tiles.ordered
  exact estimatesAddUp_of_consecutive hbytes hvalid hperm horder h.buffer_eq

/-- The estimate for as many elements as a range of the buffer has comes from a product of 128 bits,
is not changed by being cut to 64, and is at most the size of the buffer; it grows with the number
of elements and is exact for all of them. However a source over the buffer is divided into pieces,
by bundles, by splits of readers or otherwise, their estimates come to no more than its own, and to
no less than that but for one byte for each piece after the first. -/
theorem estimates_add_up (buffer : Buffer α) (hsize : buffer.size < 2 ^ 64)
    (hbytes : buffer.totalBytes < 2 ^ 64) :
    (∀ count, count ≤ buffer.size →
      buffer.totalBytes * count < 2 ^ 128 ∧
      buffer.estimatedBytes count = buffer.totalBytes * count / buffer.size ∧
      buffer.estimatedBytes count ≤ buffer.totalBytes ∧
      ∀ fewer, fewer ≤ count → buffer.estimatedBytes fewer ≤ buffer.estimatedBytes count) ∧
    (ofBuffer buffer).estimatedBytes = buffer.totalBytes ∧
    ∀ source : Source α, source.buffer = buffer → source.Valid →
      source.estimatedBytes ≤ buffer.totalBytes ∧
      (∀ pieces order, order.Perm (pieces.map span) →
        Consecutive source.start order source.stop →
        (∀ piece ∈ pieces, piece.buffer = buffer) → source.EstimatesAddUp pieces) ∧
      (∀ desiredBytes, source.EstimatesAddUp (source.bundles desiredBytes)) ∧
      ∀ events, source.EstimatesAddUp ((Division.begin source).run events).pieces := by
  refine ⟨?_, Buffer.estimatedBytes_size hbytes, ?_⟩
  · intro count hcount
    have heq := Buffer.estimatedBytes_eq hbytes hcount
    refine ⟨?_, heq, heq ▸ Buffer.share_le hcount, ?_⟩
    · calc buffer.totalBytes * count < 2 ^ 64 * 2 ^ 64 :=
            Nat.mul_lt_mul'' hbytes (hcount.trans_lt hsize)
        _ = 2 ^ 128 := by decide
    · intro fewer hfewer
      rw [heq, Buffer.estimatedBytes_eq hbytes (hfewer.trans hcount)]
      exact Nat.div_le_div_right (Nat.mul_le_mul_left _ hfewer)
  · rintro source rfl hvalid
    refine ⟨?_, ?_, ?_, ?_⟩
    · have hcount : source.size ≤ source.buffer.size :=
        (Nat.sub_le _ _).trans hvalid.stop_le_size
      rw [estimatedBytes, Buffer.estimatedBytes_eq hbytes hcount]
      exact Buffer.share_le hcount
    · intro pieces order hperm horder hbuffer
      exact estimatesAddUp_of_consecutive hbytes hvalid hperm horder hbuffer
    · intro desiredBytes
      exact estimatesAddUp_of_covers hbytes hvalid (Covers.bundles _ hvalid.start_le_stop)
    · intro events
      have hsound := (Division.sound_begin hvalid).run hvalid events
      exact estimatesAddUp_of_covers hbytes hvalid hsound.covers

/-- Three byte strings with five bytes together. Of three pieces, in whatever order, each one is
estimated at one byte, as little as there may be; and a reader that is split gives two pieces. -/
theorem estimates_add_up_fiveBytes :
    let source := ofBuffer (Buffer.ofEncoded (Coder.bytes.share 0) [[7], [], [7, 7, 7, 7]])
    let pieces := [source.withRange 2 3, source.withRange 0 1, source.withRange 1 2]
    let division := (Division.begin source).run
      [.openSource 0, .start 0, .split (.reader 0) (.ofQuotient false 2 3)]
    pieces.map estimatedBytes = [1, 1, 1] ∧ source.estimatedBytes = 5 ∧
      source.EstimatesAddUp pieces ∧
      division.pieces.map estimatedBytes = [1, 3] ∧ source.EstimatesAddUp division.pieces := by
  intro source pieces division
  obtain ⟨-, hwhole, hpieces⟩ := estimates_add_up source.buffer (by decide) (by decide)
  obtain ⟨-, hany, -, hdivided⟩ := hpieces source rfl (valid_ofBuffer _)
  refine ⟨by decide, hwhole, ?_, by decide +kernel, hdivided _⟩
  apply hany pieces [(0, 1), (1, 2), (2, 3)]
  · decide
  · exact ⟨rfl, by decide, rfl, by decide, rfl, by decide, rfl⟩
  · simp [pieces, withRange]

end Source

end BundledReading

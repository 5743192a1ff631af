import BundledReading.Source
import Mathlib.Algebra.Ring.Nat

/-!
# Tilings of a range

Whoever splits a source cuts its range into spans. Spans tile a range if in some order they
follow one another from its start to its end; only an empty range has an empty span, and no span
besides. Cutting one span of a tiling gives a tiling again (`Tiles.refine`), and the order of a
tiling is the order of its spans as pairs (`Tiles.consecutive_of_sorted`).
-/

namespace BundledReading

/-- The first index of a range and the first index behind it. -/
abbrev Span := Nat × Nat

/-- Spans that follow one another from `start` to `stop` without gap or overlap. -/
def Consecutive : Nat → List Span → Nat → Prop
  | start, [], stop => start = stop
  | start, span :: rest, stop => span.1 = start ∧ span.1 ≤ span.2 ∧ Consecutive span.2 rest stop

theorem consecutive_append_iff {before after : List Span} {start stop : Nat} :
    Consecutive start (before ++ after) stop ↔
      ∃ mid, Consecutive start before mid ∧ Consecutive mid after stop := by
  induction before generalizing start with
  | nil => simp [Consecutive]
  | cons span rest ih =>
      simp only [List.cons_append, Consecutive, ih]
      constructor
      · rintro ⟨hstart, hle, mid, hrest, hafter⟩
        exact ⟨mid, ⟨hstart, hle, hrest⟩, hafter⟩
      · rintro ⟨mid, ⟨hstart, hle, hrest⟩, hafter⟩
        exact ⟨hstart, hle, mid, hrest, hafter⟩

namespace Consecutive

variable {start mid stop : Nat} {spans before after : List Span}

theorem append (hbefore : Consecutive start before mid) (hafter : Consecutive mid after stop) :
    Consecutive start (before ++ after) stop :=
  consecutive_append_iff.mpr ⟨mid, hbefore, hafter⟩

theorem le (h : Consecutive start spans stop) : start ≤ stop := by
  induction spans generalizing start with
  | nil => exact Nat.le_of_eq h
  | cons span rest ih =>
      obtain ⟨rfl, hle, hrest⟩ := h
      exact Nat.le_trans hle (ih hrest)

/-- Every span lies within the range. -/
theorem bounds (h : Consecutive start spans stop) {span : Span} (hspan : span ∈ spans) :
    start ≤ span.1 ∧ span.1 ≤ span.2 ∧ span.2 ≤ stop := by
  induction spans generalizing start with
  | nil => simp at hspan
  | cons head rest ih =>
      obtain ⟨rfl, hle, hrest⟩ := h
      rcases List.mem_cons.mp hspan with rfl | hspan
      · exact ⟨Nat.le_refl _, hle, hrest.le⟩
      · have := ih hrest hspan
        omega

/-- Spans with an index in each of them are no more than the indices of their range. -/
theorem length_le (h : Consecutive start spans stop) (hfilled : ∀ span ∈ spans, span.1 < span.2) :
    start + spans.length ≤ stop := by
  induction spans generalizing start with
  | nil => exact h.le
  | cons head rest ih =>
      obtain ⟨rfl, -, hrest⟩ := h
      have hhead := hfilled head List.mem_cons_self
      have := ih hrest fun span hspan => hfilled span (List.mem_cons_of_mem head hspan)
      rw [List.length_cons]
      omega

/-- The spans have as many indices together as their range has. -/
theorem sum_lengths (h : Consecutive start spans stop) :
    (spans.map fun span => span.2 - span.1).sum = stop - start := by
  induction spans generalizing start with
  | nil => exact (Nat.sub_eq_zero_of_le (Nat.le_of_eq h.symm)).symm
  | cons span rest ih =>
      obtain ⟨rfl, hle, hrest⟩ := h
      have := hrest.le
      rw [List.map_cons, List.sum_cons, ih hrest]
      omega

/-- A span can be replaced by spans that fill it. -/
theorem replace {span : Span} {parts : List Span}
    (h : Consecutive start (before ++ span :: after) stop)
    (hparts : Consecutive span.1 parts span.2) :
    Consecutive start (before ++ (parts ++ after)) stop := by
  obtain ⟨_, hbefore, rfl, _, hafter⟩ := consecutive_append_iff.mp h
  exact hbefore.append (hparts.append hafter)

/-- Where spans that follow one another start, and where they end, says what they are. -/
theorem eq_of_starts {others : List Span} (h : Consecutive start spans stop)
    (hothers : Consecutive start others stop)
    (hstarts : spans.map Prod.fst = others.map Prod.fst) : spans = others := by
  induction spans generalizing start others with
  | nil => exact (List.map_eq_nil_iff.mp hstarts.symm).symm
  | cons span rest ih =>
      obtain ⟨other, more, rfl, hstart, hrest⟩ := List.map_eq_cons_iff.mp hstarts.symm
      obtain ⟨-, -, hspan⟩ := h
      obtain ⟨-, -, hother⟩ := hothers
      have hstop : span.2 = other.2 := by
        -- Both end where the next one starts, or where the range ends.
        cases rest with
        | nil =>
            obtain rfl : more = [] := List.map_eq_nil_iff.mp hrest
            exact hspan.trans hother.symm
        | cons next rest =>
            obtain ⟨second, last, rfl, hsecond, -⟩ := List.map_eq_cons_iff.mp hrest
            rw [← hspan.1, ← hother.1, hsecond]
      rw [← ih (hstop ▸ hspan) hother hrest.symm, Prod.ext hstart.symm hstop]

end Consecutive

/-- The order of spans by start, then by end. -/
def spanLe (a b : Span) : Bool := a.1 < b.1 || (a.1 = b.1 && a.2 ≤ b.2)

theorem spanLe_iff {a b : Span} : spanLe a b = true ↔ a.1 < b.1 ∨ a.1 = b.1 ∧ a.2 ≤ b.2 := by
  simp [spanLe]

theorem start_le_of_spanLe {a b : Span} (h : spanLe a b = true) : a.1 ≤ b.1 := by
  rw [spanLe_iff] at h
  omega

theorem spanLe_total (a b : Span) : (spanLe a b || spanLe b a) = true := by
  rw [Bool.or_eq_true, spanLe_iff, spanLe_iff]
  omega

theorem spanLe_trans (a b c : Span) (hab : spanLe a b = true) (hbc : spanLe b c = true) :
    spanLe a c = true := by
  rw [spanLe_iff] at *
  omega

theorem spanLe_antisymm {a b : Span} (hab : spanLe a b = true) (hba : spanLe b a = true) :
    a = b := by
  rw [spanLe_iff] at *
  apply Prod.ext <;> omega

theorem Consecutive.sorted {start stop : Nat} {spans : List Span}
    (h : Consecutive start spans stop) : spans.Pairwise (spanLe · ·) := by
  induction spans generalizing start with
  | nil => exact List.Pairwise.nil
  | cons head rest ih =>
      obtain ⟨rfl, hle, hrest⟩ := h
      refine List.Pairwise.cons (fun span hspan => ?_) (ih hrest)
      have := hrest.bounds hspan
      rw [spanLe_iff]
      omega

/-- Spans that in some order fill the range from `start` to `stop`, none of them in vain. -/
structure Tiles (spans : List Span) (start stop : Nat) : Prop where
  ordered : ∃ order : List Span, order.Perm spans ∧ Consecutive start order stop
  /-- Only an empty range has an empty span. -/
  filled : ∀ span ∈ spans, span.1 = span.2 → start = stop
  /-- An empty range has one span. -/
  single : start = stop → spans.length = 1

namespace Tiles

variable {start stop : Nat} {spans rest parts : List Span} {span : Span}

theorem perm (h : Tiles spans start stop) {others : List Span} (hperm : spans.Perm others) :
    Tiles others start stop := by
  obtain ⟨order, horder, hconsecutive⟩ := h.ordered
  refine ⟨⟨order, horder.trans hperm, hconsecutive⟩, ?_, ?_⟩
  · intro span hspan
    exact h.filled span (hperm.mem_iff.mpr hspan)
  · intro hempty
    rw [← hperm.length_eq]
    exact h.single hempty

theorem bounds (h : Tiles spans start stop) (hspan : span ∈ spans) :
    start ≤ span.1 ∧ span.1 ≤ span.2 ∧ span.2 ≤ stop := by
  obtain ⟨order, horder, hconsecutive⟩ := h.ordered
  exact hconsecutive.bounds (horder.mem_iff.mpr hspan)

/-- A range is tiled by at least one span. -/
theorem ne_nil (h : Tiles spans start stop) : spans ≠ [] := by
  rintro rfl
  obtain ⟨order, horder, hconsecutive⟩ := h.ordered
  rw [horder.eq_nil] at hconsecutive
  have := h.single hconsecutive
  simp at this

/-- A range is tiled by no more spans than it has indices, but for the span of an empty range. -/
theorem length_le (h : Tiles spans start stop) : spans.length ≤ max 1 (stop - start) := by
  by_cases hempty : start = stop
  · rw [h.single hempty]
    exact Nat.le_max_left _ _
  · obtain ⟨order, horder, hconsecutive⟩ := h.ordered
    have hfilled : ∀ span ∈ order, span.1 < span.2 := by
      intro span hspan
      refine Nat.lt_of_le_of_ne (hconsecutive.bounds hspan).2.1 fun heq => hempty ?_
      exact h.filled span (horder.mem_iff.mp hspan) heq
    have := hconsecutive.length_le hfilled
    rw [← horder.length_eq]
    omega

/-- A range is tiled by itself. -/
theorem whole (h : start ≤ stop) : Tiles [(start, stop)] start stop where
  ordered := ⟨[(start, stop)], List.Perm.refl _, rfl, h, rfl⟩
  filled := by simp
  single := by simp

/-- Consecutive spans with indices in each of them tile their range. -/
theorem of_consecutive (h : Consecutive start spans stop)
    (hfilled : ∀ span ∈ spans, span.1 < span.2) (hlt : start < stop) : Tiles spans start stop where
  ordered := ⟨spans, List.Perm.refl _, h⟩
  filled := fun span hspan hempty => absurd (hfilled span hspan) (by omega)
  single := fun hempty => absurd hlt (by omega)

/-- Tiling one span of a tiling by others gives a tiling. -/
theorem refine (h : Tiles (span :: rest) start stop) (hparts : Tiles parts span.1 span.2) :
    Tiles (parts ++ rest) start stop := by
  obtain ⟨order, horder, hconsecutive⟩ := h.ordered
  obtain ⟨inner, hinner, hfits⟩ := hparts.ordered
  obtain ⟨before, after, rfl⟩ : ∃ before after, order = before ++ span :: after :=
    List.append_of_mem (horder.mem_iff.mpr List.mem_cons_self)
  have hrest : (before ++ after).Perm rest :=
    (List.perm_cons span).mp (List.perm_middle.symm.trans horder)
  have hperm : (before ++ (inner ++ after)).Perm (parts ++ rest) :=
    (List.perm_append_comm_assoc before inner after).trans (hinner.append hrest)
  refine ⟨⟨_, hperm, hconsecutive.replace hfits⟩, ?_, ?_⟩
  · intro part hpart hempty
    rcases List.mem_append.mp hpart with hpart | hpart
    · exact h.filled span List.mem_cons_self (hparts.filled part hpart hempty)
    · exact h.filled part (List.mem_cons_of_mem span hpart) hempty
  · intro hempty
    have hlength := h.single hempty
    have hbounds := h.bounds List.mem_cons_self
    have hone := hparts.single (by omega)
    simp only [List.length_append, List.length_cons] at hlength ⊢
    omega

/-- Cutting one span of a tiling in two gives a tiling. -/
theorem cut (h : Tiles (span :: rest) start stop) {point : Nat} (hleft : span.1 < point)
    (hright : point < span.2) :
    Tiles ((span.1, point) :: (point, span.2) :: rest) start stop := by
  have hparts : Tiles [(span.1, point), (point, span.2)] span.1 span.2 := by
    apply of_consecutive
    · exact ⟨rfl, Nat.le_of_lt hleft, rfl, Nat.le_of_lt hright, rfl⟩
    · simpa using ⟨hleft, hright⟩
    · exact Nat.lt_trans hleft hright
  exact h.refine hparts

/-- The spans of a tiling, sorted, follow one another. -/
theorem consecutive_of_sorted (h : Tiles spans start stop) {sorted : List Span}
    (hperm : sorted.Perm spans) (hsorted : sorted.Pairwise (spanLe · ·)) :
    Consecutive start sorted stop := by
  obtain ⟨order, horder, hconsecutive⟩ := h.ordered
  have heq : sorted = order :=
    List.Perm.eq_of_pairwise (fun _ _ _ _ hab hba => spanLe_antisymm hab hba) hsorted
      hconsecutive.sorted (hperm.trans horder.symm)
  exact heq ▸ hconsecutive

end Tiles

end BundledReading

import BundledReading.Proofs.Elements

/-!
# The shape of static splits

Whatever the desired size, all bundles of a source but the last one have one length, and the last is
no longer. Splitting a bundle again, with the same desired size, gives that bundle alone.

## Implementation notes

How many elements a bundle has is capped by the size of the source that is split, while the mean
length is that of the whole buffer. So a bundle is split with another cap than its source was, and
may take another branch. All that matters is that it is told the number that its source was told, or
all of its own elements (`elementsPerBundle_of_cut`). How the quotient of the desired size and the
mean was rounded does not matter.
-/

namespace BundledReading.Source

variable {α : Type} {source bundle : Source α} {desired : Nat}

/-! ## One length for all bundles but the last -/

/-- All pieces of a cut but the last one are as long as its step, and the last is no longer. -/
theorem map_length_cut {step fuel start stop : Nat} (hstep : 0 < step) (hlt : start < stop)
    (hfuel : stop - start ≤ fuel) :
    ∃ count last, (cut step fuel start stop).map (fun piece => piece.2 - piece.1) =
      List.replicate count step ++ [last] ∧ last ≤ step := by
  induction fuel generalizing start with
  | zero => omega
  | succ fuel ih =>
      rw [cut, if_pos hlt, List.map_cons]
      by_cases hmore : start + step < stop
      · obtain ⟨count, last, hlengths, hlast⟩ := ih hmore (by omega)
        refine ⟨count + 1, last, ?_, hlast⟩
        rw [hlengths, Nat.min_eq_left (Nat.le_of_lt hmore), Nat.add_sub_cancel_left,
          List.replicate_succ, List.cons_append]
      · refine ⟨0, stop - start, ?_, by omega⟩
        rw [cut_of_le (Nat.le_of_not_lt hmore), Nat.min_eq_right (Nat.le_of_not_lt hmore)]
        rfl

/-- A source whose bundles have room for all of it is its only bundle. -/
theorem bundles_eq_self_of_size_le (hle : source.start ≤ source.stop)
    (hsize : source.size ≤ source.elementsPerBundle desired) :
    source.bundles desired = [source] := by
  rw [bundles]
  split
  · rfl
  next hcut =>
    have hlt : source.start < source.stop := by
      have hne : source.start ≠ source.stop := fun heq => hcut (by simp [isEmpty, heq])
      omega
    have hsingle : source.stop ≤ source.start + source.elementsPerBundle desired := by
      rw [size] at hsize
      omega
    obtain ⟨fuel, hfuel⟩ : ∃ fuel, source.size = fuel + 1 :=
      Nat.exists_eq_add_one.mpr (Nat.sub_pos_of_lt hlt)
    rw [hfuel, cut, if_pos hlt, Nat.min_eq_right hsingle, cut_of_le hsingle]
    rfl

/-- The sizes of the bundles of a source. Where no size is desired, nothing limits the only one. -/
theorem map_size_bundles (hle : source.start ≤ source.stop) (desired : Nat) :
    ∃ common count last, (source.bundles desired).map size = List.replicate count common ++ [last] ∧
      last ≤ common ∧ (0 < desired → common = source.elementsPerBundle desired) := by
  by_cases hnone : desired = 0
  · refine ⟨source.size, 0, source.size, ?_, Nat.le_refl _, ?_⟩
    · simp [bundles, hnone]
    · exact fun hdesired => absurd hnone hdesired.ne'
  by_cases hlt : source.start < source.stop
  · obtain ⟨count, last, hlengths, hlast⟩ := map_length_cut
      (source.elementsPerBundle_pos desired) hlt (Nat.le_refl _)
    refine ⟨_, count, last, ?_, hlast, fun _ => rfl⟩
    have hcut : ¬(desired = 0 || source.isEmpty) = true := by simp [isEmpty, hnone, hlt.ne]
    rw [← hlengths, bundles, if_neg hcut, List.map_map]
    rfl
  · have hempty : source.size = 0 := Nat.sub_eq_zero_of_le (Nat.le_of_not_lt hlt)
    refine ⟨_, 0, source.size, ?_, ?_, fun _ => rfl⟩
    · rw [bundles_eq_self_of_size_le hle (hempty ▸ Nat.zero_le _)]
      rfl
    · exact hempty ▸ Nat.zero_le _

/-- No bundle has more elements than a bundle is told to have. -/
theorem size_le_of_mem_bundles (hle : source.start ≤ source.stop) (hdesired : 0 < desired)
    (hbundle : bundle ∈ source.bundles desired) :
    bundle.size ≤ source.elementsPerBundle desired := by
  obtain ⟨common, count, last, hsizes, hlast, hcommon⟩ := map_size_bundles hle desired
  obtain rfl := hcommon hdesired
  have hmem : bundle.size ∈ List.replicate count _ ++ [last] :=
    hsizes ▸ List.mem_map_of_mem hbundle
  rcases List.mem_append.mp hmem with hfull | hrest
  · exact (List.eq_of_mem_replicate hfull).le
  · exact (List.mem_singleton.mp hrest).trans_le hlast

/-! ## Splitting a bundle again -/

/-- Where a source is cut, the number of elements in its bundles comes from the mean alone. Any
other part of the buffer is told the same number, or all of its own elements. -/
theorem elementsPerBundle_of_cut (hbuffer : bundle.buffer = source.buffer)
    (hcut : source.elementsPerBundle desired < source.size) :
    bundle.elementsPerBundle desired = source.elementsPerBundle desired ∨
      bundle.elementsPerBundle desired = max bundle.size 1 := by
  unfold elementsPerBundle at hcut ⊢
  rw [hbuffer]
  dsimp only at hcut ⊢
  split at hcut
  · omega
  next haverage =>
    simp only [if_neg haverage]
    split at hcut
    · omega
    next hquotient =>
      rw [if_neg hquotient]
      split
      · exact .inr rfl
      · exact .inl rfl

/-- A bundle is its own only bundle. -/
theorem bundles_of_mem_bundles (hle : source.start ≤ source.stop)
    (hbundle : bundle ∈ source.bundles desired) : bundle.bundles desired = [bundle] := by
  by_cases hwhole : source.bundles desired = [source]
  · obtain rfl : bundle = source := by simpa [hwhole] using hbundle
    exact hwhole
  · have hdesired : 0 < desired := by
      refine Nat.pos_of_ne_zero fun hnone => hwhole ?_
      simp [bundles, hnone]
    have hcut : source.elementsPerBundle desired < source.size :=
      Nat.lt_of_not_le fun hsize => hwhole (bundles_eq_self_of_size_le hle hsize)
    apply bundles_eq_self_of_size_le ((Covers.bundles desired hle).bounds hbundle).2.1
    rcases elementsPerBundle_of_cut (buffer_of_mem_bundles hbundle) hcut with hsame | hall
    · rw [hsame]
      exact size_le_of_mem_bundles hle hdesired hbundle
    · rw [hall]
      exact Nat.le_max_left _ _

/-- A source has at least one bundle, and no more bundles than elements, unless it is empty. All of
them but the last one have one size, which is the computed one if a size is desired, and the last is
no larger. Splitting any of them again, with the same desired size, gives it back alone. -/
theorem bundles_even_and_stable (source : Source α) (desired : Nat)
    (hle : source.start ≤ source.stop) :
    1 ≤ (source.bundles desired).length ∧
      (source.bundles desired).length ≤ max 1 source.size ∧
      (∃ common count last,
        (source.bundles desired).map size = List.replicate count common ++ [last] ∧
        last ≤ common ∧ (0 < desired → common = source.elementsPerBundle desired)) ∧
      ∀ bundle ∈ source.bundles desired, bundle.bundles desired = [bundle] := by
  have htiles := tiles_bundles desired hle
  refine ⟨?_, ?_, map_size_bundles hle desired, fun _ => bundles_of_mem_bundles hle⟩
  · exact List.length_pos_iff.mpr fun hnone => htiles.ne_nil (List.map_eq_nil_iff.mpr hnone)
  · have hlength := htiles.length_le
    rwa [List.length_map] at hlength

/-- The last three of four numbers in bundles of two. The second bundle is told all of its own
elements, and not two. -/
theorem bundles_even_and_stable_lastThree :
    let lastThree := fourNumbers.withRange 1 4
    (lastThree.bundles 8).map span = [(1, 3), (3, 4)] ∧
      (lastThree.bundles 8).map (elementsPerBundle · 8) = [2, 1] ∧
      ∀ bundle ∈ lastThree.bundles 8, bundle.bundles 8 = [bundle] := by
  intro lastThree
  obtain ⟨-, -, -, hstable⟩ := bundles_even_and_stable lastThree 8 (by decide)
  exact ⟨by decide +kernel, by decide +kernel, hstable⟩

end BundledReading.Source

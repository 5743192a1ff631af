import BundledReading.Proofs.Executor.Shares

/-!
# Reports and static bundles

A run that returns a report has joined all of its shares, and the report lists them in order. So
reports refine the static bundles that their runs have begun with: the bundles that are not dynamic
start where the static ones do, and each dynamic one lies inside a static one, behind its start.

## Implementation notes

What decoding gives does not matter here, nor does the number of permits. That every element is in
the report is another result.
-/

namespace BundledReading.Executor

variable {α : Type} {options : Options} {crashes : Bytes → Bool} {source : Source α}
  {state : State α} {report : Report α}

/-! ## Shares of a report -/

/-- The shares of the bundles of a report. -/
def Report.shares (report : Report α) : List Share := report.bundles.map Summary.share

/-- A report lists the shares of a run, and there are no others. -/
theorem State.Coherent.refines_report {lost : List Share}
    (h : state.Coherent options source lost) (hresult : state.result? = some (.ok report)) :
    Refines source ((source.bundles options.desiredBundleBytes.toNat).map Source.span)
      report.shares report.dynamicSplits := by
  have hlost := h.lost_eq_nil hresult
  obtain ⟨hqueue, hactive, rfl⟩ := h.complete report hresult
  obtain ⟨inOrder, hperm, -, hreport⟩ := report_eq state.finished state.dynamicSplits
  have hshares : lost ++ state.shares =
      state.finished.map fun bundle => bundle.summary.share := by
    simp [hlost, State.shares, hqueue, hactive]
  have hrefines := hshares ▸ h.refines
  rw [hreport, Report.shares, List.map_map]
  exact hrefines.perm (hperm.map _).symm

/-- The bundles of a report are sorted by their ranges. -/
theorem spansSorted_report (finished : List (Finished α)) (dynamicSplits : Nat) :
    (Executor.report finished dynamicSplits).bundles.Pairwise fun a b =>
      spanLe (a.start, a.stop) (b.start, b.stop) := by
  obtain ⟨inOrder, -, hsorted, hreport⟩ := report_eq finished dynamicSplits
  rw [hreport, List.pairwise_map]
  exact hsorted

theorem sorted_report (finished : List (Finished α)) (dynamicSplits : Nat) :
    (Executor.report finished dynamicSplits).bundles.Pairwise fun a b => a.start ≤ b.start :=
  (spansSorted_report finished dynamicSplits).imp start_le_of_spanLe

namespace Refines

variable {statics : List Span} {bundles : List Summary} {splits start stop : Nat}

/-- Of sorted bundles, those that are not dynamic start where the static bundles do. -/
theorem starts_eq (h : Refines source statics (bundles.map Summary.share) splits)
    (hsorted : bundles.Pairwise fun a b => a.start ≤ b.start)
    (hstatics : Consecutive start statics stop) :
    (bundles.filter fun bundle => !bundle.dynamic).map Summary.start = statics.map Prod.fst := by
  have hperm : ((bundles.filter fun bundle => !bundle.dynamic).map Summary.start).Perm
      (statics.map Prod.fst) := by
    have hstarts := h.starts_perm
    rwa [List.filter_map, List.map_map] at hstarts
  apply hperm.eq_of_pairwise fun _ _ _ _ => Nat.le_antisymm
  · rw [List.pairwise_map]
    exact hsorted.filter _
  · rw [List.pairwise_map]
    exact hstatics.sorted.imp start_le_of_spanLe

/-- Where a static bundle starts, some bundle starts that is not dynamic. -/
theorem exists_start (h : Refines source statics (bundles.map Summary.share) splits) {span : Span}
    (hspan : span ∈ statics) :
    ∃ bundle ∈ bundles, bundle.dynamic = false ∧ bundle.start = span.1 := by
  obtain ⟨share, hshare, hstart⟩ :=
    List.mem_map.mp (h.starts_perm.mem_iff.mpr (List.mem_map_of_mem (f := Prod.fst) hspan))
  obtain ⟨hmem, hstatic⟩ := List.mem_filter.mp hshare
  obtain ⟨bundle, hbundle, rfl⟩ := List.mem_map.mp hmem
  exact ⟨bundle, hbundle, by simpa using hstatic, hstart⟩

/-- The first of sorted bundles is not dynamic, since a bundle starts before every dynamic one. -/
theorem exists_first (h : Refines source statics (bundles.map Summary.share) splits)
    (hsorted : bundles.Pairwise fun a b => a.start ≤ b.start) :
    ∃ first rest, bundles = first :: rest ∧ first.dynamic = false := by
  cases bundles with
  | nil => exact absurd rfl h.tiles.ne_nil
  | cons first rest =>
      refine ⟨first, rest, rfl, ?_⟩
      by_contra hdynamic
      have hmarked : first.share.dynamic = true := by simpa using hdynamic
      obtain ⟨span, hspan, -, hbehind⟩ := h.inside first.share List.mem_cons_self
      rw [if_pos hmarked] at hbehind
      obtain ⟨bundle, hbundle, -, hstart⟩ := h.exists_start hspan
      have hfirst : first.start ≤ bundle.start := by
        rcases List.mem_cons.mp hbundle with rfl | hrest
        · exact Nat.le_refl _
        · exact List.rel_of_pairwise_cons hsorted hrest
      exact absurd (Nat.lt_of_lt_of_le (hstart ▸ hbehind) hfirst) (Nat.lt_irrefl _)

/-- A dynamic bundle has elements, and lies inside a static one behind its start. -/
theorem inside_of_dynamic (h : Refines source statics (bundles.map Summary.share) splits)
    {bundle : Summary} (hbundle : bundle ∈ bundles) (hdynamic : bundle.dynamic = true) :
    ∃ span ∈ statics, span.1 < bundle.start ∧ bundle.start < bundle.stop ∧
      bundle.stop ≤ span.2 := by
  have hshare : bundle.share ∈ bundles.map Summary.share := List.mem_map_of_mem hbundle
  have hmem : bundle.share.span ∈ (bundles.map Summary.share).map Share.span :=
    List.mem_map_of_mem hshare
  obtain ⟨span, hspan, hstop, hbehind⟩ := h.inside bundle.share hshare
  obtain ⟨share, hother, hstart⟩ := h.exists_start hspan
  have hbounds := h.tiles.bounds hmem
  have hfirst := h.tiles.bounds (List.mem_map_of_mem (List.mem_map_of_mem hother))
  rw [if_pos (show bundle.share.dynamic = true from hdynamic)] at hbehind
  refine ⟨span, hspan, hbehind, ?_, hstop⟩
  refine Nat.lt_of_le_of_ne hbounds.2.1 fun hempty => ?_
  have := h.tiles.filled _ hmem hempty
  simp only [Summary.share_span] at hbounds hfirst hbehind
  omega

end Refines

/-! ## Reports -/

/-- A report refines the static bundles of its source, whatever the interleaving and whatever the
coder does. It counts its dynamic bundles; the others start, in order, where the static bundles do;
each dynamic bundle has elements and lies inside a static one, behind its start. So every boundary
of a static bundle is one of the report, and the first bundle is not dynamic. -/
theorem report_refines_static_bundles (hvalid : source.Valid) (events : List RunEvent)
    (hresult : ((State.begin options source).run options crashes events).result? =
      some (.ok report)) :
    let statics := source.bundles options.desiredBundleBytes.toNat
    report.dynamicSplits = report.bundles.countP Summary.dynamic ∧
      (report.bundles.filter fun bundle => !bundle.dynamic).map Summary.start =
        statics.map Source.start ∧
      (∀ bundle ∈ report.bundles, bundle.dynamic = true → ∃ piece ∈ statics,
        piece.start < bundle.start ∧ bundle.start < bundle.stop ∧ bundle.stop ≤ piece.stop) ∧
      (∀ piece ∈ statics, (∃ bundle ∈ report.bundles, bundle.start = piece.start) ∧
        ∃ bundle ∈ report.bundles, bundle.stop = piece.stop) ∧
      (∃ first rest, report.bundles = first :: rest ∧ first.dynamic = false) ∧
      report.bundles.length = statics.length + report.dynamicSplits := by
  intro statics
  obtain ⟨lost, hcoherent⟩ : ∃ lost, ((State.begin options source).run options crashes
    events).Coherent options source lost := coherent_of_run hvalid events
  have hrefines := hcoherent.refines_report hresult
  have hsorted : report.bundles.Pairwise fun a b => a.start ≤ b.start := by
    rw [(hcoherent.complete report hresult).2.2]
    exact sorted_report _ _
  refine ⟨?_, ?_, ?_, ?_, hrefines.exists_first hsorted, ?_⟩
  · have hsplits := hrefines.splits_eq
    rwa [Report.shares, List.countP_map] at hsplits
  · have hstarts := hrefines.starts_eq hsorted
      (Source.consecutive_bundles _ hvalid.start_le_stop)
    rwa [List.map_map] at hstarts
  · intro bundle hbundle hdynamic
    obtain ⟨span, hspan, hinside⟩ := hrefines.inside_of_dynamic hbundle hdynamic
    obtain ⟨piece, hpiece, rfl⟩ := List.mem_map.mp hspan
    exact ⟨piece, hpiece, hinside⟩
  · intro piece hpiece
    have hspan : piece.span ∈ statics.map Source.span := List.mem_map_of_mem hpiece
    constructor
    · obtain ⟨bundle, hbundle, -, hstart⟩ := hrefines.exists_start hspan
      exact ⟨bundle, hbundle, hstart⟩
    · obtain ⟨share, hshare, hstop⟩ := hrefines.stops _ hspan
      obtain ⟨bundle, hbundle, rfl⟩ := List.mem_map.mp hshare
      exact ⟨bundle, hbundle, hstop⟩
  · have hlength := hrefines.length_eq
    rwa [Report.shares, List.length_map, List.length_map] at hlength

/-- Of the two static bundles of four numbers, the first is split while it is read. -/
theorem report_refines_static_bundles_fourNumbers :
    let options : Options := { desiredBundleBytes := 12 }
    let events : List RunEvent :=
      [.proceed, .proceed, .proceed, .work 0, .tick [0], .proceed, .proceed] ++
        List.replicate 8 (.work 0) ++ List.replicate 6 (.work 1) ++ List.replicate 6 (.work 2) ++
        [.join 2, .proceed, .join 0, .proceed, .join 1, .proceed]
    let final := (State.begin options Source.fourNumbers).run options (fun _ => false) events
    ∃ report, final.result? = some (.ok report) ∧ report.dynamicSplits = 1 ∧
      (report.bundles.filter fun bundle => !bundle.dynamic).map Summary.start = [0, 3] ∧
      report.bundles.length = 3 := by
  intro options events final
  have hreturns : (final.result?.any fun result =>
      result.toOption.any fun report => report.dynamicSplits = 1) = true := by
    decide +kernel
  obtain ⟨result, hresult, hsplit⟩ := (Option.any_eq_true _ _).mp hreturns
  cases result with
  | error error => cases hsplit
  | ok report =>
      have hone : report.dynamicSplits = 1 := by simpa [Except.toOption] using hsplit
      have hvalid : Source.fourNumbers.Valid := Source.valid_ofBuffer _
      obtain ⟨-, hstarts, -, -, -, hlength⟩ := report_refines_static_bundles hvalid events hresult
      have hstatics : (Source.fourNumbers.bundles options.desiredBundleBytes.toNat).map
          Source.start = [0, 3] := by
        decide +kernel
      have hcount := congrArg List.length hstatics
      rw [List.length_map] at hcount
      rw [hcount, hone] at hlength
      exact ⟨report, hresult, hone, hstarts.trans hstatics, hlength⟩

end BundledReading.Executor

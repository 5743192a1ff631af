import BundledReading.Proofs.SessionSplits
import Mathlib.Data.List.Basic

/-!
# Dividing a root source

A root source may be divided without end: any piece of it can be replaced by its bundles, or by a
reader on it, and any reader can be moved on and split, again and again and in any order. At every
time the pieces, sorted, tile the range of the root over the root's buffer.

## Implementation notes

A session forgets nothing: a source stays in it after it was replaced. The division therefore
keeps the numbers of the sources that still count as pieces. A reader counts as the source of what
it will have read in the end.
-/

namespace BundledReading

variable {α : Type}

/-- The sources over all elements of a buffer, however the buffer was made. -/
inductive Source.IsRoot : Source α → Prop
  | ofBuffer (buffer : Buffer α) : IsRoot (Source.ofBuffer buffer)
  | ofValues {coder : SharedCoder α} {values : List α} {source : Source α}
      (h : Source.ofValues coder values = .ok source) : IsRoot source

theorem Source.IsRoot.valid {source : Source α} (h : source.IsRoot) : source.Valid := by
  cases h with
  | ofBuffer buffer => exact valid_ofBuffer buffer
  | @ofValues coder values _ h =>
      rw [Source.ofValues] at h
      cases hbuffer : Buffer.encode coder values with
      | error cause => simp [hbuffer] at h
      | ok buffer =>
          rw [hbuffer] at h
          obtain rfl : Source.ofBuffer buffer = source := Except.ok.inj h
          exact valid_ofBuffer buffer

/-- A root source under division. -/
structure Division (α : Type) where
  session : Session α
  /-- The numbers of the sources that have not been replaced. -/
  unopened : List Nat

/-- What may be done next to a division. -/
inductive DivisionEvent where
  /-- Replaces a source by its bundles of a desired size. -/
  | bundle (source desiredBytes : Nat)
  /-- Replaces a source by a reader on it. -/
  | openSource (source : Nat)
  | start (reader : Nat)
  | advance (reader : Nat)
  /-- Makes a handle on a reader. -/
  | handle (reader : Nat)
  | clone (handle : Nat)
  /-- Somebody splits, and the residual becomes a source. -/
  | split (splitter : Splitter) (fraction : Numeric.Binary64)

namespace Division

/-- The division of a root source into itself. -/
def begin (root : Source α) : Division α := ⟨Session.ofSource root, [0]⟩

/-- Takes up a session that has come from the division's own, with its new sources as pieces. -/
def adopt (unopened : List Nat) (before after : Session α) : Division α :=
  ⟨after, unopened ++
    List.range' before.sources.size (after.sources.size - before.sources.size)⟩

/-- Replaces an unopened source by what `replace` makes of it. -/
def replace (division : Division α) (number : Nat)
    (replacement : Source α → Session α) : Division α :=
  match division.session.sources[number]? with
  | none => division
  | some source =>
    if number ∈ division.unopened then
      adopt (division.unopened.erase number) division.session (replacement source)
    else division

/-- Performs a call on a reader. A call that fails changes nothing. -/
def call (division : Division α) (number : Nat)
    (action : Reader α → Except Failure (Bool × Reader α)) : Division α :=
  match division.session.readers[number]? with
  | none => division
  | some reader =>
    match action reader with
    | .error _ => division
    | .ok (_, next) => { division with session := division.session.setReader number next }

/-- What an event makes of a division. -/
def step (division : Division α) : DivisionEvent → Division α
  | .bundle source desiredBytes =>
    division.replace source fun found =>
      (division.session.addSources (found.bundles desiredBytes)).2
  | .openSource source => division.replace source fun found => (division.session.openSource found).2
  | .start reader => division.call reader Reader.start
  | .advance reader => division.call reader Reader.advance
  | .handle reader => { division with session := division.session.handleOn reader }
  | .clone handle => { division with session := division.session.cloneHandle handle }
  | .split splitter fraction =>
    adopt division.unopened division.session (division.session.splitBy splitter fraction)

/-- What a sequence of events makes of a division. -/
def run (division : Division α) (events : List DivisionEvent) : Division α :=
  events.foldl step division

/-- The sources with some of the numbers of a session. -/
def sourcesOf (session : Session α) (numbers : List Nat) : List (Source α) :=
  numbers.filterMap fun number => session.sources[number]?

/-- The pieces that have not been opened. -/
def sources (division : Division α) : List (Source α) :=
  sourcesOf division.session division.unopened

/-- All pieces: a reader counts as the source of what it will have read. -/
def pieces (division : Division α) : List (Source α) :=
  division.sources ++ division.session.readers.toList.map Reader.currentSource

/-! ## The invariant -/

/-- The readers are sound, the unopened pieces are sources of the session, and all pieces together
cover the root. -/
structure Sound (root : Source α) (division : Division α) : Prop where
  covers : Covers root division.pieces
  readers_sound : ∀ reader ∈ division.session.readers, reader.Sound
  numbered : ∀ number ∈ division.unopened, number < division.session.sources.size

theorem sound_begin {root : Source α} (h : root.Valid) : Sound root (begin root) where
  covers := Covers.self h.start_le_stop
  readers_sound := by simp [begin, Session.ofSource]
  numbered := by simp [begin, Session.ofSource]

theorem filterMap_getElem?_append (front : Array (Source α)) (added : List (Source α)) :
    (List.range' front.size added.length).filterMap (fun number =>
      (front ++ added.toArray)[number]?) = added := by
  induction added generalizing front with
  | nil => simp
  | cons source rest ih =>
      have hrest : front ++ (source :: rest).toArray = front.push source ++ rest.toArray := by
        simp
      have hhead : (front ++ (source :: rest).toArray)[front.size]? = some source := by simp
      rw [List.length_cons, List.range'_succ, List.filterMap_cons_some hhead, hrest]
      have := ih (front.push source)
      rw [Array.size_push] at this
      rw [this]

/-- The sources of a session that has got new ones. -/
theorem sources_adopt {before after : Session α} {numbers : List Nat} {added : List (Source α)}
    (hafter : after.sources = before.sources ++ added.toArray)
    (hnumbers : ∀ number ∈ numbers, number < before.sources.size) :
    (adopt numbers before after).sources = sourcesOf before numbers ++ added := by
  have hold : sourcesOf after numbers = sourcesOf before numbers := by
    apply List.filterMap_congr
    intro number hnumber
    rw [hafter, Array.getElem?_append_left (hnumbers number hnumber)]
  have hnew : sourcesOf after (List.range' before.sources.size added.length) = added := by
    rw [sourcesOf, hafter, filterMap_getElem?_append]
  have hsize : after.sources.size - before.sources.size = added.length := by
    simp [hafter]
  rw [sources, adopt, hsize, sourcesOf, List.filterMap_append]
  exact congrArg₂ _ hold hnew

/-- Taking one source out of the unopened ones leaves the others. -/
theorem sourcesOf_erase {session : Session α} {numbers : List Nat} {number : Nat}
    {source : Source α} (hsource : session.sources[number]? = some source)
    (hnumber : number ∈ numbers) :
    (sourcesOf session numbers).Perm (source :: sourcesOf session (numbers.erase number)) := by
  have hperm := (List.perm_cons_erase hnumber).filterMap fun other => session.sources[other]?
  rwa [List.filterMap_cons_some hsource] at hperm

/-- A reader of a session, and what replacing it does. -/
theorem exists_append_of_reader {session : Session α} {number : Nat} {reader : Reader α}
    (h : session.readers[number]? = some reader) :
    ∃ before after, session.readers.toList = before ++ reader :: after ∧
      ∀ next, (session.readers.setIfInBounds number next).toList = before ++ next :: after := by
  obtain ⟨hlt, rfl⟩ := Array.getElem?_eq_some_iff.mp h
  have hlength : number < session.readers.toList.length := by simpa using hlt
  refine ⟨session.readers.toList.take number, session.readers.toList.drop (number + 1), ?_, ?_⟩
  · have hdrop := List.getElem_cons_drop hlength
    rw [Array.getElem_toList] at hdrop
    rw [hdrop, List.take_append_drop]
  · intro next
    rw [Array.toList_setIfInBounds, List.set_eq_take_append_cons_drop, if_pos hlength]

variable {root : Source α} {division : Division α}

theorem numbered_adopt {before after : Session α} {numbers : List Nat}
    (hnumbers : ∀ number ∈ numbers, number < before.sources.size)
    (hsize : before.sources.size ≤ after.sources.size) :
    ∀ number ∈ (adopt numbers before after).unopened, number < after.sources.size := by
  intro number hnumber
  rcases List.mem_append.mp hnumber with hold | hnew
  · exact Nat.lt_of_lt_of_le (hnumbers number hold) hsize
  · have := List.mem_range'_1.mp hnew
    omega

/-- Sources and readers that cover an unopened source may take its place. -/
theorem Sound.replace (h : Sound root division) {number : Nat} {source : Source α}
    (hsource : division.session.sources[number]? = some source)
    (hnumber : number ∈ division.unopened) {after : Session α} (added : List (Source α))
    (opened : List (Reader α))
    (hsources : after.sources = division.session.sources ++ added.toArray)
    (hreaders : after.readers = division.session.readers ++ opened.toArray)
    (hopened : ∀ reader ∈ opened, reader.Sound)
    (hcovers : Covers source (added ++ opened.map Reader.currentSource)) :
    Sound root (adopt (division.unopened.erase number) division.session after) := by
  have hnumbers : ∀ other ∈ division.unopened.erase number,
      other < division.session.sources.size :=
    fun other hother => h.numbered other (List.mem_of_mem_erase hother)
  refine ⟨?_, ?_, ?_⟩
  · have htaken : division.pieces.Perm (source ::
        (sourcesOf division.session (division.unopened.erase number) ++
          division.session.readers.toList.map Reader.currentSource)) :=
      (sourcesOf_erase hsource hnumber).append_right _
    refine h.covers.refine htaken hcovers ?_
    rw [pieces, sources_adopt hsources hnumbers, adopt, hreaders]
    classical
    rw [List.perm_iff_count]
    intro piece
    simp only [Array.toList_append, List.map_append, List.count_append]
    omega
  · intro reader hreader
    have hmem : reader ∈ division.session.readers ++ opened.toArray := hreaders ▸ hreader
    rcases Array.mem_append.mp hmem with hold | hnew
    · exact h.readers_sound reader hold
    · exact hopened reader (by simpa using hnew)
  · exact numbered_adopt hnumbers (by simp [hsources])

theorem mem_pieces_of_unopened {number : Nat} {source : Source α}
    (hsource : division.session.sources[number]? = some source)
    (hnumber : number ∈ division.unopened) : source ∈ division.pieces :=
  List.mem_append_left _ (List.mem_filterMap.mpr ⟨number, hnumber, hsource⟩)

theorem Sound.bundle (hroot : root.Valid) (h : Sound root division) (number desiredBytes : Nat) :
    Sound root (division.step (.bundle number desiredBytes)) := by
  simp only [step, Division.replace]
  split
  · exact h
  next source hsource =>
    split
    next hnumber =>
      have hvalid := h.covers.valid hroot (mem_pieces_of_unopened hsource hnumber)
      apply h.replace hsource hnumber (source.bundles desiredBytes) []
      · rfl
      · simp [Session.addSources]
      · simp
      · simpa using Covers.bundles desiredBytes hvalid.start_le_stop
    · exact h

theorem Sound.openSource (hroot : root.Valid) (h : Sound root division) (number : Nat) :
    Sound root (division.step (.openSource number)) := by
  simp only [step, Division.replace]
  split
  · exact h
  next source hsource =>
    split
    next hnumber =>
      have hvalid := h.covers.valid hroot (mem_pieces_of_unopened hsource hnumber)
      apply h.replace hsource hnumber [] [Reader.ofSource source]
      · simp [Session.openSource]
      · simp [Session.openSource]
      · simpa using Reader.sound_ofSource hvalid
      · exact Covers.self hvalid.start_le_stop
    · exact h

/-- A call that keeps the live range of a reader keeps all pieces. -/
theorem Sound.call (h : Sound root division) (number : Nat)
    {action : Reader α → Except Failure (Bool × Reader α)}
    (haction : ∀ reader more next, action reader = .ok (more, next) →
      Reader.Change reader next ∧ next.currentSource = reader.currentSource) :
    Sound root (division.call number action) := by
  unfold Division.call
  split
  · exact h
  next reader hreader =>
    split
    · exact h
    next more next hnext =>
      obtain ⟨hchange, hsame⟩ := haction reader more next hnext
      have hmem : reader ∈ division.session.readers := Array.mem_of_getElem? hreader
      obtain ⟨before, after, hbefore, hafter⟩ := exists_append_of_reader hreader
      refine ⟨?_, ?_, h.numbered⟩
      · have hpieces : Division.pieces ⟨division.session.setReader number next,
            division.unopened⟩ = division.pieces := by
          simp only [pieces, sources, sourcesOf, Session.setReader, hbefore, hafter,
            List.map_append, List.map_cons, hsame]
        rw [hpieces]
        exact h.covers
      · intro other hother
        rcases Array.mem_or_eq_of_mem_setIfInBounds hother with hold | rfl
        · exact h.readers_sound other hold
        · exact hchange.sound (h.readers_sound reader hmem)

/-- A split cuts the piece of one reader in two. -/
theorem Sound.split (h : Sound root division) (splitter : Splitter)
    (fraction : Numeric.Binary64) : Sound root (division.step (.split splitter fraction)) := by
  rcases division.session.splitBy_cases splitter fraction with
    hnone | ⟨number, reader, position, point, hreader, hcurrent, hunread, hlive, hsplit, hsome⟩
  · simpa [step, hnone, adopt] using h
  · have hmem : reader ∈ division.session.readers := Array.mem_of_getElem? hreader
    have hreaderSound := h.readers_sound reader hmem
    have hchange := Reader.change_of_split reader fraction
    rw [hsplit] at hchange
    obtain ⟨before, after, hbefore, hafter⟩ := exists_append_of_reader hreader
    let next : Reader α := { reader with range := { reader.range with liveEnd := point } }
    let residual := reader.source.withRange point reader.range.liveEnd
    have hcovers : Covers reader.currentSource [next.currentSource, residual] :=
      hreaderSound.covers_split hsplit
    have hsources : (division.session.afterSplit number reader point).sources =
        division.session.sources ++ [residual].toArray := by
      simp [Session.afterSplit, residual]
    simp only [step, hsome]
    refine ⟨?_, ?_, numbered_adopt h.numbered (by simp [hsources])⟩
    · have htaken : division.pieces.Perm (reader.currentSource ::
          (division.sources ++ (before ++ after).map Reader.currentSource)) := by
        classical
        rw [List.perm_iff_count]
        intro piece
        simp only [pieces, hbefore, List.map_append, List.map_cons, List.count_append,
          List.count_cons]
        omega
      refine h.covers.refine htaken hcovers ?_
      rw [pieces, sources_adopt hsources h.numbered, adopt, Session.afterSplit, hafter]
      classical
      rw [List.perm_iff_count]
      intro piece
      simp only [sources, List.map_append, List.map_cons, List.count_append, List.count_cons,
        List.count_nil, next]
      omega
    · intro other hother
      rcases Array.mem_or_eq_of_mem_setIfInBounds hother with hold | rfl
      · exact h.readers_sound other hold
      · exact hchange.sound hreaderSound

theorem Sound.step (hroot : root.Valid) (h : Sound root division) (event : DivisionEvent) :
    Sound root (division.step event) := by
  cases event with
  | bundle source desiredBytes => exact h.bundle hroot source desiredBytes
  | openSource source => exact h.openSource hroot source
  | start number =>
      apply h.call number
      intro reader more next hstart
      exact ⟨Reader.change_of_start hstart, Reader.currentSource_of_start hstart⟩
  | advance number =>
      apply h.call number
      intro reader more next hadvance
      exact ⟨Reader.change_of_advance hadvance, Reader.currentSource_of_advance hadvance⟩
  | handle number =>
      obtain ⟨hcovers, hreaders, hnumbered⟩ := h
      constructor <;> simpa [Division.step, pieces, sources, sourcesOf] using ‹_›
  | clone number =>
      obtain ⟨hcovers, hreaders, hnumbered⟩ := h
      constructor <;> simpa [Division.step, pieces, sources, sourcesOf] using ‹_›
  | split splitter fraction => exact h.split splitter fraction

theorem Sound.run (hroot : root.Valid) (h : Sound root division) (events : List DivisionEvent) :
    Sound root (division.run events) := by
  induction events generalizing division with
  | nil => exact h
  | cons event rest ih => exact ih (h.step hroot event)

/-- What narrowing a source expects holds whenever a division narrows one: to cut bundles, to
split off a residual, and to tell what a reader covers. -/
def NarrowsWithin (division : Division α) : Prop :=
  (∀ source ∈ division.sources, ∀ desiredBytes, ∀ bundle ∈ source.bundles desiredBytes,
    source.MayNarrow bundle.start bundle.stop) ∧
  ∀ reader ∈ division.session.readers,
    reader.source.MayNarrow reader.source.start reader.range.liveEnd ∧
    ∀ fraction residual, (reader.split fraction).1 = some residual →
      reader.source.MayNarrow residual.start residual.stop

theorem Sound.narrowsWithin (hroot : root.Valid) (h : Sound root division) :
    division.NarrowsWithin := by
  constructor
  · intro source hsource desiredBytes bundle hbundle
    have hvalid := h.covers.valid hroot (List.mem_append_left _ hsource)
    have hbounds := (Covers.bundles desiredBytes hvalid.start_le_stop).bounds hbundle
    exact ⟨hbounds.1, hbounds.2.1, Nat.le_trans hbounds.2.2 hvalid.stop_le_size⟩
  · intro reader hreader
    have hsound := h.readers_sound reader hreader
    refine ⟨⟨Nat.le_refl _, hsound.start_le_liveEnd, hsound.liveEnd_le_size⟩, ?_⟩
    intro fraction residual hresidual
    rcases reader.split_cases fraction with hnone | ⟨position, point, hcurrent, _, hlive, hsome⟩
    · simp [hnone] at hresidual
    · rw [hsome] at hresidual
      obtain rfl := Option.some.inj hresidual
      have hstart := (hsound.current_mem hcurrent).1
      exact ⟨by simp only [Source.withRange]; omega, Nat.le_of_lt hlive, hsound.liveEnd_le_size⟩

/-- However a root source is divided, the pieces, in the order of their starts, follow one another
from its start to its stop; none is empty unless the root is; each is a range of the root's buffer,
and of no other; and no range that is ever asked for leaves the buffer or the source it is cut
from. -/
theorem pieces_tile_root (hroot : root.IsRoot) (events : List DivisionEvent) :
    let division := (begin root).run events
    Consecutive root.start ((division.pieces.map Source.span).mergeSort spanLe) root.stop ∧
      (∀ piece ∈ division.pieces, piece.start = piece.stop → root.start = root.stop) ∧
      (∀ piece ∈ division.pieces,
        piece.start ≤ piece.stop ∧ piece.stop ≤ root.buffer.size ∧ piece.buffer = root.buffer) ∧
      division.NarrowsWithin := by
  intro division
  have hvalid := hroot.valid
  have hsound : Sound root division := (sound_begin hvalid).run hvalid events
  refine ⟨?_, ?_, ?_, hsound.narrowsWithin hvalid⟩
  · apply hsound.covers.tiles.consecutive_of_sorted (List.mergeSort_perm _ _)
    exact List.pairwise_mergeSort spanLe_trans spanLe_total _
  · intro piece hpiece
    exact hsound.covers.tiles.filled piece.span (List.mem_map_of_mem hpiece)
  · intro piece hpiece
    have hpieceValid := hsound.covers.valid hvalid hpiece
    have hbuffer := hsound.covers.buffer_eq piece hpiece
    exact ⟨hpieceValid.start_le_stop, hbuffer ▸ hpieceValid.stop_le_size, hbuffer⟩

/-- A root of four numbers is opened, its reader is split, and the residual is cut into bundles. -/
theorem pieces_tile_root_fourNumbers :
    let division := (begin Source.fourNumbers).run
      [.openSource 0, .start 0, .split (.reader 0) (.ofQuotient false 1 2), .bundle 1 4]
    division.pieces.length = 3 ∧
      Consecutive 0 ((division.pieces.map Source.span).mergeSort spanLe) 4 := by
  intro division
  refine ⟨by decide +kernel, ?_⟩
  exact (pieces_tile_root (.ofBuffer _) _).1

end Division

end BundledReading

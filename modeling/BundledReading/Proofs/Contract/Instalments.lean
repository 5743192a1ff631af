import BundledReading.Contract.Checks
import BundledReading.Proofs.Contract.InMemory

/-!
# Reading in two instalments

A reader may be read in two instalments: some elements first, and all that it has left later. The
first instalment reads the elements at the front of the source, as many as there are of those asked
for. Together the two give what reading the source at once gives, or fail with the same element. Any
splits between the two that the reader rejects make no difference. All this is so while the elements
asked for have room in memory; if they have none, the first instalment breaks down, however few
elements the source has.

## Implementation notes

The second instalment is told whether the reader has been started and nothing else, so what carries
the result over is `Resumes`: where a first instalment may have left a reader.
-/

namespace BundledReading

variable {σ S R α : Type}

/-- The first elements of a source, at most `count` of them. -/
def Source.front (source : Source α) (count : Nat) : Source α :=
  source.withRange source.start (source.start + min count source.size)

theorem Source.size_front (source : Source α) (count : Nat) :
    (source.front count).size = min count source.size :=
  Nat.add_sub_cancel_left ..

namespace Contract

open Reader (Progress)

namespace SourceModel

variable (model : SourceModel σ S R α) (view : ElementView α)

/-- Asks a reader for a split at a fraction, through a handle on it if `ask.1`. -/
def askSplit (ask : Bool × Numeric.Binary64) : StateM (R × σ) (Option S) :=
  if ask.1 then model.handleSplit ask.2 else model.split ask.2

/-- Reads up to `count` elements with a fresh reader, asks for splits, and reads the rest. -/
def readTwice (budget count : Nat) (splits : List (Bool × Numeric.Binary64)) :
    Check (R × σ) (List α) := do
  let first ← readFirstWithRoom model view count
  let _ ← always (splits.mapM model.askSplit)
  let rest ← model.readRest budget (0 < count)
  return first ++ rest

/-- Reads a whole source in two instalments, with a reader of its own. -/
def readInInstalments (budget count : Nat) (splits : List (Bool × Numeric.Binary64)) (source : S) :
    Check σ (List α) := do
  let reader ← perform (model.openSource source)
  let (values, _) ← withReader reader (model.readTwice view budget count splits)
  return values

/-- Whether a reader rejects all of the splits once it has read up to `count` elements, if it comes
so far. -/
def rejectsAll (count : Nat) (splits : List (Bool × Numeric.Binary64)) (start : R × σ) : Bool :=
  match readFirstWithRoom model view count start with
  | .ok _ later => (splits.mapM model.askSplit later).1.all Option.isNone
  | .error _ _ => true

end SourceModel

variable {view : ElementView α} {source : Source α} {read : List α} {progress : Progress}
  {reader : Reader α} {budget count index : Nat} {started : Bool}
  {splits : List (Bool × Numeric.Binary64)}

/-! ## Rejected splits -/

theorem askSplit_inMemory (ask : Bool × Numeric.Binary64) (reader : Reader α) :
    (inMemory α).askSplit ask (reader, ()) =
      ((reader.split ask.2).1, (reader.split ask.2).2, ()) := by
  unfold SourceModel.askSplit
  split <;> rfl

/-- Splits that are all rejected leave the reader as it was. -/
theorem eq_of_rejected
    (h : (splits.mapM (inMemory α).askSplit (reader, ())).1.all Option.isNone = true) :
    (splits.mapM (inMemory α).askSplit (reader, ())).2 = (reader, ()) := by
  induction splits with
  | nil => rfl
  | cons ask rest ih =>
      have hmapM : (ask :: rest).mapM (inMemory α).askSplit (reader, ()) =
          let later := rest.mapM (inMemory α).askSplit ((reader.split ask.2).2, ())
          ((reader.split ask.2).1 :: later.1, later.2) := by
        rw [List.mapM_cons]
        simp only [bind, StateT.bind, askSplit_inMemory]
        rfl
      rw [hmapM] at h ⊢
      obtain ⟨hfirst, hrest⟩ : (reader.split ask.2).1 = none ∧
          (rest.mapM (inMemory α).askSplit ((reader.split ask.2).2, ())).1.all Option.isNone =
            true := by
        simpa using h
      have hsame : (reader.split ask.2).2 = reader :=
        Reader.eq_of_split_eq_none (Prod.ext hfirst rfl)
      rw [hsame] at hrest ⊢
      exact ih hrest

/-! ## The first instalment -/

/-- What a consumer has read between two calls are the elements at the front of the source, and all
up to the live end once its reader is exhausted. -/
theorem Underway.slice_read (h : Underway source read progress reader)
    (hresumes : Resumes started progress) :
    source.buffer.slice source.start (source.start + read.length) = read.map .ok ∧
      source.start + read.length ≤ reader.range.liveEnd ∧
      (progress = .exhausted → source.start + read.length = reader.range.liveEnd) := by
  have hstart : source.start ≤ reader.range.liveEnd := h.source_eq ▸ h.sound.start_le_liveEnd
  cases hresumes with
  | fresh =>
      obtain rfl : read = [] := h.reached.2.2
      exact ⟨source.buffer.slice_self source.start, hstart, nofun⟩
  | served =>
      obtain ⟨position, hcurrent, hslice⟩ := h.reached
      have hbounds := h.sound.current_mem hcurrent
      rw [h.source_eq] at hbounds hslice
      have hlength : source.start + read.length = position + 1 := by
        rw [Buffer.length_of_slice_eq hslice]
        omega
      rw [hlength]
      exact ⟨hslice, hbounds.2, nofun⟩
  | exhausted =>
      have hslice := h.slice_eq
      have hlength : source.start + read.length = reader.range.liveEnd := by
        rw [Buffer.length_of_slice_eq hslice]
        omega
      rw [hlength]
      exact ⟨hslice, Nat.le_refl _, fun _ => rfl⟩

/-- What fails at one of the first elements fails on the front alone as well. -/
theorem FailsAt.front {β : Type} {result : EStateM.Result CheckError (Reader α × Unit) β}
    (h : FailsAt source index result) (hindex : index < source.start + count) :
    FailsAt (source.front count) index result := by
  obtain ⟨cause, last, hresult, hfirst⟩ := h
  have hstop : index < (source.front count).stop := by
    have hlt := hfirst.lt_stop
    simp only [Source.front, Source.withRange, Source.size]
    omega
  exact ⟨cause, last, hresult, hfirst.start_le, hstop, hfirst.refused, hfirst.earlier⟩

theorem FailsAt.read_eq {β : Type} {result : EStateM.Result CheckError (Reader α × Unit) β}
    (h : FailsAt source index result) :
    ∃ cause last, result = .error (.failure cause) (last, ()) ∧ source.read = .error cause := by
  obtain ⟨cause, last, hresult, hfirst⟩ := h
  exact ⟨.decode index cause, last, hresult, hfirst.mapM_slice⟩

/-- The first instalment reads the front of the source. -/
theorem readFirst_front (hvalid : source.Valid) (count : Nat) :
    (∃ index, index < source.start + count ∧
        FailsAt source index
          ((inMemory α).readFirst count false (Reader.ofSource source, ()))) ∨
      ∃ first last after,
        (inMemory α).readFirst count false (Reader.ofSource source, ()) = .ok first (last, ()) ∧
        (source.front count).elements = first.map .ok ∧
        Underway source first after last ∧ Resumes (0 < count) after ∧
        last.range.liveEnd = source.stop := by
  rcases (Underway.ofSource hvalid).readFirst_cases .fresh count with ⟨index, hindex, hfails⟩ |
    ⟨first, last, after, hfirst, hlast, hafter, hlive, hmost, hlength⟩
  · exact .inl ⟨index, hindex, hfails⟩
  rw [List.nil_append] at hlast
  rw [Bool.false_or] at hafter
  obtain ⟨hslice, hle, hall⟩ := hlast.slice_read hafter
  have hstop : last.range.liveEnd = source.stop := hlive
  have hcount : first.length = min count source.size := by
    rw [Source.size]
    by_cases hend : after = .exhausted
    · have := hall hend
      omega
    · have := hlength hend
      omega
  refine .inr ⟨first, last, after, hfirst, ?_, hlast, hafter, hstop⟩
  rw [hcount] at hslice
  exact hslice

/-! ## Both instalments -/

/-- Reading in instalments fails as its first instalment fails. -/
theorem readInInstalments_of_error {last : Reader α × Unit} {cause : CheckError}
    (h : readFirstWithRoom (inMemory α) view count (Reader.ofSource source, ()) =
      .error cause last) :
    (inMemory α).readInInstalments view budget count splits source () = .error cause () := by
  rw [SourceModel.readInInstalments, bind_of_ok (perform_openSource source)]
  exact bind_of_error (withReader_of_error (bind_of_error h))

/-- After rejected splits the second instalment reads all that the first one has left. -/
theorem readTwice_of_ok {first : List α} {last : Reader α} (hbudget : source.size ≤ budget)
    (h : readFirstWithRoom (inMemory α) view count (reader, ()) = .ok first (last, ()))
    (hlast : Underway source first progress last) (hresumes : Resumes (0 < count) progress)
    (hlive : last.range.liveEnd = source.stop)
    (hrejected : (splits.mapM (inMemory α).askSplit (last, ())).1.all Option.isNone = true) :
    ∃ final, (inMemory α).readTwice view budget count splits (reader, ()) =
      answer source.read (final, ()) := by
  have hsplits : always (splits.mapM (inMemory α).askSplit) (last, ()) =
      .ok (splits.mapM (inMemory α).askSplit (last, ())).1 (last, ()) :=
    congrArg (EStateM.Result.ok _) (eq_of_rejected hrejected)
  rw [SourceModel.readTwice, bind_of_ok h, bind_of_ok hsplits]
  rcases hlast.readRest_cases hresumes hbudget with
    ⟨index, hfails⟩ | ⟨rest, final, hrest, hfinal, hfinalLive⟩
  · obtain ⟨cause, final, hrest, hread⟩ := hfails.read_eq
    rw [hread]
    exact ⟨final, bind_of_error hrest⟩
  · have hslice := hfinal.slice_eq
    rw [hfinalLive, hlive] at hslice
    rw [Source.read_eq_ok hslice]
    exact ⟨final, bind_of_ok hrest⟩

theorem readInInstalments_of_readTwice {result : Except Failure (List α)}
    (h : (inMemory α).readTwice view budget count splits (Reader.ofSource source, ()) =
      answer result (reader, ())) :
    (inMemory α).readInInstalments view budget count splits source () = answer result () := by
  rw [SourceModel.readInInstalments, bind_of_ok (perform_openSource source)]
  refine (map_of_answer (withReader_of_answer h)).trans ?_
  cases result <;> rfl

/-- Reading up to `count` elements of a source first and the rest later gives what reading the
source at once gives, failures included, if the reader rejects all splits in between. The first
instalment reads the front of the source, which is `count` elements long unless the source is
shorter. If `count` elements have no room in memory, the first instalment breaks down. -/
theorem instalments_are_whole (hvalid : source.Valid) (hbudget : source.size ≤ budget)
    (view : ElementView α) (count : Nat) (splits : List (Bool × Numeric.Binary64)) :
    let model := inMemory α
    let start := (Reader.ofSource source, ())
    (view.hasRoom count = true →
      (∃ last, readFirstWithRoom model view count start =
        answer (source.front count).read (last, ())) ∧
      (∀ first, (source.front count).read = .ok first →
        first.length = min count source.size) ∧
      (model.rejectsAll view count splits start = true →
        model.readInInstalments view budget count splits source () =
          model.readAll budget source ())) ∧
    (view.hasRoom count = false →
      model.readInInstalments view budget count splits source () =
        .error (.violation noRoom) ()) ∧
    model.readAll budget source () = answer source.read () := by
  intro model start
  have hwhole := readAll_inMemory hvalid hbudget
  refine ⟨fun hroom => ?_, fun hroom => ?_, hwhole⟩
  · have hread : readFirstWithRoom model view count start =
        model.readFirst count false start := by
      rw [readFirstWithRoom, if_pos hroom]
    rw [hwhole]
    rcases readFirst_front hvalid count with ⟨index, hindex, hfails⟩ |
      ⟨first, last, after, hfirst, hfront, hlast, hafter, hlive⟩
    · obtain ⟨cause, last, hfirst, hsource⟩ := hfails.read_eq
      obtain ⟨causeFront, lastFront, hfirstFront, hfront⟩ := (hfails.front hindex).read_eq
      refine ⟨⟨lastFront, ?_⟩, ?_, fun _ => ?_⟩
      · rw [hread, hfront]
        exact hfirstFront
      · intro first hok
        rw [hfront] at hok
        cases hok
      · rw [hsource]
        exact readInInstalments_of_error (hread.trans hfirst)
    · refine ⟨⟨last, ?_⟩, ?_, fun hrejected => ?_⟩
      · rw [hread, Source.read_eq_ok hfront]
        exact hfirst
      · intro other hother
        rw [Source.read_eq_ok hfront] at hother
        obtain rfl := Except.ok.inj hother
        rw [Buffer.length_of_slice_eq hfront]
        exact source.size_front count
      · rw [SourceModel.rejectsAll, hread, hfirst] at hrejected
        obtain ⟨final, htwice⟩ :=
          readTwice_of_ok hbudget (hread.trans hfirst) hlast hafter hlive hrejected
        exact readInInstalments_of_readTwice htwice
  · have hread : readFirstWithRoom model view count start = .error (.violation noRoom) start := by
      rw [readFirstWithRoom, hroom]
      rfl
    exact readInInstalments_of_error hread

/-- The third of four elements is cut short. Two are read first, a split at a quarter is rejected,
and then the rest fails as the whole source does. For `2 ^ 61` elements there is no room. -/
theorem instalments_are_whole_cutShort :
    let model := inMemory Int32
    let view : ElementView Int32 := ElementView.ofType .int32
    let source := Source.ofBuffer (Buffer.ofEncoded (Coder.bigEndian32.share 0)
      [[0, 0, 0, 1], [0, 0, 0, 2], [0, 0], [0, 0, 0, 4]])
    let splits := [(true, .ofQuotient false 1 4)]
    (∃ last, readFirstWithRoom model view 2 (Reader.ofSource source, ()) = .ok [1, 2] (last, ())) ∧
      (∃ cause, model.readInInstalments view 4 2 splits source () =
        .error (.failure (.decode 2 cause)) ()) ∧
      model.readInInstalments view 4 (Nat.pow 2 61) splits source () =
        .error (.violation noRoom) () := by
  intro model view source splits
  have hvalid : source.Valid := Source.valid_ofBuffer _
  obtain ⟨htwo, -, hread⟩ :=
    instalments_are_whole hvalid (by decide : source.size ≤ 4) view 2 splits
  obtain ⟨-, hroomless, -⟩ :=
    instalments_are_whole hvalid (by decide : source.size ≤ 4) view (Nat.pow 2 61) splits
  obtain ⟨hfirst, -, hwhole⟩ := htwo (by decide)
  refine ⟨hfirst, ?_, hroomless (by decide)⟩
  rw [hwhole (by decide +kernel), hread]
  exact ⟨_, rfl⟩

end Contract

end BundledReading

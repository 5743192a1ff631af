import BundledReading.Executor.Step
import BundledReading.Proofs.ReaderSteps

/-!
# Steps of a task

A task owns its reader but for splits, and its phase tells how far the reader has come
(`Phase.Sound`). As long as it is not told to stop, each of its own steps keeps that, and so does a
split between any two of them; so what it has read in the end is what its reader covers in the end,
and what it fails with is what decoding one of its elements gives.
-/

namespace BundledReading.Executor

variable {α : Type} {crashes : Bytes → Bool} {abort : Bool}

/-! ## Frames -/

@[simp] theorem Task.work_id (crashes : Bytes → Bool) (abort : Bool) (task : Task α) :
    (task.work crashes abort).id = task.id := by
  unfold Task.work
  split <;> (try dsimp only) <;> repeat' (first | rfl | split)

@[simp] theorem Task.work_dynamic (crashes : Bytes → Bool) (abort : Bool) (task : Task α) :
    (task.work crashes abort).dynamic = task.dynamic := by
  unfold Task.work
  split <;> (try dsimp only) <;> repeat' (first | rfl | split)

/-- No step of a task changes the range that its reader covers. -/
@[simp] theorem Task.work_currentSource (crashes : Bytes → Bool) (abort : Bool) (task : Task α) :
    (task.work crashes abort).reader.currentSource = task.reader.currentSource := by
  unfold Task.work
  split
  · split
    · rfl
    next h => exact Reader.currentSource_of_start h
  · rfl
  · dsimp only
    split
    · rfl
    · split <;> rfl
  · split
    · rfl
    next h => exact Reader.currentSource_of_advance h
  · rfl
  · rfl
  · rfl

/-- A task that can be joined has nothing more to do. -/
theorem Task.phase_of_outcome? {task : Task α} {outcome : Outcome α}
    (h : task.outcome? = some outcome) : task.phase = .released outcome := by
  unfold outcome? at h
  split at h
  next hphase => exact hphase.trans (congrArg Phase.released (Option.some.inj h))
  · cases h

/-! ## Permits -/

/-- Whether a task still has its permit. -/
def Task.holdsPermit (task : Task α) : Bool :=
  match task.phase with
  | .released _ => false
  | _ => true

theorem Task.holdsPermit_of_releases {task : Task α} (h : task.releases = true) :
    task.holdsPermit = true := by
  unfold releases at h
  split at h
  next hphase => simp [holdsPermit, hphase]
  · simp at h

/-- A permit is given back by one step, and never taken again. -/
theorem Task.holdsPermit_work (crashes : Bytes → Bool) (abort : Bool) (task : Task α) :
    (task.work crashes abort).holdsPermit = (task.holdsPermit && !task.releases) := by
  obtain ⟨id, dynamic, reader, readBack, phase⟩ := task
  cases phase with
  | starting =>
      dsimp only [work]
      rcases reader.start with cause | ⟨_ | _, next⟩ <;> rfl
  | checking => cases abort <;> rfl
  | reading =>
      dsimp only [work]
      split
      · rfl
      · rcases reader.current with cause | value <;> rfl
  | advancing =>
      dsimp only [work]
      rcases reader.advance with cause | ⟨_ | _, next⟩ <;> rfl
  | closing => rfl
  | ended outcome => rfl
  | released outcome => rfl

/-! ## What phases tell -/

/-- The coder breaks down on no element of the source. -/
def Calm (crashes : Bytes → Bool) (source : Source α) : Prop :=
  ∀ index bytes, source.start ≤ index → index < source.stop →
    source.buffer.get? index = some bytes → crashes bytes = false

/-- What an outcome tells about the reader that has come to it. -/
def Outcome.Sound (source : Source α) (reader : Reader α) : Outcome α → Prop
  | .read final values => final = reader.currentSource ∧ reader.Reached values .exhausted
  | .failed cause => .error cause ∈ source.elements
  | .crashed => False

/-- What a phase tells about the reader, and about the values that were read. -/
def Phase.Sound (source : Source α) (reader : Reader α) (values : List α) : Phase α → Prop
  | .starting => reader.Reached values .unstarted
  | .checking => reader.Reached values .standing
  | .reading => reader.Reached values .standing
  | .advancing => reader.Reached values .served
  | .closing => reader.Reached values .exhausted
  | .ended outcome => outcome.Sound source reader
  | .released outcome => outcome.Sound source reader

/-- A task whose phase tells the truth. -/
structure Task.Sound (source : Source α) (task : Task α) : Prop where
  reader_sound : task.reader.Sound
  phase_sound : task.phase.Sound source task.reader task.readBack.reverse

variable {source : Source α} {reader next : Reader α} {values : List α} {task : Task α}

/-- A task goes on after `start` and `advance` as their answers tell. -/
theorem Phase.sound_after {more : Bool} (h : reader.Reached values (.after more)) :
    Phase.Sound source reader values (if more then .checking else .closing) := by
  cases more with
  | false => exact h
  | true => exact h

/-- A split leaves what an outcome tells: nothing can be split off once all was read, and a
failure stays what it is. -/
theorem Outcome.Sound.split {outcome : Outcome α} (h : outcome.Sound source reader)
    (fraction : Numeric.Binary64) : outcome.Sound source (reader.split fraction).2 := by
  cases outcome with
  | read final values =>
      obtain ⟨hfinal, hreached⟩ := h
      refine ⟨?_, hreached.split fraction⟩
      rw [Reader.split_of_done hreached.1]
      exact hfinal
  | failed cause => exact h
  | crashed => exact h

theorem Phase.Sound.split {phase : Phase α} (h : phase.Sound source reader values)
    (fraction : Numeric.Binary64) : phase.Sound source (reader.split fraction).2 values := by
  cases phase with
  | starting => exact (show reader.Reached values .unstarted from h).split fraction
  | checking => exact (show reader.Reached values .standing from h).split fraction
  | reading => exact (show reader.Reached values .standing from h).split fraction
  | advancing => exact (show reader.Reached values .served from h).split fraction
  | closing => exact (show reader.Reached values .exhausted from h).split fraction
  | ended outcome => exact Outcome.Sound.split h fraction
  | released outcome => exact Outcome.Sound.split h fraction

namespace Task.Sound

/-- A new task is sound. -/
theorem launched {piece : Source α} (hpiece : piece.Valid) (id : Nat) (dynamic : Bool) :
    Task.Sound source ⟨id, dynamic, Reader.ofSource piece, [], .starting⟩ where
  reader_sound := Reader.sound_ofSource hpiece
  phase_sound := Reader.reached_ofSource piece

/-- Whoever splits the reader of a task, and whenever, the task stays sound. -/
theorem split (h : task.Sound source) (fraction : Numeric.Binary64) :
    Task.Sound source { task with reader := (task.reader.split fraction).2 } where
  reader_sound := (Reader.change_of_split task.reader fraction).sound h.reader_sound
  phase_sound := h.phase_sound.split fraction

/-- A task that is not told to stop works soundly on a piece of the source. -/
theorem work (h : task.Sound source) (hcalm : Calm crashes source)
    (hbuffer : task.reader.source.buffer = source.buffer)
    (hstart : source.start ≤ task.reader.source.start)
    (hstop : task.reader.range.liveEnd ≤ source.stop) :
    (task.work crashes false).Sound source := by
  obtain ⟨id, dynamic, reader, readBack, phase⟩ := task
  obtain ⟨hreader, hphase⟩ := h
  dsimp only at hreader hphase hbuffer hstart hstop
  cases phase with
  | starting =>
      obtain ⟨more, next, hnext, hreached, -⟩ := Reader.Reached.start hphase hreader
      simp only [Task.work, hnext]
      exact ⟨(Reader.change_of_start hnext).sound hreader, Phase.sound_after hreached⟩
  | checking => exact ⟨hreader, hphase⟩
  | reading =>
      obtain ⟨position, hfrom, hto, hcurrent, hread, hserved⟩ :=
        Reader.Reached.current hphase hreader
      have hsize := Nat.lt_of_lt_of_le hto hreader.liveEnd_le_size
      have hget : reader.source.buffer.get? position =
          some reader.source.buffer.elements[position] :=
        Array.getElem?_eq_getElem hsize
      have hquiet : crashes reader.source.buffer.elements[position] = false :=
        hcalm position _ (Nat.le_trans hstart hfrom) (Nat.lt_of_lt_of_le hto hstop)
          (hbuffer ▸ hget)
      simp only [Task.work, hcurrent, Option.bind_some, hget, Option.any_some, hquiet,
        Bool.false_eq_true, if_false, hread]
      cases hdecode : reader.source.buffer.decode position with
      | error cause =>
          refine ⟨hreader, Buffer.mem_slice.mpr ⟨position, ?_, ?_, ?_⟩⟩
          · exact Nat.le_trans hstart hfrom
          · exact Nat.lt_of_lt_of_le hto hstop
          · exact hbuffer ▸ hdecode
      | ok value =>
          refine ⟨hreader, ?_⟩
          dsimp only [Phase.Sound]
          rw [List.reverse_cons]
          exact hserved value hdecode
  | advancing =>
      obtain ⟨more, next, hnext, hreached, -⟩ := Reader.Reached.advance hphase hreader
      simp only [Task.work, hnext]
      exact ⟨(Reader.change_of_advance hnext).sound hreader, Phase.sound_after hreached⟩
  | closing => exact ⟨hreader, rfl, hphase⟩
  | ended outcome => exact ⟨hreader, hphase⟩
  | released outcome => exact ⟨hreader, hphase⟩

end Task.Sound

end BundledReading.Executor

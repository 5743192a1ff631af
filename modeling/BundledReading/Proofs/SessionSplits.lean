import BundledReading.Proofs.ReaderSteps
import BundledReading.Session

/-!
# Splits in a session

A reader can be split by itself, through any handle on it, and through any clone of a handle.
Whoever asks, a split either changes nothing, or moves back the live end of one reader and adds
the residual as the last source of the session.
-/

namespace BundledReading

variable {α : Type}

/-- Who asks for a split: a reader itself, or a handle on some reader. -/
inductive Splitter where
  | reader (number : Nat)
  | handle (number : Nat)
  deriving DecidableEq

namespace Session

/-- The reader that somebody splits, with its number. -/
def target? (session : Session α) : Splitter → Option (Nat × Reader α)
  | .reader number => session.readers[number]?.map (number, ·)
  | .handle number => session.handleReader? number

/-- Lets somebody ask for a split. Nothing happens if there is no such reader or handle. -/
def splitBy (session : Session α) (splitter : Splitter) (fraction : Numeric.Binary64) :
    Session α :=
  match session.target? splitter with
  | none => session
  | some (number, reader) => (session.split number reader fraction).2

/-- Makes a handle on a reader, if there is such a reader. -/
def handleOn (session : Session α) (reader : Nat) : Session α :=
  if reader < session.readers.size then (session.addHandle reader).2 else session

/-- Clones a handle, if there is such a handle. -/
def cloneHandle (session : Session α) (handle : Nat) : Session α :=
  match session.handles[handle]? with
  | none => session
  | some reader => (session.addHandle reader).2

/-- The session after an accepted split of a reader at a point. -/
def afterSplit (session : Session α) (number : Nat) (reader : Reader α) (point : Nat) :
    Session α where
  sources := session.sources.push (reader.source.withRange point reader.range.liveEnd)
  readers := session.readers.setIfInBounds number
    { reader with range := { reader.range with liveEnd := point } }
  handles := session.handles

@[simp] theorem handleOn_sources (session : Session α) (reader : Nat) :
    (session.handleOn reader).sources = session.sources := by
  unfold handleOn
  split <;> rfl

@[simp] theorem handleOn_readers (session : Session α) (reader : Nat) :
    (session.handleOn reader).readers = session.readers := by
  unfold handleOn
  split <;> rfl

@[simp] theorem cloneHandle_sources (session : Session α) (handle : Nat) :
    (session.cloneHandle handle).sources = session.sources := by
  unfold cloneHandle
  split <;> rfl

@[simp] theorem cloneHandle_readers (session : Session α) (handle : Nat) :
    (session.cloneHandle handle).readers = session.readers := by
  unfold cloneHandle
  split <;> rfl

/-- Handles lead to readers of the session. -/
theorem readers_of_target? {session : Session α} {splitter : Splitter} {number : Nat}
    {reader : Reader α} (h : session.target? splitter = some (number, reader)) :
    session.readers[number]? = some reader := by
  cases splitter with
  | reader asked =>
      obtain ⟨_, hreader, heq⟩ := Option.map_eq_some_iff.mp h
      obtain ⟨rfl, rfl⟩ := Prod.mk.inj heq
      exact hreader
  | handle asked =>
      simp only [target?, handleReader?, Option.bind_eq_bind, Option.bind_eq_some_iff] at h
      obtain ⟨referred, _, found, hreader, heq⟩ := h
      obtain ⟨rfl, rfl⟩ := Prod.mk.inj (Option.some.inj heq)
      exact hreader

/-- A split changes nothing, or gives the part of one reader behind a point away. -/
theorem splitBy_cases (session : Session α) (splitter : Splitter) (fraction : Numeric.Binary64) :
    session.splitBy splitter fraction = session ∨
      ∃ number reader position point, session.readers[number]? = some reader ∧
        reader.range.current? = some position ∧ position + 1 < point ∧
        point < reader.range.liveEnd ∧
        reader.split fraction =
          (some (reader.source.withRange point reader.range.liveEnd),
            { reader with range := { reader.range with liveEnd := point } }) ∧
        session.splitBy splitter fraction = session.afterSplit number reader point := by
  unfold splitBy
  cases htarget : session.target? splitter with
  | none => exact Or.inl rfl
  | some found =>
      obtain ⟨number, reader⟩ := found
      have hreader := readers_of_target? htarget
      rcases reader.split_cases fraction with
        hnone | ⟨position, point, hcurrent, hunread, hlive, hsome⟩
      · left
        obtain ⟨hlt, hget⟩ := Array.getElem?_eq_some_iff.mp hreader
        have hset : session.readers.setIfInBounds number reader = session.readers := by
          rw [← hget, Array.setIfInBounds, dif_pos hlt, Array.set_getElem_self]
        simp [split, hnone, setReader, addResidual, hset]
      · right
        refine ⟨number, reader, position, point, hreader, hcurrent, hunread, hlive, hsome, ?_⟩
        simp [split, hsome, setReader, addResidual, addSource, afterSplit]

end Session

end BundledReading

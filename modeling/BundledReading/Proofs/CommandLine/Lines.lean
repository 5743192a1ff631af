import BundledReading.CommandLine.Program
import Mathlib.Tactic

/-!
# Lines

The lines of a text are told by how it is put together from them, and the program cuts a text into
just these.
-/

namespace BundledReading.CommandLine

/-- A line without one carriage return at its end. -/
def withoutReturn (line : List Char) : List Char :=
  if line.getLast? = some '\r' then line.dropLast else line

/-- The lines of a text: each line end ends one, and what follows the last one is a line unless it
is empty. -/
inductive LinesOf : List Char → List (List Char) → Prop
  | none : LinesOf [] []
  | unterminated {line : List Char} (hfilled : line ≠ []) (hline : '\n' ∉ line) :
      LinesOf line [line]
  | terminated {line rest : List Char} {lines : List (List Char)} (hline : '\n' ∉ line)
      (hrest : LinesOf rest lines) : LinesOf (line ++ '\n' :: rest) (withoutReturn line :: lines)

/-- A character that ends no line, alone or together with the next one. -/
theorem splitLines_cons {c : Char} {rest : List Char} (hc : c ≠ '\n')
    (hreturn : ∀ more, c = '\r' → rest ≠ '\n' :: more) :
    splitLines (c :: rest) =
      match splitLines rest with
      | [] => [[c]]
      | line :: lines => (c :: line) :: lines :=
  splitLines.eq_4 c rest hc hreturn

theorem splitLines_unterminated {line : List Char} (hfilled : line ≠ []) (hline : '\n' ∉ line) :
    splitLines line = [line] := by
  induction line with
  | nil => exact absurd rfl hfilled
  | cons c rest ih =>
      obtain ⟨hc, hrest⟩ := List.ne_and_not_mem_of_not_mem_cons hline
      have hreturn : ∀ more, c = '\r' → rest ≠ '\n' :: more := by
        rintro more - rfl
        exact hrest List.mem_cons_self
      rw [splitLines_cons hc.symm hreturn]
      cases rest with
      | nil => rfl
      | cons d rest => rw [ih (List.cons_ne_nil d rest) hrest]

theorem withoutReturn_cons_cons (c d : Char) (line : List Char) :
    withoutReturn (c :: d :: line) = c :: withoutReturn (d :: line) := by
  simp only [withoutReturn, List.getLast?_cons_cons]
  split <;> rfl

theorem splitLines_terminated {line : List Char} (hline : '\n' ∉ line) (rest : List Char) :
    splitLines (line ++ '\n' :: rest) = withoutReturn line :: splitLines rest := by
  induction line with
  | nil => rfl
  | cons c line ih =>
      obtain ⟨hc, hmore⟩ := List.ne_and_not_mem_of_not_mem_cons hline
      cases line with
      | nil =>
          by_cases hreturn : c = '\r'
          · subst hreturn
            rfl
          · have hsplit : splitLines (c :: '\n' :: rest) = [c] :: splitLines rest :=
              splitLines_cons hc.symm fun _ h => absurd h hreturn
            have hkeep : withoutReturn [c] = [c] := by simp [withoutReturn, hreturn]
            rw [List.singleton_append, hsplit, hkeep]
      | cons d line =>
          have hnext : ∀ more, c = '\r' → d :: line ++ '\n' :: rest ≠ '\n' :: more := by
            intro more _ h
            exact hmore ((List.cons.inj h).1 ▸ List.mem_cons_self)
          rw [List.cons_append, splitLines_cons hc.symm hnext, ih hmore,
            withoutReturn_cons_cons]

/-- The program cuts a text into its lines. -/
theorem linesOf_splitLines (text : List Char) : LinesOf text (splitLines text) := by
  induction hlength : text.length using Nat.strong_induction_on generalizing text with
  | _ length ih =>
      by_cases hmem : '\n' ∈ text
      · obtain ⟨line, rest, rfl, hline⟩ := List.eq_append_cons_of_mem hmem
        rw [splitLines_terminated hline]
        apply LinesOf.terminated hline
        apply ih rest.length _ rest rfl
        rw [← hlength, List.length_append, List.length_cons]
        omega
      · cases text with
        | nil => exact LinesOf.none
        | cons c text =>
            have hfilled : c :: text ≠ [] := List.cons_ne_nil c text
            rw [splitLines_unterminated hfilled hmem]
            exact LinesOf.unterminated hfilled hmem

/-- A text has only one list of lines. -/
theorem LinesOf.eq_splitLines {text : List Char} {lines : List (List Char)}
    (h : LinesOf text lines) : lines = splitLines text := by
  induction h with
  | none => rfl
  | unterminated hfilled hline => rw [splitLines_unterminated hfilled hline]
  | terminated hline hrest ih => rw [splitLines_terminated hline, ih]

end BundledReading.CommandLine

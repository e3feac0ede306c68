import Gloss.Text.Position
import Mathlib.Data.List.Induction

/-!
# The table of lines

A `LineTable` finds the line of an offset by its starts, and `Position.advance`
by walking over the characters. At a boundary between characters they agree
(`LineTable.position?_width`): the starts up to the boundary are those of the
text before it, the last of them is that of the line that is not ended, and the
characters of that line make the column.
-/

namespace Gloss.LineTable

/-- The starts that a text and the text after it give. -/
theorem startsAfter_append (offset : Nat) (cs ds : List Char) :
    startsAfter offset (cs ++ ds) =
      startsAfter offset cs ++ startsAfter (offset + Text.width cs) ds := by
  induction cs generalizing offset with
  | nil => simp [startsAfter]
  | cons c cs ih =>
    rw [List.cons_append, startsAfter, startsAfter, ih, Text.width_cons, ← Nat.add_assoc]
    split <;> rfl

theorem mem_startsAfter {offset start : Nat} {cs : List Char} (h : start ∈ startsAfter offset cs) :
    offset < start ∧ start ≤ offset + Text.width cs := by
  induction cs generalizing offset with
  | nil => cases h
  | cons c cs ih =>
    have pos := c.utf8Size_pos
    rw [startsAfter] at h
    rw [Text.width_cons]
    split at h
    · rcases List.mem_cons.mp h with rfl | h
      · omega
      · have := ih h
        omega
    · have := ih h
      omega

/-- The lines that start up to the end of a text. -/
def startsIn (before : List Char) : List Nat := 0 :: startsAfter 0 before

/-- No line of the text after a boundary starts up to it. -/
theorem takeWhile_starts (before after : List Char) :
    (startsIn (before ++ after)).takeWhile (· ≤ Text.width before) = startsIn before := by
  have early : ∀ s ∈ startsIn before, (s ≤ Text.width before : Bool) = true := by
    intro s h
    rcases List.mem_cons.mp h with rfl | h
    · simp
    · have := mem_startsAfter h
      simp only [decide_eq_true_eq]
      omega
  have late : (startsAfter (Text.width before) after).takeWhile (· ≤ Text.width before) = [] := by
    rcases starts : startsAfter (Text.width before) after with _ | ⟨s, more⟩
    · rfl
    · have first := mem_startsAfter (starts ▸ List.mem_cons_self : s ∈ startsAfter _ after)
      exact List.takeWhile_cons_of_neg (by simpa using first.1)
  rw [startsIn, startsAfter_append, Nat.zero_add, ← List.cons_append, ← startsIn,
    List.takeWhile_append_of_pos early, late, List.append_nil]

/-- The text before a boundary is whole lines and the line that is not ended. The last start is that
of this line. -/
theorem exists_line (before : List Char) :
    ∃ lines line, before = lines ++ line ∧
      (startsIn before).getLast? = some (Text.width lines) ∧
      Position.origin.advance before =
        ⟨Text.width before, (startsIn before).length, line.length + 1⟩ := by
  induction before using List.reverseRecOn with
  | nil => exact ⟨[], [], rfl, rfl, rfl⟩
  | append_singleton before c ih =>
    obtain ⟨lines, line, text, last, place⟩ := ih
    have starts : startsIn (before ++ [c]) =
        startsIn before ++ startsAfter (Text.width before) [c] := by
      rw [startsIn, startsAfter_append, Nat.zero_add]
      rfl
    rw [Position.advance_append, place, starts]
    by_cases feed : c = '\n'
    · refine ⟨before ++ [c], [], by simp, ?_, ?_⟩
      · simp [startsAfter, feed]
      · simp [startsAfter, feed, Position.step]
    · refine ⟨lines, line ++ [c], by simp [text], ?_, ?_⟩
      · simpa [startsAfter, feed] using last
      · simp [startsAfter, feed, Position.step]

/-- At a boundary between characters the table gives the place that the characters before it lead
to. -/
theorem position?_width (before after : List Char) :
    (ofSource (String.ofList (before ++ after))).position? (Text.width before) =
      some (Position.origin.advance before) := by
  obtain ⟨lines, line, text, last, place⟩ := exists_line before
  have inside : min (Text.width before) (Text.width (before ++ after)) = Text.width before := by
    rw [Text.width_append]
    omega
  have slice : Text.slice? (before ++ after) (Text.width lines) (Text.width before) =
      some line := by
    rw [text, Text.width_append]
    exact Text.slice?_append lines line after
  have table : ofSource (String.ofList (before ++ after)) =
      ⟨before ++ after, startsIn (before ++ after)⟩ := by
    rw [ofSource, String.toList_ofList, startsIn]
  simp only [table, position?, inside, takeWhile_starts, last, Option.getD_some, slice, place,
    Option.map_some]

/-- The table gives a place to every boundary between characters, and it is the one that a walk over
the text finds. -/
theorem position?_eq_locate (before after : List Char) :
    (ofSource (String.ofList (before ++ after))).position? (Text.width before) =
      some (Position.locate (String.ofList (before ++ after)) (Text.width before)) := by
  rw [position?_width, Position.locate_width]

end Gloss.LineTable

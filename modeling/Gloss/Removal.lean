import Gloss.Note
import Gloss.Text.Blank

/-!
# Removing annotations

`Removal.remove?` deletes spans from a text. Where a span stood directly between
two characters that are no blanks, one space takes its place, so the tokens
around it stay apart. The spans may come in any order; one that starts inside a
span that is already deleted is left out.
-/

namespace Gloss.Removal

/-- The space that keeps two characters apart, when neither of them is a blank. -/
def separator (before after : Option Char) : List Char :=
  match before, after with
  | some b, some a => if Text.isBlank b || Text.isBlank a then [] else [' ']
  | _, _ => []

/-- Deletes spans, in ascending order, from the rest of a text that starts at an offset. `last` is
the last character kept so far. There is no result when a span does not lie in the text with its
ends between characters. -/
def removeFrom (offset : Nat) (last : Option Char) (rest : List Char) :
    List Span → Option (List Char)
  | [] => some rest
  | span :: spans =>
    if span.start < offset then removeFrom offset last rest spans
    else do
      let kept ← Text.splitBytes? (span.start - offset) rest
      let deleted ← Text.splitBytes? (span.stop - span.start) kept.2
      let before := kept.1.getLast?.or last
      let space := separator before deleted.2.head?
      let more ← removeFrom span.stop (space.getLast?.or before) deleted.2 spans
      some (kept.1 ++ space ++ more)

/-- Deletes spans from a text. -/
def remove? (source : String) (spans : List Span) : Option String :=
  (removeFrom 0 none source.toList (spans.mergeSort Span.le)).map String.ofList

/-- Deletes annotations from a text. -/
def ofNotes? (source : String) (notes : List Note) : Option String :=
  remove? source (notes.map (·.span))

end Gloss.Removal

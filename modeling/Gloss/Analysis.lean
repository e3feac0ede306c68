import Gloss.Attachment
import Gloss.Token.Reading

/-!
# Analyses

The analysis of a file is its annotations, the table that binds them, and the
malformed ones. A `Problem` is what a report lists: a malformed annotation, or
one that a strict dialect does not accept.
-/

namespace Gloss

/-- Everything found in a file. -/
structure Analysis : Type where
  notes : List Note
  table : Table
  malformed : List Malformed
deriving DecidableEq, Repr

/-- A finding with a place. -/
inductive Problem : Type
  | malformed (malformed : Malformed)
  | ambiguous (ambiguous : Ambiguous)
deriving DecidableEq, Repr

namespace Problem

/-- Where the problem is. -/
def position : Problem → Position
  | malformed m => m.position
  | ambiguous a => a.position

/-- The wording of a problem. -/
def message : Problem → String
  | malformed m => s!"Malformed annotation: {m.message}"
  | ambiguous a => a.message

end Problem

namespace Analysis

/-- The analysis of a file as it was read, or the annotation that a strict dialect rejects. -/
def ofReading (d : Dialect) (source : String) (r : Reading) : Except Ambiguous Analysis :=
  (Attachment.attach d source r.tokens r.notes).map fun table =>
    ⟨r.notes, table, r.malformed⟩

/-- The analysis of a file, as if a torn hashbang line were host text. -/
def ofSource (d : Dialect) (source : String) : Except Ambiguous Analysis :=
  ofReading d source (.ofSource d source)

/-- The analysis of a file. There is none when its hashbang line is torn. -/
def ofSource? (d : Dialect) (source : String) : Option (Except Ambiguous Analysis) :=
  (Reading.ofSource? d source).map (ofReading d source)

/-- Every file can be analysed when the hashbang marker is no carriage return. -/
theorem ofSource?_eq_some {d : Dialect} (h : d.hashbang ≠ some '\x0d') (source : String) :
    ofSource? d source = some (ofSource d source) := by
  rw [ofSource?, Reading.ofSource?_eq_some h]
  rfl

/-- A file without malformed annotations. -/
def isClean (a : Analysis) : Bool := a.malformed.isEmpty

/-- The malformed annotations as problems. -/
def problems (a : Analysis) : List Problem := a.malformed.map .malformed

end Analysis

end Gloss

/-!
# Sets of code points as ranges

A character property of the Unicode standard is given by its table of closed
ranges of code points. `inRanges` decides membership.
-/

namespace Gloss.Text

/-- A closed range of code points, first and last. -/
abbrev CodeRange : Type := Nat × Nat

/-- A code point belongs to a table when one of its ranges holds it. -/
def inRanges (table : List CodeRange) (code : Nat) : Bool :=
  table.any fun range => range.1 ≤ code && code ≤ range.2

end Gloss.Text

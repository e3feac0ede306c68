/-!
# Extents

A reader of a bracketed construct (a literal, a comment) answers with an
`Extent`: the construct is closed after a number of characters, or it is still
open at the end of the text that may hold it.
-/

namespace Gloss.Host

/-- How far a construct goes. -/
inductive Extent : Type
  | closed (length : Nat)
  | unclosed
deriving DecidableEq, Repr

namespace Extent

/-- The extent of a construct whose end is known or missing. -/
def ofEnd : Option Nat → Extent
  | some length => closed length
  | none => unclosed

/-- The number of characters that the construct takes up, all of them when it is unclosed. -/
def lengthIn (e : Extent) (cs : List Char) : Nat :=
  match e with
  | closed length => length
  | unclosed => cs.length

end Extent

end Gloss.Host

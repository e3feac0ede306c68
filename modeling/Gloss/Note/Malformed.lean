import Gloss.Text.Position

/-!
# Malformed annotations

An annotation that is opened and cannot be read is malformed: `Flaw` is the
reason, and the place is that of the flaw. A block that never closes is
reported where the annotation starts.
-/

namespace Gloss

/-- Why an opened annotation cannot be read. -/
inductive Flaw : Type
  | unclosedBlock (opening : Char)
  | unclosedString
  | unclosedComment
  | mismatch (expected found : Char)
  | tooDeep (limit : Nat)
deriving DecidableEq, Repr

/-- A flaw and its place. -/
structure Malformed : Type where
  flaw : Flaw
  position : Position
deriving DecidableEq, Repr

/-- The wording of a malformed annotation. -/
def Malformed.message (m : Malformed) : String :=
  let place := m.position.message
  match m.flaw with
  | .unclosedBlock opening => s!"Unterminated annotation block '{opening}' opened at {place}"
  | .unclosedString => s!"Unterminated string literal inside annotation at {place}"
  | .unclosedComment => s!"Unterminated comment inside annotation at {place}"
  | .mismatch expected found => s!"Mismatched closing '{found}' at {place}, expected '{expected}'"
  | .tooDeep limit => s!"Annotation nesting deeper than {limit} at {place}"

end Gloss

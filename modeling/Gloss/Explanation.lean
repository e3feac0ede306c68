/-!
# Explanations

Why a command failed, in words: what it could not do, and the reasons for it
from the nearest to the deepest.
-/

namespace Gloss

/-- A failure with its causes. -/
structure Explanation : Type where
  message : String
  causes : List String
deriving DecidableEq, Repr

/-- A failure without a cause. -/
def Explanation.plain (message : String) : Explanation := ⟨message, []⟩

end Gloss

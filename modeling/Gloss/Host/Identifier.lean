import Gloss.Text.Numeral

/-!
# Words of the host language

An identifier starts with a letter, an underscore or a dollar sign and goes on
with those and with numerals. The three quote characters open literals.
-/

namespace Gloss.Host

/-- The characters that an identifier may start with. -/
def isIdentifierStart (c : Char) : Bool :=
  Text.isLetter c || c == '_' || c == '$'

/-- The characters that an identifier may go on with. -/
def isIdentifierPart (c : Char) : Bool :=
  Text.isAlphanumeric c || c == '_' || c == '$'

/-- The characters that open and close literals. -/
def isQuote (c : Char) : Bool :=
  c == '\'' || c == '"' || c == '\x60'

theorem isIdentifierPart_of_start {c : Char} (h : isIdentifierStart c = true) :
    isIdentifierPart c = true := by
  simp only [isIdentifierStart, isIdentifierPart, Text.isAlphanumeric, Bool.or_eq_true] at h ⊢
  rcases h with (h | h) | h <;> simp [h]

/-- The length of the longest run of identifier characters. -/
def identifierRun (cs : List Char) : Nat := (cs.takeWhile isIdentifierPart).length

end Gloss.Host

import Gloss.Bracket
import Gloss.Text.Cursor

/-!
# Annotations

An annotation, or `Note`, is a piece of a host text that starts with the
introducer. Its `Form` says how it was written and its payload is what it says.
-/

namespace Gloss

/-- How an annotation is written. -/
inductive Form : Type
  | hashbang
  | block (bracket : Bracket)
  | quoted (quote : Char)
  | word
  | special
deriving DecidableEq, Repr

namespace Form

/-- The name of the form in data formats. -/
def name : Form → String
  | hashbang => "hashbang"
  | block _ => "block"
  | quoted _ => "quoted"
  | word => "identifier"
  | special => "special"

/-- The form with its bracket pair or quote. -/
def label : Form → String
  | block b => s!"block {b.label}"
  | quoted q => s!"quoted {q}"
  | form => form.name

end Form

/-- The flags after a word or special character: `?` for optional, `!` for not null. -/
structure Marker : Type where
  optional : Bool
  nonNull : Bool
deriving DecidableEq, Repr

namespace Marker

/-- No flag. -/
def none : Marker := ⟨false, false⟩

/-- The flags in the order `?`, `!`. -/
def label (m : Marker) : String :=
  (if m.optional then "?" else "") ++ (if m.nonNull then "!" else "")

/-- Reads the longest run of flags in which none is repeated. -/
def read (m : Marker) (length : Nat) : List Char → Marker × Nat
  | [] => (m, length)
  | c :: rest =>
    if c = '?' ∧ m.optional = false then read { m with optional := true } (length + 1) rest
    else if c = '!' ∧ m.nonNull = false then read { m with nonNull := true } (length + 1) rest
    else (m, length)

/-- The flags that stand here, if any, and their number. -/
def run (cs : List Char) : Option Marker × Nat :=
  match none.read 0 cs with
  | (_, 0) => (Option.none, 0)
  | (m, length + 1) => (some m, length + 1)

end Marker

/-- An annotation: all that it takes up, its form, and what it says. -/
structure Note : Type where
  span : Span
  form : Form
  payload : String
  payloadSpan : Span
  marker : Option Marker
deriving DecidableEq, Repr

namespace Note

/-- The annotation that takes up three runs of characters from the cursor: its opening, its
payload and its closing. -/
def cut (c : Cursor) (form : Form) (opening payload closing : Nat) (marker : Option Marker) :
    Note where
  span := c.span (opening + payload + closing)
  form := form
  payload := (c.advance opening).lexeme payload
  payloadSpan := (c.advance opening).span payload
  marker := marker

/-- Written in brackets. -/
def isBlock (a : Note) : Bool :=
  match a.form with
  | .block _ => true
  | _ => false

end Note

end Gloss

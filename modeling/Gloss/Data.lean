/-!
# Data trees

The values that reports are written from and that settings are read from:
lists, records with named fields in order, and scalars.
-/

namespace Gloss

/-- A data tree. Numbers other than the natural ones are `mantissa / 10 ^ places`. -/
inductive Data : Type
  | null
  | bool (value : Bool)
  | number (value : Nat)
  | decimal (mantissa : Int) (places : Nat)
  | text (value : String)
  | list (items : List Data)
  | record (fields : List (String × Data))
deriving Repr, Inhabited

namespace Data

/-- A text or nothing. -/
def ofOption {α : Type} (f : α → Data) : Option α → Data
  | some a => f a
  | none => null

/-- A character as a text. -/
def char (c : Char) : Data := text (String.singleton c)

/-- The truth value, if the data is one. -/
def bool? : Data → Option Bool
  | bool value => some value
  | _ => none

/-- The number, if the data is a natural number that fits into 64 bits. -/
def size? : Data → Option Nat
  | number value => if value < Nat.pow 2 64 then some value else none
  | _ => none

/-- The only character of a text. -/
def char? : Data → Option Char
  | text value =>
    match value.toList with
    | [c] => some c
    | _ => none
  | _ => none

/-- The items of a list. -/
def list? : Data → Option (List Data)
  | list items => some items
  | _ => none

/-- Nothing, or what a reader gets. -/
def nullable? {α : Type} (read : Data → Option α) : Data → Option (Option α)
  | null => some none
  | data => (read data).map some

@[simp] theorem char?_char (c : Char) : (char c).char? = some c := by
  simp [char, char?]

end Data

end Gloss

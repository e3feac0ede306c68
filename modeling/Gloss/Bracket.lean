/-!
# Brackets

The four kinds of paired brackets that a block annotation may open with and
that are counted inside it. `ofOpening?_eq_some` and `ofClosing?_eq_some` say
that each kind is recognized by exactly its own characters.
-/

namespace Gloss

/-- A kind of paired brackets. -/
inductive Bracket : Type
  | paren
  | angle
  | square
  | curly
deriving DecidableEq, Repr

namespace Bracket

/-- The four kinds. -/
def all : List Bracket := [paren, angle, square, curly]

/-- The character that opens. -/
def opening : Bracket → Char
  | paren => '('
  | angle => '<'
  | square => '['
  | curly => '{'

/-- The character that closes. -/
def closing : Bracket → Char
  | paren => ')'
  | angle => '>'
  | square => ']'
  | curly => '}'

/-- The name of the kind in data formats. -/
def name : Bracket → String
  | paren => "paren"
  | angle => "angle"
  | square => "square"
  | curly => "curly"

/-- The pair of characters. -/
def label (b : Bracket) : String := String.ofList [b.opening, b.closing]

/-- The kind that a character opens. -/
def ofOpening? (c : Char) : Option Bracket := all.find? (·.opening == c)

/-- The kind that a character closes. -/
def ofClosing? (c : Char) : Option Bracket := all.find? (·.closing == c)

/-- The kind of a name. -/
def ofName? (name : String) : Option Bracket := all.find? (·.name == name)

/-- Any of the eight bracket characters. -/
def isBracket (c : Char) : Bool := (ofOpening? c).isSome || (ofClosing? c).isSome

theorem mem_all (b : Bracket) : b ∈ all := by
  cases b <;> decide

theorem ofOpening?_opening (b : Bracket) : ofOpening? b.opening = some b := by
  cases b <;> decide

theorem ofClosing?_closing (b : Bracket) : ofClosing? b.closing = some b := by
  cases b <;> decide

theorem ofOpening?_eq_some {c : Char} {b : Bracket} : ofOpening? c = some b ↔ c = b.opening := by
  constructor
  · intro h
    have found := List.find?_some (p := fun b : Bracket => b.opening == c) h
    exact (beq_iff_eq.1 found).symm
  · rintro rfl
    exact ofOpening?_opening b

theorem ofClosing?_eq_some {c : Char} {b : Bracket} : ofClosing? c = some b ↔ c = b.closing := by
  constructor
  · intro h
    have found := List.find?_some (p := fun b : Bracket => b.closing == c) h
    exact (beq_iff_eq.1 found).symm
  · rintro rfl
    exact ofClosing?_closing b

theorem ofName?_name (b : Bracket) : ofName? b.name = some b := by
  cases b <;> decide

end Bracket

end Gloss

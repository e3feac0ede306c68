import Gloss.Text.Span

/-!
# Tokens of the host language

A `Token` is a piece of host text with its place and the number of line feeds
in the gap before it. An annotation is a token too: its kind holds its index
among the annotations of the file.
-/

namespace Gloss

/-- What a token is. -/
inductive Token.Kind : Type
  | ident
  | keyword
  | privateName
  | number
  | string
  | regex
  | punct
  | arrow
  | note (index : Nat)
deriving DecidableEq, Repr

/-- A piece of host text. -/
structure Token : Type where
  kind : Token.Kind
  text : String
  span : Span
  newlinesBefore : Nat
deriving DecidableEq, Repr

namespace Token

/-- The reserved words. -/
def keywords : List String :=
  ["let", "const", "var", "function", "class", "import", "export", "return", "extends", "new",
    "this", "typeof", "default", "if", "else", "for", "while", "do", "switch", "case", "break",
    "continue", "throw", "try", "catch", "finally", "delete", "in", "instanceof", "void", "yield",
    "await", "super", "null", "true", "false"]

/-- Words that may stand between the start of a class member and its name. -/
def memberModifiers : List String :=
  ["static", "get", "set", "async", "accessor", "readonly", "declare", "public", "private",
    "protected", "override", "abstract"]

/-- Annotations are no host tokens. -/
def isNote (t : Token) : Bool :=
  match t.kind with
  | .note _ => true
  | _ => false

/-- The token is the given punctuator. -/
def isPunct (t : Token) (text : String) : Bool := t.kind == .punct && t.text == text

/-- The token is a member modifier. -/
def isMemberModifier (t : Token) : Bool := t.kind == .ident && memberModifiers.contains t.text

/-- Tokens that can name a member or a specifier. -/
def isName (t : Token) : Bool :=
  match t.kind with
  | .ident | .keyword | .privateName | .string | .number => true
  | _ => false

theorem isNote_of_isPunct {t : Token} {text : String} (h : t.isPunct text = true) :
    t.isNote = false := by
  simp only [isPunct, Bool.and_eq_true, beq_iff_eq] at h
  simp [isNote, h.1]

/-- A host token with its seat in the file: its index among all tokens, and the annotations between
the host token before it and itself. -/
structure Seated : Type extends Token where
  index : Nat
  notes : List Token
deriving DecidableEq, Repr

namespace Seated

/-- Whether a line ends between the host token before and this one. -/
def breaksLine (t : Seated) : Bool :=
  0 < t.newlinesBefore || t.notes.any fun a => 0 < a.newlinesBefore

/-- The indices of the annotations right before the token. -/
def noteIndices (t : Seated) : List Nat :=
  List.range' (t.index - t.notes.length) t.notes.length

end Seated

/-- Seats the host tokens of the rest of a file. `notes` are the annotations since the last host
token. -/
def seatFrom (index : Nat) (notes : List Token) : List Token → List Seated
  | [] => []
  | t :: ts =>
    if t.isNote then seatFrom (index + 1) (notes ++ [t]) ts
    else ⟨t, index, notes⟩ :: seatFrom (index + 1) [] ts

/-- The host tokens of a file with their seats. -/
def hosts (ts : List Token) : List Seated := seatFrom 0 [] ts

end Token

end Gloss

import Gloss.Path

/-!
# Glob patterns

A pattern is a path in which a question mark stands for one character, a star
for any number of them, brackets for one of several characters, and two stars
that make up a whole segment for any number of directories. `Pattern.ofString?`
checks the pattern as a whole first and then each of its segments.
-/

namespace Gloss.Glob

/-- Characters from one to another. -/
structure Interval : Type where
  low : Char
  high : Char
deriving DecidableEq, Repr

/-- A part of a pattern. -/
inductive Piece : Type
  | char (c : Char)
  | anyChar
  | anySequence
  | anyDirectories
  | oneOf (negated : Bool) (intervals : List Interval)
deriving DecidableEq, Repr

/-- What is wrong with a pattern. -/
inductive Flaw : Type
  | wildcards
  | directories
  | brackets
deriving DecidableEq, Repr

/-- A flaw with the number of characters before it. -/
structure Fault : Type where
  flaw : Flaw
  position : Nat
deriving DecidableEq, Repr

/-- The wording of a flaw. -/
def Flaw.message : Flaw → String
  | wildcards => "wildcards are either regular \x60*\x60 or recursive \x60**\x60"
  | directories => "recursive wildcards must form a single path component"
  | brackets => "invalid range pattern"

/-- The wording of a fault. -/
def Fault.message (f : Fault) : String :=
  s!"Pattern syntax error near position {f.position}: {f.flaw.message}"

/-- Whether a text is meant as a pattern. -/
def isPattern (text : String) : Bool :=
  text.toList.any fun c => c == '*' || c == '?' || c == '['

/-! ## Reading -/

/-- What stands in brackets: single characters, and intervals with a dash. -/
def intervals : List Char → List Interval
  | low :: '-' :: high :: rest => ⟨low, high⟩ :: intervals rest
  | c :: rest => ⟨c, c⟩ :: intervals rest
  | [] => []

/-- The piece of stars, with the number of further characters that it takes up. Two stars must
have slashes or the ends of the pattern on both sides. -/
def stars? (position : Nat) (before : Option Char) (rest : List Char) :
    Except Fault (Piece × Nat) :=
  let more := (rest.takeWhile (· = '*')).length
  if more = 0 then .ok (.anySequence, 0)
  else if 1 < more then .error ⟨.wildcards, position + 2⟩
  else if before.any (· ≠ '/') then .error ⟨.directories, position - 1⟩
  else
    match rest.drop 1 with
    | [] => .ok (.anyDirectories, 1)
    | '/' :: _ => .ok (.anyDirectories, 2)
    | _ => .error ⟨.directories, position + 2⟩

/-- The piece of brackets, with the number of further characters that it takes up. The first
character in the brackets may be a closing one. -/
def brackets? (position : Nat) (rest : List Char) : Except Fault (Piece × Nat) :=
  let negated := rest.head? == some '!'
  let inside := if negated then rest.drop 1 else rest
  let length := 1 + (inside.drop 1).findIdx (· = ']')
  if length < inside.length then
    .ok (.oneOf negated (intervals (inside.take length)),
      (if negated then 1 else 0) + length + 1)
  else .error ⟨.brackets, position⟩

/-- The next piece of a pattern, with the number of characters after its first that it takes
up. -/
def piece? (position : Nat) (before : Option Char) (c : Char) (rest : List Char) :
    Except Fault (Piece × Nat) :=
  match c with
  | '?' => .ok (.anyChar, 0)
  | '*' => stars? position before rest
  | '[' => brackets? position rest
  | c => .ok (.char c, 0)

/-- The pieces of a pattern, from a position on. -/
def pieces? (position : Nat) (before : Option Char) (cs : List Char) :
    Except Fault (List Piece) :=
  match cs with
  | [] => .ok []
  | c :: rest => do
    let (piece, more) ← piece? position before c rest
    let last := ((c :: rest).take (more + 1)).getLast?
    let pieces ← pieces? (position + more + 1) last (rest.drop more)
    return piece :: pieces
termination_by cs.length
decreasing_by
  simp only [List.length_drop, List.length_cons]
  omega

/-! ## Matching -/

/-- The ends of a list, the longest first. -/
def ends {α : Type} : List α → List (List α)
  | [] => [[]]
  | a :: as => (a :: as) :: ends as

/-- Whether one character fits a piece. -/
def Piece.fits (c : Char) : Piece → Bool
  | char d => c == d
  | oneOf negated intervals => intervals.any (fun i => i.low ≤ c && c ≤ i.high) != negated
  | _ => true

/-- Whether a name fits the pieces of a segment. -/
def fits : List Piece → List Char → Bool
  | [] => fun cs => cs.isEmpty
  | piece :: pieces => fun cs =>
    if piece = .anySequence ∨ piece = .anyDirectories then (ends cs).any (fits pieces)
    else
      match cs with
      | [] => false
      | c :: cs => piece.fits c && fits pieces cs

/-- The character that a piece stands for. -/
def Piece.char? : Piece → Option Char
  | char c => some c
  | _ => none

/-- The text of a segment that stands for itself alone. -/
def literal? (pieces : List Piece) : Option String :=
  (pieces.mapM Piece.char?).map String.ofList

/-- A pattern by the pieces of its segments. -/
structure Pattern : Type where
  isAbsolute : Bool
  segments : List (List Piece)
  isDirectory : Bool
deriving DecidableEq, Repr

/-- The pattern of a text. -/
def Pattern.ofString? (text : String) : Except Fault Pattern := do
  let cs := text.toList
  let _ ← pieces? 0 none cs
  let isAbsolute := cs.head? == some '/'
  let isDirectory := cs.getLast? == some '/'
  let segments := Path.segments (if isAbsolute then cs.tail else cs)
  let named := if segments.getLast? = some [] then segments.dropLast else segments
  return ⟨isAbsolute, ← named.mapM (pieces? 0 none), isDirectory⟩

end Gloss.Glob

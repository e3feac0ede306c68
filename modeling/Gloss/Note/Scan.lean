import Gloss.Note
import Gloss.Note.Block
import Gloss.Dialect

/-!
# Reading one annotation

`Note.scan` reads the annotation that starts at a cursor, in one of five
forms. Only blocks and quoted payloads can be malformed; a word that does not
fit is ordinary host text.

Two facts about the surroundings matter, both to words alone: directly after a
full stop a word is a property access, and where a class body expects a member
it is a private name.
-/

namespace Gloss

open Host

/-- What stands at an introducer. -/
inductive Scan : Type
  | plain
  | found (note : Note) (length : Nat)
  | malformed (malformed : Malformed)
  | torn
deriving DecidableEq, Repr

namespace Note

/-- The rest of a line, without the carriage return that ends it. -/
def lineBody (cs : List Char) : List Char :=
  let line := cs.takeWhile (· ≠ '\n')
  if line.getLast? = some '\r' then line.dropLast else line

/-- The hashbang line. When the marker is itself the carriage return that ends the line, the
payload would end before it starts: the line is torn. -/
def scanHashbang (marker : Char) (c : Cursor) : Scan :=
  if marker = '\r' ∧ (c.rest.drop 2).takeWhile (· ≠ '\n') = [] then .torn
  else
    .found (cut c .hashbang 2 (lineBody (c.rest.drop 2)).length 0 none)
      (2 + (lineBody (c.rest.drop 2)).length)

/-- An annotation in brackets. -/
def scanBlock (d : Dialect) (own : Bracket) (c : Cursor) : Scan :=
  if d.depthLimit = 0 then .malformed ⟨.tooDeep 0, (c.advance 1).position⟩
  else
    match Block.close d.depthLimit own c.position [] 0 (c.advance 2) with
    | .ok payload => .found (cut c (.block own) 2 payload 1 none) (2 + payload + 1)
    | .error flaw => .malformed flaw

/-- An annotation in quotes. -/
def scanQuoted (quote : Char) (c : Cursor) : Scan :=
  match Literal.extent? (c.rest.drop 1) with
  | none => .plain
  | some .unclosed => .malformed ⟨.unclosedString, (c.advance 1).position⟩
  | some (.closed length) =>
    .found (cut c (.quoted quote) 2 (length - 2) 1 none) (2 + (length - 2) + 1)

/-- The number of characters of the introducer and of the disambiguator after it. -/
def wordOpening (d : Dialect) (c : Cursor) : Nat :=
  match d.disambiguator, (c.rest.drop 1).head? with
  | some mark, some ch => if mark = ch then 2 else 1
  | _, _ => 1

/-- A payload without brackets or quotes, with the flags after it. -/
def flagged (c : Cursor) (form : Form) (opening payload : Nat) : Scan :=
  let flags := Marker.run (c.rest.drop (opening + payload))
  .found (cut c form opening payload flags.2 flags.1) (opening + payload + flags.2)

/-- A word or special character with its flags. -/
def scanWord (d : Dialect) (memberStart : Bool) (c : Cursor) : Scan :=
  match c.rest.drop (wordOpening d c) with
  | [] => .plain
  | ch :: rest =>
    if isIdentifierStart ch then
      if c.prev = some '.' then .plain
      else if memberStart ∧ wordOpening d c = 1 then .plain
      else flagged c .word (wordOpening d c) (1 + identifierRun rest)
    else if d.isSpecial ch then flagged c .special (wordOpening d c) 1
    else .plain

/-- The annotation whose introducer stands at the cursor. `memberStart` says that a class body
expects a member name here. -/
def scan (d : Dialect) (memberStart : Bool) (c : Cursor) : Scan :=
  match c.rest with
  | [] => .plain
  | first :: rest =>
    if first ≠ d.introducer then .plain
    else
      match rest.head? with
      | none => scanWord d memberStart c
      | some ch =>
        if c.offset = 0 ∧ d.hashbang = some ch then scanHashbang ch c
        else
          match (Bracket.ofOpening? ch).filter d.acceptsBlock with
          | some own => scanBlock d own c
          | none =>
            if d.quotedBlocks ∧ isQuote ch then scanQuoted ch c
            else scanWord d memberStart c

end Note

end Gloss

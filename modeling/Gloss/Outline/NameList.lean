import Gloss.Outline.Site
import Gloss.Token

/-!
# Import and export clauses

The names that a clause lists between braces are its specifiers. A specifier
with an alias goes by the alias. An annotation between two separators of the
list is in a slot, where it stands in for a name.

A clause is read from the host tokens. Positions are relative to the first token
that is given, and indices are those of the file.
-/

namespace Gloss

/-- A listed name with the indices of its first and last token. -/
structure Specifier : Type where
  first : Nat
  last : Nat
  name : String
deriving DecidableEq, Repr

namespace Specifier

/-- The specifier is introduced by its first token and ended by its last. -/
def placements (site : String → Site) (s : Specifier) : List Placement :=
  [.leading s.first (site s.name), .trailing s.last (site s.name)]

/-- The specifier that is one token. -/
def single (t : Token.Seated) : Specifier := ⟨t.index, t.index, t.text⟩

end Specifier

open Token (Seated)

namespace NameList

/-- Whether a word `type` modifies the specifier after it. -/
def isTypeModifier (t : Seated) (rest : List Seated) : Bool :=
  t.text == "type" && rest.head?.any fun next => next.isName && next.text != "as"

/-- The alias of a specifier whose first token is read. -/
def alias? : List Seated → Option Seated
  | joint :: name :: _ => if joint.text = "as" ∧ name.isName then some name else none
  | _ => none

theorem exists_of_alias? {us : List Seated} {name : Seated}
    (found : alias? us = some name) :
    ∃ joint rest, us = joint :: name :: rest ∧ joint.text = "as" ∧ name.isName = true := by
  unfold alias? at found
  split at found
  · next joint other rest =>
    split at found
    · next both =>
      obtain rfl := Option.some.inj found
      exact ⟨joint, rest, rfl, both⟩
    · cases found
  · cases found

/-- The specifiers up to the closing brace and the position of that brace, if the list has one. -/
def read (position : Nat) : List Seated → Option Nat × List Specifier
  | [] => (none, [])
  | t :: rest =>
    if t.isPunct "\x7d" then (some position, [])
    else if t.isPunct "," || !t.isName then read (position + 1) rest
    else if isTypeModifier t rest then read (position + 1) rest
    else
      match alias? rest with
      | some name =>
        let tail := read (position + 3) (rest.drop 2)
        (tail.1, ⟨t.index, name.index, name.text⟩ :: tail.2)
      | none =>
        let tail := read (position + 1) rest
        (tail.1, .single t :: tail.2)
termination_by ts => ts.length
decreasing_by all_goals simp only [List.length_drop, List.length_cons]; omega

/-- A separator that a slot may follow. -/
def opensSlot (t : Seated) : Bool := t.isPunct "\x7b" || t.isPunct ","

/-- A separator that may follow a slot. -/
def closesSlot (t : Seated) : Bool := t.isPunct "\x7d" || t.isPunct ","

/-- The indices of the annotations between two separators, up to the token at a position. -/
def slots : Nat → List Seated → List Nat
  | position + 1, before :: after :: rest =>
    let more := slots position (after :: rest)
    if opensSlot before && closesSlot after then after.noteIndices ++ more else more
  | _, _ => []

end NameList

/-- A clause as it was read: how many tokens it takes up, and what it places. -/
structure ClauseReading : Type where
  length : Nat
  placements : List Placement
deriving Repr

namespace Clause

variable (ts : List Seated)

/-- The text of a token, when there is one. -/
def textAt (position : Nat) : String := (ts[position]?.map (·.text)).getD ""

/-- Whether a token of the given kind stands at a position. -/
def kindAt (position : Nat) (kind : Token.Kind) : Bool :=
  ts[position]?.any (·.kind == kind)

/-- Whether the punctuator stands at a position. -/
def punctAt (position : Nat) (text : String) : Bool :=
  ts[position]?.any (·.isPunct text)

/-- The text inside the quotes of a string. -/
def unquote (text : String) : String :=
  let quote (c : Char) : Bool := c == '"' || c == '\'' || c == '\x60'
  String.ofList (((text.toList.dropWhile quote).reverse.dropWhile quote).reverse)

/-- What a list in braces is read as: its specifiers, the indices of the annotations in slots, and
the position after it. A list that is never closed goes on to the last token. -/
structure Braces : Type where
  specifiers : List Specifier
  slots : List Nat
  next : Nat
deriving Repr

/-- Reads the list whose opening brace stands at a position. -/
def braces (position : Nat) : Braces :=
  let body := ts.drop position
  let list := NameList.read (position + 1) (body.drop 1)
  let close := list.1.getD (ts.length - 1)
  ⟨list.2, NameList.slots (close - position) body, close + 1⟩

/-- Reads the list at a position, when there is one. -/
def bracesAt (position : Nat) : Braces :=
  if punctAt ts position "\x7b" then braces ts position else ⟨[], [], position⟩

/-- The words after a list: `from` and a string give the module. -/
def module? (position : Nat) : Option String × Nat :=
  if textAt ts position = "from" then
    if kindAt ts (position + 1) .string then
      (some (unquote (textAt ts (position + 1))), position + 2)
    else (none, position + 1)
  else (none, position)

/-- What a clause places: the sites of its specifiers and its slots. -/
def place (site : String → Site) (clause : Clause) (specifiers : List Specifier)
    (slots : List Nat) : List Placement :=
  specifiers.flatMap (·.placements site) ++ slots.map fun index => .slot index clause

/-- The specifier of the identifier at a position, if one stands there. -/
def nameAt (position : Nat) : List Specifier :=
  match ts[position]? with
  | some t => if t.kind = .ident then [.single t] else []
  | none => []

/-- The default name of an import clause, with the comma after it. -/
def defaultName (position : Nat) : List Specifier × Nat :=
  if kindAt ts position .ident ∧ textAt ts position ≠ "from" then
    (nameAt ts position, if punctAt ts (position + 1) "," then position + 2 else position + 1)
  else ([], position)

/-- The namespace name of an import clause. -/
def namespaceName (position : Nat) : List Specifier × Nat :=
  if punctAt ts position "*" then
    let name := if textAt ts (position + 1) = "as" then position + 2 else position + 1
    (nameAt ts name, if kindAt ts name .ident then name + 1 else name)
  else ([], position)

/-- The position after the word `import` and a `type` that modifies the clause. -/
def importStart : Nat :=
  if textAt ts 1 = "type" ∧ ts[2]?.any (fun t => t.text != "from" && !t.isPunct ",") then 2
  else 1

/-- Reads the import clause that the first token starts. -/
def readImport : ClauseReading :=
  let start := importStart ts
  if kindAt ts start .string then ⟨start + 1, []⟩
  else
    let single := defaultName ts start
    let whole := namespaceName ts single.2
    let list := bracesAt ts whole.2
    let source := module? ts list.next
    let name := source.1.getD ""
    ⟨source.2, place (.importName name) (.importFrom name)
      (single.1 ++ whole.1 ++ list.specifiers) list.slots⟩

/-- Reads the export clause whose opening brace stands at a position. -/
def readExport (position : Nat) : ClauseReading :=
  let list := braces ts position
  ⟨(module? ts list.next).2, place .exportName .exported list.specifiers list.slots⟩

end Clause

end Gloss

import Gloss.Data
import Gloss.Toml.Lexeme

/-!
# TOML documents

`Toml.read?` reads a document as a record. Texts, truth values, whole numbers,
lists and tables are read; a document with other values is refused, as is one
that gives a name twice.

A `Section` is a table in the making. Where it came from decides whether more
may be added to it: the table of a header is closed to dotted keys from outside,
and one that grew from dotted keys has no header.
-/

namespace Gloss.Toml

/-- How a table came up: by its own header, by the header of a table inside it, or by a dotted
key. -/
inductive Origin : Type
  | header
  | implied
  | dotted
deriving DecidableEq, Repr

/-- What stands under a name while a document is read. -/
inductive Entry : Type
  | value (data : Data)
  | table (origin : Origin) (fields : List (String × Entry))
  | rows (tables : List (List (String × Entry)))
deriving Inhabited

/-- The fields of a table in the making. -/
abbrev Section : Type := List (String × Entry)

mutual

/-- An entry as data. -/
def Entry.toData : Entry → Data
  | .value data => data
  | .table _ fields => .record (fieldsOf fields)
  | .rows tables => .list (rowsOf tables)

/-- The fields of a table as data. -/
def fieldsOf : List (String × Entry) → List (String × Data)
  | [] => []
  | (name, entry) :: fields => (name, entry.toData) :: fieldsOf fields

/-- The tables of a list as data. -/
def rowsOf : List (List (String × Entry)) → List Data
  | [] => []
  | fields :: tables => .record (fieldsOf fields) :: rowsOf tables

end

namespace Section

/-- Puts an entry in the place of the one with its name. -/
def replace (name : String) (entry : Entry) (fields : Section) : Section :=
  fields.map fun field => if field.1 = name then (name, entry) else field

/-- Adds a value under a dotted name. -/
def insert? (value : Data) : List String → Section → Option Section
  | [], _ => none
  | [name], fields =>
    match fields.lookup name with
    | none => some (fields ++ [(name, .value value)])
    | some _ => none
  | name :: more, fields =>
    match fields.lookup name with
    | none => do
      let inner ← insert? value more []
      some (fields ++ [(name, .table .dotted inner)])
    | some (.table .dotted inner) => do
      let inner ← insert? value more inner
      some (fields.replace name (.table .dotted inner))
    | some (.table .implied inner) =>
      if more.length < 2 then none
      else do
        let inner ← insert? value more inner
        some (fields.replace name (.table .implied inner))
    | _ => none

/-- Changes the table at a path, where a list of tables means its last one. -/
def modify? (change : Section → Option Section) : List String → Section → Option Section
  | [], fields => change fields
  | name :: more, fields =>
    match fields.lookup name with
    | none => do
      let inner ← modify? change more []
      some (fields ++ [(name, .table .implied inner)])
    | some (.table origin inner) => do
      let inner ← modify? change more inner
      some (fields.replace name (.table origin inner))
    | some (.rows tables) => do
      let inner ← modify? change more (← tables.getLast?)
      some (fields.replace name (.rows (tables.dropLast ++ [inner])))
    | some (.value _) => none

/-- Starts the table of a header. -/
def open? (name : String) (fields : Section) : Option Section :=
  match fields.lookup name with
  | none => some (fields ++ [(name, .table .header [])])
  | some (.table .implied inner) => some (fields.replace name (.table .header inner))
  | _ => none

/-- Starts another table of a list. -/
def append? (name : String) (fields : Section) : Option Section :=
  match fields.lookup name with
  | none => some (fields ++ [(name, .rows [[]])])
  | some (.rows tables) => some (fields.replace name (.rows (tables ++ [[]])))
  | _ => none

end Section

/-! ## Values -/

mutual

/-- A value. -/
def value : Nat → List Char → Option (Data × List Char)
  | 0, _ => none
  | fuel + 1, cs =>
    match cs with
    | '[' :: rest => do
      let (items, rest) ← items fuel (skipFiller false rest)
      some (.list items, rest)
    | '{' :: rest => do
      let (fields, rest) ← fields fuel [] (skipBlanks rest)
      some (.record (fieldsOf fields), rest)
    | 't' :: 'r' :: 'u' :: 'e' :: rest => some (.bool true, rest)
    | 'f' :: 'a' :: 'l' :: 's' :: 'e' :: rest => some (.bool false, rest)
    | c :: rest =>
      if c = '"' ∨ c = '\'' then do
        let (text, rest) ← quoted (c :: rest)
        some (.text (String.ofList text), rest)
      else do
        let (n, rest) ← integer (c :: rest)
        some (if 0 ≤ n then .number n.toNat else .decimal n 0, rest)
    | [] => none

/-- The items of a list up to its closing bracket. A comma may follow the last one. -/
def items : Nat → List Char → Option (List Data × List Char)
  | 0, _ => none
  | _ + 1, ']' :: rest => some ([], rest)
  | fuel + 1, cs => do
    let (item, rest) ← value fuel cs
    match skipFiller false rest with
    | ',' :: rest => do
      let (more, rest) ← items fuel (skipFiller false rest)
      some (item :: more, rest)
    | ']' :: rest => some ([item], rest)
    | _ => none

/-- The fields of a table in braces, after those that are given. No comma follows the last one. -/
def fields : Nat → Section → List Char → Option (Section × List Char)
  | 0, _, _ => none
  | fuel + 1, found, cs =>
    match found, cs with
    | [], '}' :: rest => some ([], rest)
    | found, cs => do
      let (name, rest) ← key cs.length cs
      match rest with
      | '=' :: rest => do
        let (data, rest) ← value fuel (skipBlanks rest)
        let found ← Section.insert? data name found
        match skipBlanks rest with
        | ',' :: rest => fields fuel found rest
        | '}' :: rest => some (found, rest)
        | _ => none
      | _ => none

end

/-! ## Lines -/

/-- A document that is read up to a line: its tables, and the header above the line. -/
structure Draft : Type where
  root : Section
  path : List String

/-- The key of a header, up to its closing brackets. -/
def header? (closing : List Char) (cs : List Char) : Option (List String × List Char) := do
  let (path, rest) ← key cs.length cs
  if closing.isPrefixOf rest then some (path, rest.drop closing.length) else none

/-- Reads a line that is not blank. -/
def line? (d : Draft) : List Char → Option (Draft × List Char)
  | '[' :: '[' :: rest => do
    let (path, rest) ← header? [']', ']'] rest
    let root ← d.root.modify? (Section.append? (← path.getLast?)) path.dropLast
    some (⟨root, path⟩, rest)
  | '[' :: rest => do
    let (path, rest) ← header? [']'] rest
    let root ← d.root.modify? (Section.open? (← path.getLast?)) path.dropLast
    some (⟨root, path⟩, rest)
  | cs => do
    let (name, rest) ← key cs.length cs
    match rest with
    | '=' :: rest => do
      let (data, rest) ← value (2 * rest.length + 2) (skipBlanks rest)
      let root ← d.root.modify? (Section.insert? data name) d.path
      some (⟨root, d.path⟩, rest)
    | _ => none

/-- Reads the lines of a document. -/
def lines? : Nat → Draft → List Char → Option Draft
  | 0, _, _ => none
  | fuel + 1, d, cs =>
    match skipFiller false cs with
    | [] => some d
    | cs => do
      let (d, rest) ← line? d cs
      match ← endLine? rest with
      | [] => some d
      | rest => lines? fuel d rest

/-- The record of a document. A mark of the byte order may stand at its start. -/
def read? (text : String) : Option Data := do
  let cs := text.toList
  let cs := if cs.head? = some '\ufeff' then cs.tail else cs
  let d ← lines? (cs.length + 1) ⟨[], []⟩ cs
  some (.record (fieldsOf d.root))

end Gloss.Toml

import Gloss.Data
import Gloss.Dialect

/-!
# Dialects as records

A dialect can be given by a record of its parts. A part that is missing keeps
the value of a base dialect, a field of another name is passed over, and a value
of the wrong type makes the whole record unreadable. A list gives the parts in
their order.
-/

namespace Gloss

/-- A kind of brackets by its name, or as a variant without content. -/
def Bracket.ofData? : Data → Option Bracket
  | .text name => ofName? name
  | .record [(name, .null)] => ofName? name
  | _ => none

namespace Dialect

/-- The names of the parts in their order. -/
def fieldNames : List String :=
  ["introducer", "block_delimiters", "special_chars", "max_nesting_depth", "hashbang_marker",
    "disambiguator", "quoted_blocks", "strict_attachment"]

/-- Replaces one part. -/
def withField? (d : Dialect) (field : String × Data) : Option Dialect :=
  let value := field.2
  match field.1 with
  | "introducer" => value.char?.map fun c => { d with introducer := c }
  | "block_delimiters" => do
    let items ← value.list?
    let brackets ← items.mapM Bracket.ofData?
    some { d with brackets := brackets }
  | "special_chars" => do
    let items ← value.list?
    let specials ← items.mapM Data.char?
    some { d with specials := specials }
  | "max_nesting_depth" => value.size?.map fun n => { d with depthLimit := n }
  | "hashbang_marker" => (value.nullable? Data.char?).map fun c => { d with hashbang := c }
  | "disambiguator" => (value.nullable? Data.char?).map fun c => { d with disambiguator := c }
  | "quoted_blocks" => value.bool?.map fun b => { d with quotedBlocks := b }
  | "strict_attachment" => value.bool?.map fun b => { d with strict := b }
  | _ => some d

/-- The dialect of a record of parts over a base. -/
def ofData? (base : Dialect) : Data → Option Dialect
  | .record fields => fields.foldlM withField? base
  | .list items =>
    if items.length ≤ fieldNames.length then (fieldNames.zip items).foldlM withField? base
    else none
  | _ => none

end Dialect

end Gloss

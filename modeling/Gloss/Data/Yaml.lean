import Gloss.Data.Json
import Gloss.Data.Yaml.Scalar

/-!
# YAML text

`Data.toYaml` writes data as a YAML document in block layout: a record under a
key is indented by two columns, a list under a key by none, and empty lists and
records are written in brackets.
-/

namespace Gloss

namespace Yaml

/-- The step to a column of the next line. A literal block may already have ended its line. -/
def newline (column : Nat) (written : List Char) : List Char :=
  if written.getLast?.any isBreak then Scalar.pad column else '\n' :: Scalar.pad column

/-- Parts below each other, from a column on. -/
def stack (column : Nat) : List (List Char) → List Char
  | [] => []
  | [part] => part
  | part :: parts => part ++ newline column part ++ stack column parts

/-- What stands between a key and its value, and the column at which the value starts. -/
def lead (column : Nat) : Data → List Char × Nat
  | .list (_ :: _) => ('\n' :: Scalar.pad column, column)
  | .record (_ :: _) => ('\n' :: Scalar.pad (column + 2), column + 2)
  | _ => ([' '], column + 2)

mutual

/-- Data that starts at a column. -/
def write (column : Nat) : Data → List Char
  | .null => "null".toList
  | .bool value => if value then "true".toList else "false".toList
  | .number value => (Json.decimal value 0).toList
  | .decimal mantissa places => (Json.decimal mantissa places).toList
  | .text value => Scalar.write (max column 2) value.toList
  | .list items => if items.isEmpty then ['[', ']'] else stack column (writeItems column items)
  | .record fields =>
    if fields.isEmpty then ['{', '}'] else stack column (writeFields column fields)

/-- The items of a list that starts at a column. -/
def writeItems (column : Nat) : List Data → List (List Char)
  | [] => []
  | item :: items => ('-' :: ' ' :: write (column + 2) item) :: writeItems column items

/-- The fields of a record that starts at a column. -/
def writeFields (column : Nat) : List (String × Data) → List (List Char)
  | [] => []
  | (name, value) :: fields =>
    (name.toList ++ ':' :: (lead column value).1 ++ write (lead column value).2 value) ::
      writeFields column fields

end

end Yaml

namespace Yaml

theorem writeItems_eq_map (column : Nat) (items : List Data) :
    writeItems column items = items.map fun item => '-' :: ' ' :: write (column + 2) item := by
  induction items with
  | nil => simp [writeItems]
  | cons item items ih => simp [writeItems, ih]

theorem stack_cons_cons (column : Nat) (part next : List Char) (parts : List (List Char)) :
    stack column (part :: next :: parts) =
      part ++ newline column part ++ stack column (next :: parts) := rfl

/-- An item of a list on lines of its own: a dash starts the first one, and the last one is
ended. -/
def row (item : Data) : List Char :=
  let text := '-' :: ' ' :: write 2 item
  text ++ newline 0 text

theorem newline_append {written more : List Char} (nonempty : more ≠ []) (column : Nat) :
    newline column (written ++ more) = newline column more := by
  obtain ⟨last, ends⟩ := Option.isSome_iff_exists.mp (List.getLast?_isSome.mpr nonempty)
  rw [newline, newline, List.getLast?_append, ends, Option.some_or]

/-- Below each other and with their end, parts are lines of their own. -/
theorem stack_append_newline {parts : List (List Char)} (some : parts ≠ [])
    (nonempty : ∀ p ∈ parts, p ≠ []) (column : Nat) :
    stack column parts ++ newline column (stack column parts) =
      parts.flatMap fun p => p ++ newline column p := by
  induction parts with
  | nil => exact absurd rfl some
  | cons part parts ih =>
    obtain ⟨-, others⟩ := List.forall_mem_cons.mp nonempty
    cases parts with
    | nil => simp only [stack, List.flatMap_cons, List.flatMap_nil, List.append_nil]
    | cons next parts =>
      have below : stack column (next :: parts) ≠ [] := by
        have first := others next (.head _)
        cases parts with
        | nil => exact first
        | cons p ps =>
          rw [stack_cons_cons, List.append_assoc]
          exact List.append_ne_nil_of_left_ne_nil first _
      rw [stack_cons_cons, newline_append below, List.append_assoc,
        ih (List.cons_ne_nil _ _) others]
      simp only [List.flatMap_cons]

end Yaml

/-- Data as a YAML document. -/
def Data.toYaml (d : Data) : String :=
  let text := Yaml.write 0 d
  String.ofList (text ++ Yaml.newline 0 text)

/-- A list with items is made up of their rows. -/
theorem Data.toYaml_list {items : List Data} (nonempty : items ≠ []) :
    (list items).toYaml = String.ofList (items.flatMap Yaml.row) := by
  have parts : ∀ p ∈ items.map fun i => '-' :: ' ' :: Yaml.write 2 i, p ≠ [] :=
    List.forall_mem_map.mpr fun i _ => List.cons_ne_nil _ _
  have rows := Yaml.stack_append_newline (mt List.map_eq_nil_iff.mp nonempty) parts 0
  rw [List.flatMap_map] at rows
  rw [toYaml, Yaml.write, if_neg (mt List.isEmpty_iff.mp nonempty), Yaml.writeItems_eq_map]
  exact congrArg String.ofList rows

end Gloss

import Gloss.Data
import Gloss.Text.Digits

/-!
# JSON text

`Data.toJson` writes data as JSON: every item and field stands on its own line,
two columns deeper than the brackets around it, and empty brackets stay on one
line. Characters beyond ASCII are written as they are.
-/

namespace Gloss

namespace Json

/-- A character inside quotes. Quotes, backslashes and control characters are escaped. -/
def escape (c : Char) : List Char :=
  match c with
  | '"' => ['\\', '"']
  | '\\' => ['\\', '\\']
  | '\x08' => ['\\', 'b']
  | '\x0c' => ['\\', 'f']
  | '\n' => ['\\', 'n']
  | '\x0d' => ['\\', 'r']
  | '\t' => ['\\', 't']
  | c => if c.toNat < 32 then '\\' :: 'u' :: Text.hexDigits 4 c.toNat else [c]

/-- A text in quotes. -/
def quote (s : String) : String :=
  String.ofList ('"' :: s.toList.flatMap escape ++ ['"'])

/-- The decimal digits of `mantissa / 10 ^ places`. -/
def decimal (mantissa : Int) (places : Nat) : String :=
  let digits := Nat.toDigits 10 mantissa.natAbs
  let padded := List.replicate (places + 1 - digits.length) '0' ++ digits
  let whole := padded.length - places
  String.ofList <|
    (if mantissa < 0 then ['-'] else []) ++ padded.take whole ++
      if places = 0 then [] else '.' :: padded.drop whole

/-- The start of a line at a depth. -/
def newline (depth : Nat) : String :=
  String.ofList ('\n' :: List.replicate (2 * depth) ' ')

/-- Bracketed parts, each on its own line. -/
def bracketed (opening closing : String) (depth : Nat) (parts : List String) : String :=
  if parts.isEmpty then opening ++ closing
  else
    opening ++ newline (depth + 1) ++ String.intercalate ("," ++ newline (depth + 1)) parts ++
      newline depth ++ closing

mutual

/-- Data as text, when it starts on a line at the given depth. -/
def write (depth : Nat) : Data → String
  | .null => "null"
  | .bool value => if value then "true" else "false"
  | .number value => decimal value 0
  | .decimal mantissa places => decimal mantissa places
  | .text value => quote value
  | .list items => bracketed "[" "]" depth (writeItems (depth + 1) items)
  | .record fields => bracketed "\x7b" "\x7d" depth (writeFields (depth + 1) fields)

/-- The items of a list as texts. -/
def writeItems (depth : Nat) : List Data → List String
  | [] => []
  | item :: items => write depth item :: writeItems depth items

/-- The fields of a record as texts. -/
def writeFields (depth : Nat) : List (String × Data) → List String
  | [] => []
  | (name, value) :: fields =>
    (quote name ++ ": " ++ write depth value) :: writeFields depth fields

end

theorem writeItems_eq_map (depth : Nat) (items : List Data) :
    writeItems depth items = items.map (write depth) := by
  induction items with
  | nil => simp [writeItems]
  | cons item items ih => simp [writeItems, ih]

end Json

/-- Data as a JSON document. -/
def Data.toJson (d : Data) : String := Json.write 0 d

/-- Each item of a list starts on a line of its own, two columns in, and commas part the items. -/
theorem Data.toJson_list {items : List Data} (nonempty : items ≠ []) :
    (list items).toJson =
      "[\n  " ++ String.intercalate ",\n  " (items.map (Json.write 1)) ++ "\n]" := by
  have parts : (items.map (Json.write 1)).isEmpty = false := by
    simpa using nonempty
  have inner : Json.newline 1 = "\n  " := by decide
  have outer : Json.newline 0 = "\n" := by decide
  rw [toJson, Json.write, Json.writeItems_eq_map, Json.bracketed, parts, inner, outer]
  simp [String.append_assoc]

end Gloss

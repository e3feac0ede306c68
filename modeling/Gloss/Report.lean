import Gloss.Data.Shape
import Gloss.Data.Yaml
import Gloss.Explanation
import Gloss.Ink

/-!
# Reports

What all reports share: the formats, the record of a file, and the lines that
tell of problems.
-/

namespace Gloss

namespace Report

/-- How reports are written. -/
inductive Format : Type
  | text
  | json
  | yaml
deriving DecidableEq, Repr

namespace Format

/-- The format of a name. -/
def ofName? : String → Option Format
  | "text" => some text
  | "json" => some json
  | "yaml" => some yaml
  | _ => none

/-- The wording of the refusal to write data as text. -/
def unrenderable : String := "Text output has no generic renderer"

/-- Data in a format, or why it cannot be written. Text is written by each report for itself. -/
def render : Format → Data → Except Explanation String
  | text, _ => .error (.plain unrenderable)
  | json, d => .ok d.toJson
  | yaml, d => .ok d.toYaml

/-- Data in a format that data can be written in. -/
def render? (f : Format) (d : Data) : Option String := (f.render d).toOption

end Format

/-- The record of a file. -/
def record (file : String) (fields : List (String × Data)) : Data :=
  .record (("file", .text file) :: fields)

/-- Lines as a text, each with its line feed. -/
def unlines (lines : List String) : String := String.join (lines.map (· ++ "\n"))

/-- A text on one line, with single spaces for the blanks in it. -/
def oneLine (text : String) : String :=
  String.ofList (words false text.toList)
where
  /-- The words of the rest of a text, with a space before each but the first. -/
  words (spaced : Bool) : List Char → List Char
    | [] => []
    | c :: rest =>
      if Text.isBlank c then words spaced rest
      else (if spaced then [' '] else []) ++ c :: word rest
  /-- The rest of a word, and the words after it. -/
  word : List Char → List Char
    | [] => []
    | c :: rest => if Text.isBlank c then words true rest else c :: word rest

end Report

namespace Problem

/-- A problem of a file with its place. -/
def line (file : String) (p : Problem) : String :=
  s!"{file}:{p.position.line}:{p.position.column}: {p.message}"

/-- A problem as the cause of a failure. -/
def cause (p : Problem) : String := s!"{p.message} ({p.position.message})"

/-- A problem that does not keep a command from its work. -/
def warning (ink : Ink) (file : String) (p : Problem) : String :=
  ink.paint (.strongOf .yellow) "Warning:" ++ " " ++ p.line file

end Problem

end Gloss

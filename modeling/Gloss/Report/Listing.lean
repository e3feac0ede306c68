import Gloss.Report
import Gloss.Input

/-!
# Listings

A `Listing` tells which annotations a file has, and where.
-/

namespace Gloss.Report

/-- The annotations of a file with their places. -/
structure Listing : Type where
  file : String
  notes : List (Position × Note)
  problems : List Problem
deriving DecidableEq, Repr

namespace Listing

/-- The listing of a file. -/
def ofSource (d : Dialect) (s : Source) : Listing :=
  let reading := Reading.ofSource d s.text
  ⟨s.name, reading.notes.map fun a => (.locate s.text a.span.start, a),
    reading.malformed.map .malformed⟩

/-- An annotation with its place first. -/
def noteData (entry : Position × Note) : Data :=
  .record (("position", entry.1.toData) :: entry.2.fields)

/-- A listing as data. -/
def toData (l : Listing) : Data :=
  record l.file
    [("nodes", .list (l.notes.map noteData)),
      ("diagnostics", .list (l.problems.map Problem.toData))]

/-- The form of an annotation, with the bracket or quote that opens it. -/
def formLabel : Form → String
  | .block b => "block" ++ String.singleton b.opening
  | .quoted q => "quoted" ++ String.singleton q
  | form => form.name

/-- The line of an annotation. -/
def noteLine (ink : Ink) (entry : Position × Note) : String :=
  let (place, a) := entry
  "  " ++ Ink.fillBefore 4 (toString place.line) ++ ":" ++ Ink.fill 3 (toString place.column) ++
    " " ++ ink.paint (.of .cyan) (Ink.fill 10 (formLabel a.form)) ++ " " ++
    oneLine a.payload ++ ink.paint (.of .yellow) ((a.marker.map (·.label)).getD "")

/-- A listing as lines of text. -/
def lines (ink : Ink) (l : Listing) : List String :=
  ink.paint .strong l.file ::
    if l.notes.isEmpty then ["  " ++ ink.paint .faint "no annotations"]
    else l.notes.map (noteLine ink)

/-- The warnings of a listing. -/
def warnings (ink : Ink) (l : Listing) : List String := l.problems.map (·.warning ink l.file)

end Listing

end Gloss.Report

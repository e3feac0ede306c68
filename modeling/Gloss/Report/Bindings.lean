import Gloss.Report
import Gloss.Input

/-!
# Bindings

`Bindings` tell to which target each annotation of a file belongs.
-/

namespace Gloss.Report

/-- A file with its analysis. -/
structure Bindings : Type where
  source : Source
  analysis : Analysis
deriving DecidableEq, Repr

namespace Bindings

/-- The bindings of a file, or the annotation that a strict dialect rejects. -/
def ofSource (d : Dialect) (s : Source) : Except Ambiguous Bindings :=
  (Analysis.ofSource d s.text).map fun analysis => ⟨s, analysis⟩

/-- Bindings as data. -/
def toData (b : Bindings) : Data := record b.source.name b.analysis.fields

/-- The line of an attachment. -/
def attachmentLine (ink : Ink) (text : String) (a : Attachment) : String :=
  let place := Position.locate text a.note.span.start
  "    " ++ oneLine a.note.payload ++ " " ++
    ink.paint .faint s!"({a.rule.label}, {place.line}:{place.column})"

/-- The lines of a target and its annotations. -/
def entryLines (ink : Ink) (text : String) (e : Table.Entry) : List String :=
  ("  " ++ ink.paint (.of .green) e.target.label) :: e.attachments.map (attachmentLine ink text)

/-- Bindings as lines of text. -/
def lines (ink : Ink) (b : Bindings) : List String :=
  ink.paint .strong b.source.name ::
    if b.analysis.table.entries.isEmpty then ["  " ++ ink.paint .faint "no annotations"]
    else b.analysis.table.entries.flatMap (entryLines ink b.source.text)

/-- The warnings of an analysis. -/
def warnings (ink : Ink) (b : Bindings) : List String :=
  b.analysis.problems.map (·.warning ink b.source.name)

end Bindings

end Gloss.Report

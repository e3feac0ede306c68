import Gloss.Report
import Gloss.Input

/-!
# Verdicts

A `Verdict` tells how many annotations a file has and what is wrong with them.
Under a strict dialect the annotation that it rejects is one more problem, after
the malformed ones.
-/

namespace Gloss.Report

/-- The problems of a file. -/
structure Verdict : Type where
  file : String
  notes : Nat
  problems : List Problem
deriving DecidableEq, Repr

namespace Verdict

/-- The verdict on a file. -/
def ofSource (d : Dialect) (s : Source) : Verdict :=
  let reading := Reading.ofSource d s.text
  let malformed := reading.malformed.map Problem.malformed
  match Analysis.ofReading d s.text reading with
  | .ok _ => ⟨s.name, reading.notes.length, malformed⟩
  | .error a => ⟨s.name, reading.notes.length, malformed ++ [.ambiguous a]⟩

/-- A verdict as data. -/
def toData (v : Verdict) : Data :=
  record v.file
    [("annotations", .number v.notes), ("diagnostics", .list (v.problems.map Problem.toData))]

/-- The number of problems of all files. -/
def total (vs : List Verdict) : Nat := (vs.flatMap (·.problems)).length

/-- The number of annotations of all files. -/
def totalNotes (vs : List Verdict) : Nat := vs.foldl (fun n v => n + v.notes) 0

/-- The last line of a report. -/
def summary (ink : Ink) (vs : List Verdict) : String :=
  if total vs = 0 then
    ink.paint (.of .green) "✓" ++
      s!" {vs.length} file(s), {totalNotes vs} annotation(s), no problems"
  else ink.paint (.of .red) "✗" ++ s!" {total vs} problem(s) in {vs.length} file(s)"

/-- Verdicts as lines of text: every problem, and the summary. -/
def lines (ink : Ink) (vs : List Verdict) : List String :=
  vs.flatMap (fun v => v.problems.map (·.line v.file)) ++ [summary ink vs]

end Verdict

end Gloss.Report

import Gloss.Removal
import Gloss.Report.Bindings
import Gloss.Report.Listing
import Gloss.Report.Verdict

/-!
# Commands

A command lists the annotations of its inputs, shows what they belong to, looks
for problems, or removes them. `Command.outcome` says what it writes and how it
ends, given the inputs as they were read; `Request.run` reads settings and
inputs from a disk first.

Inputs are worked through in their order, and the first that cannot be read or
bound is the failure of the command. A report is written after the last input,
so that a failure leaves no part of one. Removal alone writes each file as soon
as it is done.
-/

namespace Gloss

/-- What a program leaves behind: what it wrote to its output and to its error output, and the
number that it ends with. -/
structure Outcome : Type where
  out : String
  err : String
  code : Nat
deriving DecidableEq, Repr

namespace Outcome

/-- An end without a word. -/
def quiet : Outcome := ⟨"", "", 0⟩

/-- Puts text before what a program wrote. -/
def after (out err : String) (o : Outcome) : Outcome := ⟨out ++ o.out, err ++ o.err, o.code⟩

end Outcome

/-- Why a command did not do its work. -/
inductive Failure : Type
  | inputs (fault : Input.Fault)
  | unreadable (unreadable : Unreadable)
  | ambiguous (file : String) (ambiguous : Ambiguous)
deriving DecidableEq, Repr

namespace Failure

/-- A failure in words. -/
def explanation : Failure → Explanation
  | inputs fault => fault.explanation
  | unreadable u => u.explanation
  | ambiguous file a =>
    ⟨s!"Failed to attach annotations in {file}", [(Problem.ambiguous a).cause]⟩

end Failure

namespace Explanation

/-- The lines that tell of a failure. -/
def lines (ink : Ink) (context : String) (e : Explanation) : List String :=
  (ink.paint (.strongOf .red) "Error:" ++ " " ++ context) ::
    ("  " ++ ink.paint (.of .red) e.message) ::
      e.causes.map fun cause =>
        "  " ++ ink.paint .faint "Caused by:" ++ " " ++ ink.paint .faint cause

/-- The end of a program that failed. -/
def outcome (ink : Ink) (context : String) (e : Explanation) : Outcome :=
  ⟨"", Report.unlines (e.lines ink context), 1⟩

end Explanation

/-- What a program is asked to do. -/
inductive Command : Type
  | scan (paths : List String)
  | attach (paths : List String)
  | check (paths : List String)
  | strip (path : String)
deriving DecidableEq, Repr

namespace Command

open Report

/-- The arguments that stand for inputs. -/
def paths : Command → List String
  | scan paths => paths
  | attach paths => paths
  | check paths => paths
  | strip path => [path]

/-- The end of a command that has written its report. Warnings go with reports of text alone. -/
def written (format : Format) (data : Data) (lines warnings : List String) (code : Nat) :
    Outcome :=
  match format.render? data with
  | some text => ⟨text ++ "\n", "", code⟩
  | none => ⟨unlines lines, unlines warnings, code⟩

/-- An input that was read, or the failure that it is not. -/
def readable : Except Unreadable Source → Except Failure Source := .mapError .unreadable

/-- The bindings of an input. It fails when it was not read, and when a strict dialect rejects one
of its annotations. -/
def bindings (d : Dialect) (source : Except Unreadable Source) : Except Failure Bindings := do
  let s ← readable source
  (Bindings.ofSource d s).mapError (.ambiguous s.name)

/-- Lists the annotations of all inputs. -/
def scanAll (d : Dialect) (format : Format) (ink : Ink) (sources : List Source) : Outcome :=
  let ls := sources.map (Listing.ofSource d)
  written format (.list (ls.map Listing.toData)) (ls.flatMap (·.lines ink))
    (ls.flatMap (·.warnings ink)) 0

/-- Shows the bindings of all inputs. -/
def attachAll (format : Format) (ink : Ink) (bs : List Bindings) : Outcome :=
  written format (.list (bs.map Bindings.toData)) (bs.flatMap (·.lines ink))
    (bs.flatMap (·.warnings ink)) 0

/-- Gives the verdict on all inputs, which decides how the program ends. -/
def checkAll (d : Dialect) (format : Format) (ink : Ink) (sources : List Source) : Outcome :=
  let vs := sources.map (Verdict.ofSource d)
  written format (.list (vs.map Verdict.toData)) (Verdict.lines ink vs) []
    (if Verdict.total vs = 0 then 0 else 1)

/-- A file without its annotations. -/
def stripped (s : Source) (r : Reading) : String :=
  (Removal.ofNotes? s.text r.notes).getD s.text

/-- The end of a command with a failure. -/
def failed (ink : Ink) (f : Failure) : Outcome := f.explanation.outcome ink "Command failed"

/-- Removes the annotations of the inputs one after the other, up to the first that cannot be
read. -/
def stripAll (d : Dialect) (ink : Ink) : List (Except Unreadable Source) → Outcome
  | [] => .quiet
  | .error u :: _ => failed ink (.unreadable u)
  | .ok s :: rest =>
    let reading := Reading.ofSource d s.text
    let warnings := reading.malformed.map fun m => (Problem.malformed m).warning ink s.name
    (stripAll d ink rest).after (stripped s reading) (unlines warnings)

/-- The work of a command on its inputs. -/
def work (d : Dialect) (format : Format) (ink : Ink) (c : Command)
    (sources : List (Except Unreadable Source)) : Except Failure Outcome :=
  match c with
  | scan _ => (sources.mapM readable).map (scanAll d format ink)
  | attach _ => (sources.mapM (bindings d)).map (attachAll format ink)
  | check _ => (sources.mapM readable).map (checkAll d format ink)
  | strip _ => .ok (stripAll d ink sources)

/-- What a command leaves behind, given its inputs as they were read. -/
def outcome (d : Dialect) (format : Format) (ink : Ink) (c : Command)
    (inputs : Except Input.Fault (List (Except Unreadable Source))) : Outcome :=
  match inputs.mapError Failure.inputs >>= c.work d format ink with
  | .ok o => o
  | .error f => failed ink f

end Command

/-- A command with all that the command line says about it. -/
structure Request : Type where
  command : Command
  settingsFile : Option String
  layer : Settings.Layer
  format : Report.Format
deriving DecidableEq, Repr

namespace Request

/-- What to do about settings that cannot be used. -/
def suggestion : String :=
  "Check the config file keys: preset, introducer, block_delimiters, special_chars, " ++
    "max_nesting_depth, disambiguator, strict, extensions"

/-- The end of a program without settings. -/
def withoutSettings (ink : Ink) (f : Settings.Fault) : Outcome :=
  let hint := "\n" ++ ink.paint (.strongOf .cyan) "Suggestion:" ++ " " ++ suggestion ++ "\n"
  let o := f.explanation.outcome ink "Failed to load configuration"
  { o with err := o.err ++ hint }

variable {m : Type → Type} [Monad m]

/-- The inputs of a command as they were read. -/
def read (disk : Disk m) (s : Settings) (c : Command) :
    m (Except Input.Fault (List (Except Unreadable Source))) := do
  match ← Input.collect disk s c.paths with
  | .error fault => pure (.error fault)
  | .ok inputs => do
    let sources ← Source.load disk inputs
    pure (.ok sources)

/-- Runs a command with the files of a disk. -/
def run (disk : Disk m) (ink : Ink) (r : Request) : m Outcome := do
  match ← Settings.load disk r.settingsFile r.layer with
  | .error fault => pure (withoutSettings ink fault)
  | .ok s => do
    let inputs ← read disk s r.command
    pure (r.command.outcome s.dialect r.format ink inputs)

end Request

end Gloss

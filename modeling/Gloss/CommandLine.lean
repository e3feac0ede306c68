import Gloss.Command
import Gloss.Text.Digits

/-!
# Command lines

A command line names a command and the arguments that stand for its inputs.
Options may stand before the name of the command and among its arguments; where
both places give an option, the second counts. Two dashes end the options.

`CommandLine.parse?` reads a command line, one argument after the other, and
`CommandLine.run` does what it asks.
-/

namespace Gloss.CommandLine

/-- Options that take a value. -/
inductive Parameter : Type
  | config
  | preset
  | maxDepth
  | format
deriving DecidableEq, Repr

/-- Options that stand alone. -/
inductive Switch : Type
  | verbose
  | strict
  | version
deriving DecidableEq, Repr

/-- An option that takes a value, by its long name. -/
def Parameter.ofName? : String → Option Parameter
  | "config" => some config
  | "preset" => some preset
  | "max-depth" => some maxDepth
  | "format" => some format
  | _ => none

/-- An option that takes a value, by its letter. -/
def Parameter.ofLetter? : Char → Option Parameter
  | 'c' => some config
  | 'f' => some format
  | _ => none

/-- An option that stands alone, by its long name. -/
def Switch.ofName? : String → Option Switch
  | "verbose" => some verbose
  | "strict" => some strict
  | "version" => some version
  | _ => none

/-- An option that stands alone, by its letter. -/
def Switch.ofLetter? : Char → Option Switch
  | 'v' => some verbose
  | 'V' => some version
  | _ => none

/-- The options that a place of the command line gives. -/
structure Options : Type where
  config : Option String
  preset : Option Preset
  strict : Bool
  maxDepth : Option Nat
  format : Option Report.Format
deriving DecidableEq, Repr

/-- The number of decimal digits, after a plus sign or none, below `2 ^ 64`. -/
def number? (text : String) : Option Nat :=
  let digits :=
    match text.toList with
    | '+' :: digits => digits
    | digits => digits
  if digits.isEmpty then none
  else (Text.valueOf? 10 digits).filter fun n => decide (n < Nat.pow 2 64)

namespace Options

/-- No options. -/
def empty : Options := ⟨none, none, false, none, none⟩

/-- Gives an option its value. An option has at most one value, which it must understand. -/
def set? (o : Options) (p : Parameter) (value : String) : Option Options :=
  match p with
  | .config =>
    if o.config.isSome ∨ value = "" then none else some { o with config := some value }
  | .preset =>
    if o.preset.isSome then none
    else (Preset.ofName? value).map fun preset => { o with preset := some preset }
  | .maxDepth =>
    if o.maxDepth.isSome then none
    else (number? value).map fun n => { o with maxDepth := some n }
  | .format =>
    if o.format.isSome then none
    else (Report.Format.ofName? value).map fun format => { o with format := some format }

/-- Options of two places, the second of which counts more. -/
def merge (first second : Options) : Options where
  config := second.config.or first.config
  preset := second.preset.or first.preset
  strict := second.strict || first.strict
  maxDepth := second.maxDepth.or first.maxDepth
  format := second.format.or first.format

/-- The settings that the options give. -/
def layer (o : Options) : Settings.Layer :=
  { Settings.Layer.empty with
    preset := o.preset
    strict := if o.strict then some true else none
    depthLimit := o.maxDepth }

end Options

/-- Where reading stands after an argument with options. -/
inductive Step : Type
  | options (options : Options) (awaiting : Option Parameter)
  | version
deriving DecidableEq, Repr

/-- Whether an argument holds options. A single dash holds none. -/
def isOption (arg : String) : Bool :=
  match arg.toList with
  | '-' :: _ :: _ => true
  | _ => false

/-- Switches an option on. The version can be asked for only before a command, and strictness
only once. -/
def switch? (global : Bool) (o : Options) : Switch → Option Step
  | .verbose => some (.options o none)
  | .strict => if o.strict then none else some (.options { o with strict := true } none)
  | .version => if global then some .version else none

/-- Gives an option its value, or waits for the value when there is none yet. -/
def give? (o : Options) (p : Parameter) (value : Option (List Char)) : Option Step :=
  match value with
  | some value => (o.set? p (String.ofList value)).map fun o => .options o none
  | none => some (.options o (some p))

/-- An option by its long name, with a value after an equals sign. -/
def long? (global : Bool) (o : Options) (body : List Char) : Option Step :=
  let name := String.ofList (body.takeWhile (· ≠ '='))
  let value := ((body.dropWhile (· ≠ '=')).head?.map fun _ => (body.dropWhile (· ≠ '=')).tail)
  match Parameter.ofName? name, Switch.ofName? name, value with
  | some p, _, value => give? o p value
  | none, some s, none => switch? global o s
  | _, _, _ => none

/-- Options by their letters. The first that takes a value takes the rest of the letters, after
an equals sign or none. -/
def short? (global : Bool) (o : Options) : List Char → Option Step
  | [] => some (.options o none)
  | letter :: more =>
    match Parameter.ofLetter? letter, Switch.ofLetter? letter with
    | some p, _ =>
      match more with
      | [] => give? o p none
      | '=' :: value => give? o p (some value)
      | value => give? o p (some value)
    | none, some s =>
      match switch? global o s with
      | some (.options o _) => short? global o more
      | step => step
    | none, none => none

/-- The options of an argument. -/
def option? (global : Bool) (o : Options) (arg : String) : Option Step :=
  match arg.toList with
  | '-' :: '-' :: body => long? global o body
  | '-' :: letters => short? global o letters
  | _ => none

/-- The options and inputs of a command. -/
structure Tail : Type where
  options : Options
  paths : List String
deriving DecidableEq, Repr

/-- Puts an input before the others. -/
def Tail.cons (path : String) (t : Tail) : Tail := { t with paths := path :: t.paths }

/-- Reads what follows the name of a command. -/
def tail? (o : Options) (awaiting : Option Parameter) : List String → Option Tail
  | [] => if awaiting.isSome then none else some ⟨o, []⟩
  | arg :: more =>
    match awaiting with
    | some p => if isOption arg then none else (o.set? p arg).bind fun o => tail? o none more
    | none =>
      if arg = "--" then some ⟨o, more⟩
      else if isOption arg then
        match option? false o arg with
        | some (.options o awaiting) => tail? o awaiting more
        | _ => none
      else (tail? o none more).map (·.cons arg)

/-- The command of a name with its inputs. -/
def command? (name : String) (paths : List String) : Option Command :=
  match name, paths with
  | "strip", [path] => some (.strip path)
  | "scan", _ :: _ => some (.scan paths)
  | "ls", _ :: _ => some (.scan paths)
  | "attach", _ :: _ => some (.attach paths)
  | "check", _ :: _ => some (.check paths)
  | "lint", _ :: _ => some (.check paths)
  | _, _ => none

/-- What a command line asks for. -/
inductive Asked : Type
  | request (request : Request)
  | version
deriving DecidableEq, Repr

/-- The request of a command with the options before and after its name. -/
def request? (before : Options) (name : String) (t : Tail) : Option Asked :=
  (command? name t.paths).map fun command =>
    let o := before.merge t.options
    .request ⟨command, o.config, o.layer, o.format.getD .text⟩

/-- Reads a command line up to the name of the command, and what follows it. -/
def head? (o : Options) (awaiting : Option Parameter) : List String → Option Asked
  | [] => none
  | arg :: more =>
    match awaiting with
    | some p => if isOption arg then none else (o.set? p arg).bind fun o => head? o none more
    | none =>
      if arg = "--" then none
      else if isOption arg then
        match option? true o arg with
        | some (.options o awaiting) => head? o awaiting more
        | some .version => some .version
        | none => none
      else (tail? .empty none more).bind (request? o arg)

/-- What a command line asks for, if it is well formed. -/
def parse? (args : List String) : Option Asked := head? .empty none args

/-- What is written about a command line that is not well formed. -/
def usage : String :=
  "Usage: hnote [OPTIONS] <scan|attach|check> <PATHS>...\n" ++
    "       hnote [OPTIONS] strip <PATH>\n"

/-- Does what a command line asks for. -/
def run {m : Type → Type} [Monad m] (disk : Disk m) (ink : Ink) (args : List String) :
    m Outcome :=
  match parse? args with
  | none => pure ⟨"", usage, 2⟩
  | some .version => pure ⟨"hnote 0.1.0\n", "", 0⟩
  | some (.request r) => r.run disk ink

end Gloss.CommandLine

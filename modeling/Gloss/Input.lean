import Gloss.Glob.Expansion
import Gloss.Settings

/-!
# Inputs

An argument of a command stands for inputs: a dash for the standard input, a
directory for the files in it that the settings ask for, a file for itself, and
a pattern for the files that fit it. `Input.collect` gathers the inputs of all
arguments in order and drops those that came up before; two paths are the same
when they agree up to their spelling.

`Source.load` reads the inputs.
-/

namespace Gloss

/-- Something to analyse. -/
inductive Input : Type
  | stdin
  | file (path : String)
deriving DecidableEq, Repr

namespace Input

/-- The name of an input in reports. -/
def name : Input → String
  | stdin => "<stdin>"
  | file path => path

/-- What an input is apart from the spelling of its path. -/
def identity : Input → Option (List String)
  | stdin => none
  | file path => some (Path.parts path)

/-- Why an argument stands for nothing. -/
inductive Fault : Type
  | badPattern (arg : String) (fault : Glob.Fault)
  | noMatch (arg : String)
  | missing (arg : String)
deriving DecidableEq, Repr

/-- A fault in words. -/
def Fault.explanation : Fault → Explanation
  | badPattern arg fault => ⟨s!"Invalid glob pattern '{arg}'", [fault.message]⟩
  | noMatch arg => .plain s!"No files match '{arg}'"
  | missing arg => .plain s!"Path not found: {arg}"

/-- The inputs that a pattern stands for. -/
def ofFiles (arg : String) (files : List String) : Except Fault (List Input) :=
  if files.isEmpty then .error (.noMatch arg) else .ok (files.map .file)

/-- Drops inputs that came up before. -/
def distinct (seen : List (Option (List String))) : List Input → List Input
  | [] => []
  | i :: is =>
    if seen.contains i.identity then distinct seen is
    else i :: distinct (i.identity :: seen) is

/-- The inputs of all arguments, unless one of them has a fault. -/
def ofArguments (found : List (Except Fault (List Input))) : Except Fault (List Input) :=
  (found.mapM id).map fun inputs => distinct [] inputs.flatten

variable {m : Type → Type} [Monad m]

/-- The inputs that an argument stands for. -/
def ofArgument (disk : Disk m) (s : Settings) (arg : String) : m (Except Fault (List Input)) := do
  if arg = "-" then pure (.ok [stdin])
  else
    match ← disk.kind? arg with
    | some .directory => do
      let files ← disk.walk disk.depth arg
      pure (.ok ((files.filter s.accepts).map file))
    | some .file => pure (.ok [file arg])
    | none =>
      if Glob.isPattern arg then
        match Glob.Pattern.ofString? arg with
        | .error fault => pure (.error (.badPattern arg fault))
        | .ok pattern => do
          let files ← pattern.files disk
          pure (ofFiles arg files)
      else pure (.error (.missing arg))

/-- The inputs of a command. -/
def collect (disk : Disk m) (s : Settings) (args : List String) :
    m (Except Fault (List Input)) := do
  let found ← args.mapM (ofArgument disk s)
  pure (ofArguments found)

/-- The text of an input. -/
def text (disk : Disk m) : Input → m (Except ReadFault String)
  | stdin => disk.stdinText
  | file path => disk.readText path

/-! ## Distinct inputs -/

theorem distinct_sublist (seen : List (Option (List String))) (is : List Input) :
    (distinct seen is).Sublist is := by
  induction is generalizing seen with
  | nil => exact .slnil
  | cons i is ih =>
    unfold distinct
    split
    · exact .cons _ (ih _)
    · exact .cons_cons _ (ih _)

theorem identity_not_mem_of_mem_distinct {seen : List (Option (List String))} {is : List Input}
    {i : Input} (h : i ∈ distinct seen is) : i.identity ∉ seen := by
  induction is generalizing seen with
  | nil => cases h
  | cons j is ih =>
    unfold distinct at h
    split at h
    · exact ih h
    · next fresh =>
      rcases List.mem_cons.mp h with rfl | h
      · simpa using fresh
      · exact fun member => ih h (.tail _ member)

/-- No two of the inputs that are left are the same. -/
theorem distinct_pairwise (seen : List (Option (List String))) (is : List Input) :
    (distinct seen is).Pairwise fun i j => i.identity ≠ j.identity := by
  induction is generalizing seen with
  | nil => exact .nil
  | cons i is ih =>
    unfold distinct
    split
    · exact ih _
    · refine .cons (fun j member same => ?_) (ih _)
      exact identity_not_mem_of_mem_distinct member (same ▸ .head _)

end Input

/-- An input with its text. -/
structure Source : Type where
  name : String
  text : String
deriving DecidableEq, Repr

/-- An input that cannot be read. -/
structure Unreadable : Type where
  input : Input
  fault : ReadFault
deriving DecidableEq, Repr

/-- The failure in words. -/
def Unreadable.explanation (u : Unreadable) : Explanation :=
  match u.input with
  | .stdin => ⟨"Failed to read stdin", [u.fault.message]⟩
  | .file path => ⟨s!"Failed to read {path}", [u.fault.message]⟩

namespace Source

/-- An input as it was read. -/
def ofText (i : Input) : Except ReadFault String → Except Unreadable Source
  | .ok text => .ok ⟨i.name, text⟩
  | .error fault => .error ⟨i, fault⟩

/-- Reads inputs. -/
def load {m : Type → Type} [Monad m] (disk : Disk m) (inputs : List Input) :
    m (List (Except Unreadable Source)) :=
  inputs.mapM fun i => do
    let text ← i.text disk
    pure (ofText i text)

end Source

end Gloss

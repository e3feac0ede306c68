import Gloss.Path

/-!
# Disks

A `Disk` answers questions about the files around a program: what stands at a
path, which names a directory holds, and what a file contains. The answers come
in a monad, so that one account of a command serves for the files of a machine
and for the tree of files that `FileTree.disk` makes into a disk.
-/

namespace Gloss

/-- What may stand at a path. -/
inductive FileKind : Type
  | file
  | directory
deriving DecidableEq, Repr

/-- Why a file cannot be read. -/
inductive ReadFault : Type
  | missing
  | denied
  | notDirectory
  | isDirectory
  | nameTooLong
  | nulInPath
  | notText
  | failed (reason : String)
deriving DecidableEq, Repr

/-- The wording of a fault. -/
def ReadFault.message : ReadFault → String
  | missing => "No such file or directory (os error 2)"
  | denied => "Permission denied (os error 13)"
  | notDirectory => "Not a directory (os error 20)"
  | isDirectory => "Is a directory (os error 21)"
  | nameTooLong => "File name too long (os error 36)"
  | nulInPath => "file name contained an unexpected NUL byte"
  | notText => "stream did not contain valid UTF-8"
  | failed reason => reason

/-- Access to files by their paths. `names` lists what a directory holds, `depth` bounds how deep
directories lie in each other. -/
structure Disk (m : Type → Type) : Type where
  kind? : String → m (Option FileKind)
  names : String → m (List String)
  read : String → m (Except ReadFault ByteArray)
  stdin : m (Except ReadFault ByteArray)
  depth : Nat

namespace Disk

variable {m : Type → Type} [Monad m]

/-- Bytes as text. -/
def decode (bytes : ByteArray) : Except ReadFault String :=
  match String.fromUTF8? bytes with
  | some text => .ok text
  | none => .error .notText

/-- The text of a file. -/
def readText (disk : Disk m) (path : String) : m (Except ReadFault String) := do
  return (← disk.read path) >>= decode

/-- The text of the standard input. -/
def stdinText (disk : Disk m) : m (Except ReadFault String) := do
  return (← disk.stdin) >>= decode

/-- The names in a directory in ascending order. -/
def sortedNames (disk : Disk m) (directory : String) : m (List String) := do
  return (← disk.names directory).mergeSort fun s t => decide (s ≤ t)

/-- The files in a directory and, to a depth, in those below it. Each stands before what comes
after it in the order of names. -/
def walk (disk : Disk m) : Nat → String → m (List String)
  | 0, _ => pure []
  | depth + 1, directory => do
    let names ← disk.sortedNames directory
    let found ← names.mapM fun name => do
      let path := Path.join directory name
      match ← disk.kind? path with
      | some .file => pure [path]
      | some .directory => disk.walk depth path
      | none => pure []
    return found.flatten

end Disk

end Gloss

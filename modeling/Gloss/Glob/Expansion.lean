import Gloss.Disk
import Gloss.Glob.Pattern

/-!
# Files of a pattern

`Pattern.files` finds the files whose paths fit a pattern, with the entries of
each directory in the order of their names. A segment that stands for itself is
looked up without a look at its neighbours, and entries that start with a full
stop are like all others.

The search goes on with fewer segments or deeper in the disk, except where a
segment leads to the directory above. Hence the number of its steps is bounded.
-/

namespace Gloss.Glob

variable {m : Type → Type} [Monad m]

/-- A place in the search: a path and what stands there. -/
structure Place : Type where
  path : String
  kind : Option FileKind
deriving DecidableEq, Repr

/-- The place of a path. -/
def Place.at (disk : Disk m) (path : String) : m Place := do
  return ⟨path, ← disk.kind? path⟩

/-- The place of a name in a directory. Names in the working directory, however it is spelled with
single full stops, are paths by themselves. -/
def Place.child (disk : Disk m) (directory name : String) : m Place :=
  Place.at disk (if Path.parts directory = ["."] then name else Path.join directory name)

/-- The path of a place where a file stands. -/
def Place.file (p : Place) : List String := if p.kind = some .file then [p.path] else []

/-- The directories that are entries of every directory. A segment names them only if it starts
with a full stop. -/
def dotEntries (pieces : List Piece) : List String :=
  if pieces.head? = some (.char '.') then ["..", "."].filter fun name => fits pieces name.toList
  else []

mutual

/-- The files that fit segments in a place. -/
def search (disk : Disk m) : Nat → List (List Piece) → Place → m (List String)
  | 0, _, _ => pure []
  | _ + 1, [], place => pure place.file
  | fuel + 1, pieces :: more, place =>
    match literal? pieces with
    | some name => do
      let isDots := name == "." || name == ".."
      let next ← Place.child disk place.path name
      if (isDots && place.kind = some .directory) || (!isDots && next.kind.isSome) then
        search disk fuel more next
      else pure []
    | none =>
      if place.kind = some .directory then do
        let above ← (dotEntries pieces).mapM fun name => do
          search disk fuel more (← Place.at disk (Path.join place.path name))
        let names ← disk.sortedNames place.path
        let below ← names.mapM fun name => do
          visit disk fuel (pieces :: more) name (← Place.child disk place.path name)
        return above.flatten ++ below.flatten
      else pure []

/-- The files that fit segments in an entry of a directory. Segments for any number of directories
first stand for none and then for those below. -/
def visit (disk : Disk m) :
    Nat → List (List Piece) → String → Place → m (List String)
  | 0, _, _, _ => pure []
  | fuel + 1, segments, name, place => do
    let isAny := fun pieces => decide (pieces = [Piece.anyDirectories])
    let here ←
      match segments.dropWhile isAny with
      | [] => pure []
      | pieces :: more =>
        if fits pieces name.toList then search disk fuel more place else pure []
    let below ←
      if segments.head?.any isAny && place.kind = some .directory then
        search disk fuel ([.anyDirectories] :: segments.dropWhile isAny) place
      else pure []
    return here ++ below

end

/-- The files whose paths fit a pattern. -/
def Pattern.files (disk : Disk m) (p : Pattern) : m (List String) := do
  if p.isDirectory then return []
  let start ← Place.at disk (if p.isAbsolute then "/" else ".")
  search disk (2 * (disk.depth + 2 * p.segments.length) + 2) p.segments start

end Gloss.Glob

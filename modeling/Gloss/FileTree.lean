import Gloss.Disk

/-!
# Trees of files

A `FileTree` holds the files of a directory and of those below it.
`FileTree.find` follows a path, and `FileTree.disk` makes a tree into a disk.

The root of the tree is a working directory on some machine. Of the files
outside, only those are known that every machine has (`FileTree.machine`), and
nothing is known about the directory above the working directory except that it
is one.
-/

namespace Gloss

/-- A tree of files. A device can be read like a file but is none. -/
inductive FileTree : Type
  | file (content : ByteArray)
  | device (content : ByteArray)
  | directory (entries : List (String × FileTree))
deriving Inhabited

namespace FileTree

/-- No files. -/
def empty : FileTree := directory []

/-- The bytes that a name may have. -/
def nameLimit : Nat := 255

/-- The bytes that a path may have. -/
def pathLimit : Nat := 4095

/-- The directories at the root of a machine, and its null device. -/
def machine : FileTree :=
  directory <| ("dev", directory [("null", device .empty)]) ::
    ["bin", "boot", "etc", "home", "lib", "media", "mnt", "opt", "proc", "root", "run", "sbin",
      "srv", "sys", "tmp", "usr", "var"].map fun name => (name, empty)

/-- What stands at the given segments. The directories on the way are given nearest first; a
segment that names nothing stays where it is, and two full stops go to the directory above. The
last directory on the way is above itself. -/
def follow (above : List FileTree) (tree : FileTree) : List String → Except ReadFault FileTree
  | [] => .ok tree
  | segment :: more =>
    match tree with
    | directory entries =>
      if segment = ".." then
        match above with
        | [] => follow [] (directory entries) more
        | parent :: above => follow above parent more
      else if Path.isName segment then
        if nameLimit < segment.utf8ByteSize then .error .nameTooLong
        else
          match entries.lookup segment with
          | some child => follow (directory entries :: above) child more
          | none => .error .missing
      else follow above (directory entries) more
    | _ => .error .notDirectory

/-- What stands at a path, which starts at the root of the machine or of the tree. -/
def find (tree : FileTree) (path : String) : Except ReadFault FileTree :=
  if path.toList.contains '\x00' then .error .nulInPath
  else if path = "" then .error .missing
  else if pathLimit < path.utf8ByteSize then .error .nameTooLong
  else if path.toList.head? = some '/' then follow [] machine (Path.split path)
  else follow [empty] tree (Path.split path)

/-- A tree in the place of another. An empty directory adds nothing to a directory. -/
def inPlaceOf : FileTree → FileTree → FileTree
  | directory [], directory entries => directory entries
  | added, _ => added

/-- Adds a tree at the given segments, with the directories that it needs. -/
def insert (added : FileTree) : List String → FileTree → FileTree
  | [], tree => added.inPlaceOf tree
  | name :: more, tree =>
    let entries :=
      match tree with
      | directory entries => entries
      | _ => []
    let child := insert added more ((entries.lookup name).getD empty)
    directory ((name, child) :: entries.filter (·.1 ≠ name))

mutual

/-- How deep directories lie in each other. -/
def depth : FileTree → Nat
  | file _ => 0
  | device _ => 0
  | directory entries => depthOfAll entries + 1

/-- The depth of the deepest entry. -/
def depthOfAll : List (String × FileTree) → Nat
  | [] => 0
  | (_, tree) :: entries => max tree.depth (depthOfAll entries)

end

/-- What stands at a path. -/
def kind? (tree : FileTree) (path : String) : Option FileKind :=
  match tree.find path with
  | .ok (file _) => some .file
  | .ok (directory _) => some .directory
  | _ => none

/-- The names in the directory at a path. -/
def names (tree : FileTree) (path : String) : List String :=
  match tree.find path with
  | .ok (directory entries) => entries.map (·.1)
  | _ => []

/-- The content of the file at a path. -/
def read (tree : FileTree) (path : String) : Except ReadFault ByteArray :=
  match tree.find path with
  | .ok (file content) => .ok content
  | .ok (device content) => .ok content
  | .ok (directory _) => .error .isDirectory
  | .error fault => .error fault

/-- A tree as a disk, with the given standard input. -/
def disk (tree : FileTree) (stdin : ByteArray) : Disk Id where
  kind? := tree.kind?
  names := tree.names
  read := tree.read
  stdin := pure (.ok stdin)
  depth := max tree.depth machine.depth

end FileTree

end Gloss

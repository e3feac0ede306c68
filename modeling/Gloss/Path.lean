/-!
# Paths

A path is a text whose segments are separated by slashes. `Path.parts` is what
a path means without regard to its spelling: empty segments and single full
stops count only at the front, where a slash makes the path absolute.
-/

namespace Gloss.Path

/-- The segments between the slashes. -/
def segments : List Char → List (List Char)
  | [] => [[]]
  | c :: cs =>
    if c = '/' then [] :: segments cs
    else
      match segments cs with
      | [] => [[c]]
      | segment :: more => (c :: segment) :: more

/-- The segments of a path as texts. -/
def split (path : String) : List String := (segments path.toList).map String.ofList

/-- Whether a segment names something. -/
def isName (segment : String) : Bool := segment != "" && segment != "."

/-- The named segments of a path, after the mark of its start. -/
def parts (path : String) : List String :=
  match split path with
  | [] => []
  | first :: more =>
    if path = "" then []
    else if first = "" then "/" :: more.filter isName
    else first :: more.filter isName

/-- The last named segment of a path. A path to the directory above has none. -/
def fileName? (path : String) : Option String :=
  (parts path).getLast?.filter fun name => isName name && name != ".." && name != "/"

/-- What follows the last full stop of a file name, unless the name starts with it. -/
def extension? (path : String) : Option String :=
  (fileName? path).bind fun name =>
    let reversed := name.toList.reverse
    match reversed.dropWhile (· ≠ '.') with
    | '.' :: _ :: _ => some (String.ofList (reversed.takeWhile (· ≠ '.')).reverse)
    | _ => none

/-- The path of a name in a directory. -/
def join (directory name : String) : String :=
  if directory = "" then name
  else if directory.toList.getLast? = some '/' then directory ++ name
  else directory ++ "/" ++ name

theorem segments_ne_nil (cs : List Char) : segments cs ≠ [] := by
  cases cs with
  | nil => simp [segments]
  | cons c cs =>
    unfold segments
    split
    · simp
    · split <;> simp

example : parts "./lib//a.js/" = [".", "lib", "a.js"] := by decide +kernel
example : (extension? "x.tar.js", extension? ".js", extension? "a.", extension? "a.js/") =
    (some "js", none, some "", some "js") := by decide +kernel

end Gloss.Path

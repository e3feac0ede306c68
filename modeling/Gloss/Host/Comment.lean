import Gloss.Host.Extent
import Gloss.Text.Blank

/-!
# Comments and the gaps between tokens

A block comment runs to the first `*/` after its opening, a line comment to the
next line feed. A `gap` is the longest run of blanks and comments; a block
comment that is never closed makes the whole rest of the text a gap.
-/

namespace Gloss.Host.Comment

/-- The number of characters up to and with the next `*/`, added to those read already. -/
def close : Nat → List Char → Option Nat
  | _, [] => none
  | read, c :: rest =>
    if c = '*' ∧ rest.head? = some '/' then some (read + 2) else close (read + 1) rest

/-- The block comment that starts here, if any. -/
def block? : List Char → Option Extent
  | '/' :: '*' :: rest => some (.ofEnd (close 2 rest))
  | _ => none

/-- The length of the line comment that starts here, if any, without its line feed. -/
def line? : List Char → Option Nat
  | '/' :: '/' :: rest => some (2 + (rest.takeWhile (· ≠ '\n')).length)
  | _ => none

/-- Where the reader of a gap is: between comments, or in one, perhaps after a star. -/
inductive Place : Type
  | between
  | line
  | block
  | star
deriving DecidableEq, Repr

/-- The number of characters of blanks and comments, added to those read already. -/
def skip : Place → Nat → List Char → Nat
  | _, read, [] => read
  | .between, read, c :: rest =>
    if Text.isBlank c then skip .between (read + 1) rest
    else if c = '/' then
      match rest with
      | [] => read
      | d :: rest =>
        if d = '/' then skip .line (read + 2) rest
        else if d = '*' then skip .block (read + 2) rest
        else read
    else read
  | .line, read, c :: rest =>
    if c = '\n' then skip .between (read + 1) rest else skip .line (read + 1) rest
  | .block, read, c :: rest =>
    if c = '*' then skip .star (read + 1) rest else skip .block (read + 1) rest
  | .star, read, c :: rest =>
    if c = '/' then skip .between (read + 1) rest
    else if c = '*' then skip .star (read + 1) rest
    else skip .block (read + 1) rest

/-- The length of the longest run of blanks and comments. -/
def gap (cs : List Char) : Nat := skip .between 0 cs

/-- A closed block comment lies in the text that it is read from. -/
theorem close_le {read : Nat} {cs : List Char} {length : Nat} (h : close read cs = some length) :
    read ≤ length ∧ length ≤ read + cs.length := by
  fun_induction close read cs with
  | case1 => simp at h
  | case2 read c rest closes =>
    cases rest with
    | nil => simp at closes
    | cons d rest => simp_all; omega
  | case3 _ _ _ _ ih => have := ih h; simp only [List.length_cons]; omega

end Gloss.Host.Comment

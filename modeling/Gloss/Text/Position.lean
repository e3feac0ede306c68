import Gloss.Text.Span

/-!
# Lines and columns

A `Position` is an offset with its line and column, both counted from one; a
column counts characters. `Position.locate` walks a text from its start,
`LineTable` finds the line in a table of line starts and counts only the
characters of that line.
-/

namespace Gloss

/-- A place in a text: byte offset, line and column. -/
structure Position : Type where
  offset : Nat
  line : Nat
  column : Nat
deriving DecidableEq, Repr

namespace Position

/-- The place before the first character. -/
def origin : Position := ⟨0, 1, 1⟩

/-- A line feed starts the next line, any other character the next column. -/
def step (p : Position) (c : Char) : Position :=
  if c = '\n' then ⟨p.offset + c.utf8Size, p.line + 1, 1⟩
  else ⟨p.offset + c.utf8Size, p.line, p.column + 1⟩

/-- The place after the given characters. -/
def advance (p : Position) (cs : List Char) : Position := cs.foldl step p

/-- Walks on until the offset is reached. -/
def walk (p : Position) (offset : Nat) : List Char → Position
  | [] => p
  | c :: cs => if offset ≤ p.offset then p else walk (p.step c) offset cs

/-- The line and column of an offset. An offset beyond the end has those of the end, and
one inside a character those of the next boundary; the offset itself is kept as it is. -/
def locate (source : String) (offset : Nat) : Position :=
  { walk origin offset source.toList with offset := offset }

/-- The wording of a place in messages. -/
def message (p : Position) : String := s!"line {p.line}, column {p.column}"

@[simp] theorem step_offset (p : Position) (c : Char) :
    (p.step c).offset = p.offset + c.utf8Size := by
  unfold step
  split <;> rfl

@[simp] theorem advance_nil (p : Position) : p.advance [] = p := rfl

@[simp] theorem advance_cons (p : Position) (c : Char) (cs : List Char) :
    p.advance (c :: cs) = (p.step c).advance cs := rfl

theorem advance_append (p : Position) (cs ds : List Char) :
    p.advance (cs ++ ds) = (p.advance cs).advance ds := by
  simp [advance]

@[simp] theorem advance_offset (p : Position) (cs : List Char) :
    (p.advance cs).offset = p.offset + Text.width cs := by
  induction cs generalizing p with
  | nil => simp
  | cons c cs ih => simp [ih, Nat.add_assoc]

/-- Walking stops exactly after the part of the text that ends at the offset. -/
theorem walk_append (p : Position) (cs ds : List Char) :
    walk p (p.offset + Text.width cs) (cs ++ ds) = p.advance cs := by
  induction cs generalizing p with
  | nil => cases ds <;> simp [walk]
  | cons c cs ih =>
    have pos := c.utf8Size_pos
    have next := ih (p.step c)
    simp only [step_offset] at next
    rw [List.cons_append, walk, Text.width_cons, ← Nat.add_assoc, if_neg (by omega), next,
      advance_cons]

/-- The place of a character boundary is reached by the characters before it. -/
theorem locate_width (before after : List Char) :
    locate (String.ofList (before ++ after)) (Text.width before) = origin.advance before := by
  have reached := walk_append origin before after
  have start : origin.offset = 0 := rfl
  have offset := advance_offset origin before
  rw [start, Nat.zero_add] at reached offset
  simp only [locate, String.toList_ofList, reached]
  exact congrArg (fun n => { origin.advance before with offset := n }) offset.symm

end Position

/-- A text with the offsets at which its lines start, in ascending order. -/
structure LineTable : Type where
  source : List Char
  starts : List Nat
deriving Repr

namespace LineTable

/-- The offsets just after each line feed. -/
def startsAfter (offset : Nat) : List Char → List Nat
  | [] => []
  | c :: cs =>
    if c = '\n' then (offset + c.utf8Size) :: startsAfter (offset + c.utf8Size) cs
    else startsAfter (offset + c.utf8Size) cs

/-- The first line starts at zero, and each line feed starts another. -/
def ofSource (source : String) : LineTable :=
  ⟨source.toList, 0 :: startsAfter 0 source.toList⟩

/-- The number of lines. -/
def lineCount (t : LineTable) : Nat := t.starts.length

/-- The place of an offset, or of the end of the text for an offset beyond it. There is none
for an offset inside a character. -/
def position? (t : LineTable) (offset : Nat) : Option Position :=
  let offset := min offset (Text.width t.source)
  let reached := t.starts.takeWhile (· ≤ offset)
  (Text.slice? t.source (reached.getLast?.getD 0) offset).map fun line =>
    ⟨offset, reached.length, line.length + 1⟩

end LineTable

end Gloss

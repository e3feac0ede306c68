import Gloss.Text.Position

/-!
# Cursors

A `Cursor` is a character boundary of a text: the place, the character before
it and the characters after it. `Cursor.advance` moves it over a number of
characters, and `Cursor.at?` finds the cursor of an offset.
-/

namespace Gloss

/-- A boundary between two characters of a text. -/
structure Cursor : Type where
  position : Position
  prev : Option Char
  rest : List Char
deriving Repr

namespace Cursor

/-- Before the first character of a text. -/
def start (source : List Char) : Cursor := ⟨Position.origin, none, source⟩

/-- Over the next character; at the end there is nowhere to go. -/
def next (c : Cursor) : Cursor :=
  match c.rest with
  | [] => c
  | ch :: rest => ⟨c.position.step ch, some ch, rest⟩

/-- Over the given number of characters, or to the end. -/
def advance (c : Cursor) : Nat → Cursor
  | 0 => c
  | n + 1 => c.next.advance n

/-- The offset in bytes. -/
def offset (c : Cursor) : Nat := c.position.offset

/-- The text of the next characters. -/
def lexeme (c : Cursor) (length : Nat) : String := String.ofList (c.rest.take length)

/-- The span of the next characters. -/
def span (c : Cursor) (length : Nat) : Span := ⟨c.offset, (c.advance length).offset⟩

/-- The first cursor at or after an offset. -/
def seek (c : Cursor) (offset : Nat) : List Char → Cursor
  | [] => c
  | ch :: rest =>
    if offset ≤ c.offset then c else seek ⟨c.position.step ch, some ch, rest⟩ offset rest

/-- The cursor of an offset, when the offset is a character boundary of the text. -/
def at? (source : List Char) (offset : Nat) : Option Cursor :=
  let found := (start source).seek offset source
  if found.offset = offset then some found else none

@[simp] theorem advance_zero (c : Cursor) : c.advance 0 = c := rfl

theorem advance_succ (c : Cursor) (n : Nat) : c.advance (n + 1) = c.next.advance n := rfl

theorem next_rest (c : Cursor) : c.next.rest = c.rest.drop 1 := by
  unfold next
  split <;> simp_all

@[simp] theorem advance_rest (c : Cursor) (n : Nat) : (c.advance n).rest = c.rest.drop n := by
  induction n generalizing c with
  | zero => simp
  | succ n ih => rw [advance_succ, ih, next_rest, List.drop_drop, Nat.add_comm]

/-- Over the first part of its text a cursor comes to the second. -/
theorem rest_advance_append {c : Cursor} {w rest : List Char} (text : c.rest = w ++ rest) :
    (c.advance w.length).rest = rest := by
  rw [advance_rest, text, List.drop_left]

theorem next_position (c : Cursor) :
    c.next.position = c.position.advance (c.rest.take 1) := by
  unfold next
  split <;> simp_all

@[simp] theorem advance_position (c : Cursor) (n : Nat) :
    (c.advance n).position = c.position.advance (c.rest.take n) := by
  induction n generalizing c with
  | zero => simp
  | succ n ih =>
    rw [advance_succ, ih, next_position, next_rest, ← Position.advance_append]
    cases c.rest <;> simp

theorem advance_offset (c : Cursor) (n : Nat) :
    (c.advance n).offset = c.offset + Text.width (c.rest.take n) := by
  simp [offset]

theorem offset_le_advance (c : Cursor) (n : Nat) : c.offset ≤ (c.advance n).offset := by
  rw [advance_offset]
  exact Nat.le_add_right ..

/-- Over a character the offset grows. -/
theorem offset_lt_advance {c : Cursor} {ch : Char} {rest : List Char} {n : Nat}
    (here : c.rest = ch :: rest) (pos : 0 < n) : c.offset < (c.advance n).offset := by
  obtain ⟨m, rfl⟩ : ∃ m, n = m + 1 := ⟨n - 1, by omega⟩
  have := ch.utf8Size_pos
  rw [advance_offset, here, List.take_succ_cons, Text.width_cons]
  omega

theorem advance_advance (c : Cursor) (m n : Nat) :
    (c.advance m).advance n = c.advance (m + n) := by
  induction m generalizing c with
  | zero => simp
  | succ m ih => rw [advance_succ, ih, Nat.succ_add, advance_succ]

theorem next_prev (c : Cursor) : c.next.prev = (c.rest.take 1).getLast?.or c.prev := by
  unfold next
  split <;> simp_all

/-- The character before a cursor that has moved is the last that it moved over. -/
theorem advance_prev (c : Cursor) (n : Nat) :
    (c.advance n).prev = (c.rest.take n).getLast?.or c.prev := by
  induction n generalizing c with
  | zero => simp
  | succ n ih =>
    rw [advance_succ, ih, next_prev, next_rest]
    cases h : c.rest with
    | nil => simp
    | cons ch rest =>
      simp only [List.drop_one, List.tail_cons, List.take_succ_cons, List.take_zero,
        List.getLast?_cons]
      cases (rest.take n).getLast? <;> simp

end Cursor

end Gloss

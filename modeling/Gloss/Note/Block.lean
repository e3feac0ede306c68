import Gloss.Note.Malformed
import Gloss.Bracket
import Gloss.Host.Comment
import Gloss.Host.Literal
import Gloss.Text.Cursor

/-!
# Block bodies

The body of a block annotation is cut into `Item`s from left to right: literals
and comments hide the brackets inside them, an arrow is no closing angle, and
brackets open and close levels. `Block.close` reads items until the bracket of
the block itself closes.
-/

namespace Gloss.Block

open Host

/-- One item of a block body. -/
inductive Item : Type
  | literal (length : Nat)
  | comment (length : Nat)
  | arrow
  | opening (bracket : Bracket)
  | closing (bracket : Bracket)
  | other
  | unclosedLiteral
  | unclosedComment
deriving DecidableEq, Repr

/-- The number of characters of an item; one that is not closed has no end. -/
def Item.length : Item → Nat
  | literal length => length
  | comment length => length
  | unclosedLiteral => 0
  | unclosedComment => 0
  | _ => 1

/-- Whether `>` after this character completes an arrow. -/
def startsArrow (prev : Option Char) : Bool := prev == some '=' || prev == some '-'

/-- The item of a single character. -/
def charItem (prev : Option Char) (c : Char) : Item :=
  if c = '>' ∧ startsArrow prev = true then .arrow
  else
    match Bracket.ofOpening? c with
    | some b => .opening b
    | none =>
      match Bracket.ofClosing? c with
      | some b => .closing b
      | none => .other

/-- The first item of a text, given the character before it. -/
def item? (prev : Option Char) : List Char → Option Item
  | [] => none
  | c :: rest =>
    match Literal.extent? (c :: rest) with
    | some (.closed length) => some (.literal length)
    | some .unclosed => some .unclosedLiteral
    | none =>
      match Comment.block? (c :: rest) with
      | some (.closed length) => some (.comment length)
      | some .unclosed => some .unclosedComment
      | none => some (charItem prev c)

/-- What an item does inside a block. -/
inductive Verdict : Type
  | go (stack : List Bracket)
  | done
  | flaw (flaw : Flaw)
deriving Repr

/-- Reads one item, with the brackets open inside the block, innermost first. The block itself
is the first level. -/
def judge (limit : Nat) (own : Bracket) (stack : List Bracket) : Item → Verdict
  | .unclosedLiteral => .flaw .unclosedString
  | .unclosedComment => .flaw .unclosedComment
  | .opening b => if limit < stack.length + 2 then .flaw (.tooDeep limit) else .go (b :: stack)
  | .closing b =>
    match stack with
    | top :: outer => if top = b then .go outer else .flaw (.mismatch top.closing b.closing)
    | [] => if own = b then .done else .flaw (.mismatch own.closing b.closing)
  | _ => .go stack

theorem block?_closed_le {cs : List Char} {length : Nat}
    (h : Comment.block? cs = some (.closed length)) : 0 < length ∧ length ≤ cs.length := by
  unfold Comment.block? at h
  split at h
  · next rest =>
    cases closed : Comment.close 2 rest with
    | none => simp [closed, Extent.ofEnd] at h
    | some n =>
      have bound := Comment.close_le closed
      simp only [closed, Extent.ofEnd, Option.some.injEq, Extent.closed.injEq] at h
      simp only [List.length_cons]
      omega
  · cases h

theorem charItem_length (prev : Option Char) (c : Char) : (charItem prev c).length = 1 := by
  unfold charItem
  split
  · rfl
  · split
    · rfl
    · split <;> rfl

/-- An item that is read lies in the text, and it is not empty. -/
theorem item?_length {prev : Option Char} {cs : List Char} {item : Item}
    (h : item? prev cs = some item) :
    item.length ≤ cs.length ∧
      (item = .unclosedLiteral ∨ item = .unclosedComment ∨ 0 < item.length) := by
  cases cs with
  | nil => simp [item?] at h
  | cons c rest =>
    rw [item?] at h
    split at h
    · next length closed =>
      obtain rfl := Option.some.inj h
      have := Literal.extent?_closed_le closed
      exact ⟨this.2, .inr (.inr this.1)⟩
    · obtain rfl := Option.some.inj h
      simp [Item.length]
    · split at h
      · next length closed =>
        obtain rfl := Option.some.inj h
        have := block?_closed_le closed
        exact ⟨this.2, .inr (.inr this.1)⟩
      · obtain rfl := Option.some.inj h
        simp [Item.length]
      · obtain rfl := Option.some.inj h
        simp [charItem_length]

/-- An item after which reading goes on is not empty. -/
theorem length_pos_of_go {limit : Nat} {own : Bracket} {stack stack' : List Bracket}
    {prev : Option Char} {cs : List Char} {item : Item} (read : item? prev cs = some item)
    (go : judge limit own stack item = .go stack') : 0 < item.length ∧ cs ≠ [] := by
  constructor
  · rcases (item?_length read).2 with rfl | rfl | pos
    · simp [judge] at go
    · simp [judge] at go
    · exact pos
  · rintro rfl
    simp [item?] at read

/-- The number of characters before the bracket that closes the block, added to those read
already; `start` is the place of the annotation. -/
def close (limit : Nat) (own : Bracket) (start : Position) (stack : List Bracket) (read : Nat)
    (c : Cursor) : Except Malformed Nat :=
  match _found : item? c.prev c.rest with
  | none => .error ⟨.unclosedBlock own.opening, start⟩
  | some item =>
    match _verdict : judge limit own stack item with
    | .go stack => close limit own start stack (read + item.length) (c.advance item.length)
    | .done => .ok read
    | .flaw flaw => .error ⟨flaw, c.position⟩
termination_by c.rest.length
decreasing_by
  have := length_pos_of_go _found _verdict
  have := List.length_pos_iff.2 this.2
  rw [Cursor.advance_rest, List.length_drop]
  omega

end Gloss.Block

import Gloss.Proofs.Deletion
import Gloss.Proofs.Lines
import Mathlib.Data.List.DropRight
import Mathlib.Data.Prod.Lex

/-!
# Searching the table of lines

The starts in a `LineTable` ascend, so the line of an offset can be found by a search. A search
answers with the index of a start that is the offset or, when there is none, with the index at which
the offset would stand (`Searched`). Whatever it answers, the place that `LineTable.placeBy?` makes
of the answer is the one of the table (`LineTable.placeBy?_eq_position?`).

`LineTable.position?_agrees` is the account of a boundary between characters: a search in the table
and a walk over the text lead to one place, whose line and column count the line feeds before it and
the characters after the last of them, and a later boundary has a later place.
-/

namespace Gloss

/-! ## Places -/

namespace Position

/-- The place after some characters: a line for each line feed, and a column for each character
after the last of them. -/
def after (before : List Char) : Position where
  offset := Text.width before
  line := before.count '\n' + 1
  column := (before.rtakeWhile (· ≠ '\n')).length + 1

theorem after_concat (before : List Char) (c : Char) :
    after (before ++ [c]) = (after before).step c := by
  by_cases feed : c = '\n'
  · simp [after, step, feed]
  · simp [after, step, feed]

theorem origin_advance (before : List Char) : origin.advance before = after before := by
  induction before using List.reverseRecOn with
  | nil => simp [origin, after]
  | append_singleton before c ih => rw [advance_append, ih, after_concat, advance_cons, advance_nil]

/-- Places are ordered by lines, and in a line by columns. -/
def rank (p : Position) : ℕ ×ₗ ℕ := toLex (p.line, p.column)

theorem rank_lt_step (p : Position) (c : Char) : p.rank < (p.step c).rank := by
  unfold step
  split
  · exact Prod.Lex.toLex_lt_toLex.mpr (.inl (Nat.lt_succ_self _))
  · exact Prod.Lex.toLex_lt_toLex.mpr (.inr ⟨rfl, Nat.lt_succ_self _⟩)

/-- Over characters a place grows. -/
theorem rank_lt_advance (p : Position) {cs : List Char} (nonempty : cs ≠ []) :
    p.rank < (p.advance cs).rank := by
  induction cs generalizing p with
  | nil => exact absurd rfl nonempty
  | cons c cs ih =>
    have first := p.rank_lt_step c
    by_cases last : cs = []
    · rwa [last, advance_cons, advance_nil]
    · exact first.trans (ih (p.step c) last)

end Position

/-! ## Searching -/

/-- What a search for a key in ascending numbers may answer: the index of the key or, when it is
not there, the index at which it would stand. -/
inductive Searched (xs : List Nat) (key : Nat) : Except Nat Nat → Prop
  | found {i : Nat} : xs[i]? = some key → Searched xs key (.ok i)
  | missing {i : Nat} :
    i ≤ xs.length → (∀ x ∈ xs.take i, x < key) → (∀ x ∈ xs.drop i, key < x) →
    Searched xs key (.error i)

namespace Searched

variable {xs : List Nat} {key : Nat} {answer : Except Nat Nat}

/-- The index of the last number up to the key. -/
def index : Except Nat Nat → Nat
  | .ok i => i
  | .error next => next - 1

/-- Where the numbers up to the key end. -/
theorem takeWhile_eq_take {i : Nat} (early : ∀ x ∈ xs.take i, x ≤ key)
    (late : ∀ x ∈ xs.drop i, key < x) : xs.takeWhile (· ≤ key) = xs.take i := by
  have none : (xs.drop i).takeWhile (· ≤ key) = [] := by
    rcases rest : xs.drop i with _ | ⟨x, more⟩
    · rfl
    · have beyond := late x (rest ▸ List.mem_cons_self)
      exact List.takeWhile_cons_of_neg (by simpa using beyond)
  conv => lhs; rw [← List.take_append_drop i xs]
  rw [List.takeWhile_append_of_pos (fun x member => decide_eq_true (early x member)), none,
    List.append_nil]

/-- An answer tells where the numbers up to the key end, when the first number is one of them. -/
theorem takeWhile_eq (searched : Searched xs key answer) (ascending : xs.Pairwise (· < ·))
    (first : ∃ x, xs.head? = some x ∧ x ≤ key) :
    index answer < xs.length ∧ xs.takeWhile (· ≤ key) = xs.take (index answer + 1) := by
  cases searched with
  | @found i here =>
    obtain ⟨inside, value⟩ := List.getElem?_eq_some_iff.mp here
    have last : xs.take (i + 1) = xs.take i ++ [key] := by
      rw [List.take_add_one, here, Option.toList_some]
    rw [← List.take_append_drop (i + 1) xs, last] at ascending
    obtain ⟨before, -, after⟩ := List.pairwise_append.mp ascending
    obtain ⟨-, -, before⟩ := List.pairwise_append.mp before
    have here : key ∈ xs.take i ++ [key] := List.mem_append_right _ (List.mem_singleton_self key)
    refine ⟨inside, takeWhile_eq_take (fun x member => ?_) (after key here)⟩
    rw [index, last] at member
    rcases List.mem_append.mp member with early | same
    · exact Nat.le_of_lt (before x early key (List.mem_singleton_self key))
    · exact Nat.le_of_eq (List.mem_singleton.mp same)
  | @missing i inside early late =>
    obtain ⟨x, head, reached⟩ := first
    have some : i ≠ 0 := by
      intro zero
      rw [zero, List.drop_zero] at late
      have beyond := late x (List.mem_of_head? head)
      omega
    have next : index (.error i) + 1 = i := by
      rw [index]
      omega
    refine ⟨by omega, ?_⟩
    rw [next]
    exact takeWhile_eq_take (fun x member => Nat.le_of_lt (early x member)) late

end Searched

/-! ## The table -/

namespace LineTable

theorem pairwise_startsAfter (offset : Nat) (cs : List Char) :
    (startsAfter offset cs).Pairwise (· < ·) := by
  induction cs generalizing offset with
  | nil => exact .nil
  | cons c cs ih =>
    rw [startsAfter]
    split
    · exact .cons (fun start member => (mem_startsAfter member).1) (ih _)
    · exact ih _

/-- The starts of lines ascend. -/
theorem pairwise_starts (source : String) : (ofSource source).starts.Pairwise (· < ·) :=
  .cons (fun _ member => (mem_startsAfter member).1) (pairwise_startsAfter ..)

/-- The place of an offset by the answer of a search in the starts. There is none when the part of
the line up to the offset cannot be cut from the text. -/
def placeBy? (t : LineTable) (offset : Nat) (answer : Except Nat Nat) : Option Position :=
  t.starts[Searched.index answer]?.bind fun start =>
    (Text.slice? t.source start offset).map fun line =>
      ⟨offset, Searched.index answer + 1, line.length + 1⟩

/-- All searches lead to the place that the table gives. -/
theorem placeBy?_eq_position? {source : String} {offset : Nat} {answer : Except Nat Nat}
    (inside : offset ≤ Text.width source.toList)
    (searched : Searched (ofSource source).starts offset answer) :
    (ofSource source).placeBy? offset answer = (ofSource source).position? offset := by
  obtain ⟨known, reached⟩ :=
    searched.takeWhile_eq (pairwise_starts source) ⟨0, rfl, Nat.zero_le offset⟩
  have clamped : min offset (Text.width (ofSource source).source) = offset :=
    Nat.min_eq_left inside
  have count : ((ofSource source).starts.take (Searched.index answer + 1)).length =
      Searched.index answer + 1 := List.length_take_of_le known
  have last : ((ofSource source).starts.take (Searched.index answer + 1)).getLast? =
      some (ofSource source).starts[Searched.index answer] := by
    rw [List.getLast?_eq_getElem?, count, Nat.add_sub_cancel,
      List.getElem?_take_of_lt (Nat.lt_succ_self _), List.getElem?_eq_getElem known]
  simp only [placeBy?, position?, clamped, reached, count, last, Option.getD_some,
    List.getElem?_eq_getElem known, Option.bind_some]

/-- At a boundary between characters the table and a walk over the text agree, whatever the search
in the table answers. The place is one line after the line feeds before it and one column after the
characters that follow the last of them. A later boundary has a later place. -/
theorem position?_agrees {source : String} {before rest : List Char}
    (text : source.toList = before ++ rest) :
    (ofSource source).position? (Text.width before) =
        some (Position.locate source (Text.width before)) ∧
      (∀ answer, Searched (ofSource source).starts (Text.width before) answer →
        (ofSource source).placeBy? (Text.width before) answer =
          some (Position.locate source (Text.width before))) ∧
      Position.locate source (Text.width before) =
        ⟨Text.width before, before.count '\n' + 1,
          (before.rtakeWhile (· ≠ '\n')).length + 1⟩ ∧
      ∀ later rest', source.toList = later ++ rest' → Text.width before < Text.width later →
        (Position.locate source (Text.width before)).rank <
          (Position.locate source (Text.width later)).rank := by
  have place {before rest : List Char} (text : source.toList = before ++ rest) :
      Position.locate source (Text.width before) = Position.origin.advance before := by
    rw [← Position.locate_width before rest, ← text, String.ofList_toList]
  have table : (ofSource source).position? (Text.width before) =
      some (Position.locate source (Text.width before)) := by
    have agree := position?_eq_locate before rest
    rwa [← text, String.ofList_toList] at agree
  have inside : Text.width before ≤ Text.width source.toList := by
    rw [text, Text.width_append]
    exact Nat.le_add_right ..
  refine ⟨table, fun answer searched => ?_, ?_, fun later rest' text' before_later => ?_⟩
  · rw [placeBy?_eq_position? inside searched, table]
  · rw [place text, Position.origin_advance]
    rfl
  · obtain ⟨more, rfl⟩ :=
      Text.exists_append_of_width (text.symm.trans text') (Nat.le_of_lt before_later)
    have nonempty : more ≠ [] := by
      rintro rfl
      rw [List.append_nil] at before_later
      exact Nat.lt_irrefl _ before_later
    rw [place text, place text', Position.advance_append]
    exact Position.rank_lt_advance _ nonempty

/-- An empty line between characters of several bytes: the boundary is at the start of the third
line, and the end of the text is later. -/
theorem position?_agrees_empty_line :
    "é\n\nü".toList = ['é', '\n', '\n'] ++ ['ü'] ∧
      (ofSource "é\n\nü").position? 4 = some ⟨4, 3, 1⟩ ∧
      Searched (ofSource "é\n\nü").starts 4 (.ok 2) ∧
      (ofSource "é\n\nü").placeBy? 4 (.ok 2) = some ⟨4, 3, 1⟩ ∧
      (Position.locate "é\n\nü" 4).rank < (Position.locate "é\n\nü" 6).rank := by
  have text : "é\n\nü".toList = ['é', '\n', '\n'] ++ ['ü'] := by decide
  have searched : Searched (ofSource "é\n\nü").starts 4 (.ok 2) := .found (by decide)
  have width : Text.width ['é', '\n', '\n'] = 4 := by decide
  obtain ⟨table, search, place, later⟩ := position?_agrees text
  rw [width] at table search place later
  have place : Position.locate "é\n\nü" 4 = ⟨4, 3, 1⟩ := place.trans (by decide)
  rw [place] at table search
  have after : "é\n\nü".toList = ['é', '\n', '\n', 'ü'] ++ [] := by decide
  exact ⟨text, table, searched, search _ searched, later _ [] after (by decide)⟩

end LineTable

end Gloss

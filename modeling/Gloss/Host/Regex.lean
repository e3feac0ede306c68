import Gloss.Host.Extent
import Gloss.Host.Identifier

/-!
# Regular-expression literals

A slash opens a regular expression unless it opens a comment or follows an
operand, where it divides. The body runs to the next slash outside a class in
brackets, with a backslash hiding the character after it, and flags of ASCII
letters follow.
-/

namespace Gloss.Host.Regex

/-- Words that end no operand: a slash after one of them opens a regular expression. -/
def operatorWords : List String :=
  ["return", "typeof", "instanceof", "in", "of", "new", "delete", "void", "throw", "case", "do",
    "else", "yield", "await"]

/-- A token ends an operand when it ends with a closing bracket or a quote, or is a word or
number that is not an operator. -/
def endsOperand (token : String) : Bool :=
  match token.toList.getLast? with
  | none => false
  | some c =>
    c == ')' || c == ']' || isQuote c || (isIdentifierPart c && !operatorWords.contains token)

/-- The number of characters up to and with the closing slash, added to those read already. -/
def close (inClass : Bool) (read : Nat) : List Char → Option Nat
  | [] => none
  | c :: rest =>
    if c = '\n' then none
    else if c = '\\' then
      match rest with
      | [] => none
      | _ :: rest => close inClass (read + 2) rest
    else if c = '[' then close true (read + 1) rest
    else if c = ']' then close false (read + 1) rest
    else if c = '/' ∧ inClass = false then some (read + 1)
    else close inClass (read + 1) rest

/-- The letters of ASCII. -/
def isFlag (c : Char) : Bool := c.isAlpha

/-- The body of a regular expression with the flags after it. -/
def closeFlags (cs : List Char) : Option Nat :=
  (close false 0 cs).map fun length => length + ((cs.drop length).takeWhile isFlag).length

/-- The regular expression that starts here, if any, after the given token. -/
def extent? (prev : Option String) : List Char → Option Extent
  | '/' :: rest =>
    if rest.head? = some '/' ∨ rest.head? = some '*' then none
    else if prev.any endsOperand then none
    else some (.ofEnd ((closeFlags rest).map (· + 1)))
  | _ => none

/-- A closed body lies in the text that it is read from. -/
theorem close_le {inClass : Bool} {read : Nat} {cs : List Char} {length : Nat}
    (h : close inClass read cs = some length) : read < length ∧ length ≤ read + cs.length := by
  fun_induction close inClass read cs with
  | case1 => simp at h
  | case2 => simp at h
  | case3 => simp at h
  | case4 _ _ _ _ _ ih => have := ih h; simp only [List.length_cons]; omega
  | case5 _ _ _ _ _ ih => have := ih h; simp only [List.length_cons]; omega
  | case6 _ _ _ _ _ _ ih => have := ih h; simp only [List.length_cons]; omega
  | case7 => simp_all; omega
  | case8 _ _ _ _ _ _ _ _ _ ih => have := ih h; simp only [List.length_cons]; omega

theorem closeFlags_le {cs : List Char} {length : Nat} (h : closeFlags cs = some length) :
    0 < length ∧ length ≤ cs.length := by
  obtain ⟨body, closed, rfl⟩ := Option.map_eq_some_iff.1 h
  have bound := close_le closed
  have flags : ((cs.drop body).takeWhile isFlag).length ≤ (cs.drop body).length :=
    (List.takeWhile_sublist isFlag).length_le
  rw [List.length_drop] at flags
  omega

end Gloss.Host.Regex

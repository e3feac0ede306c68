import Gloss.Host.Extent

/-!
# String and template literals

A quoted literal runs to its own quote on the same line; a template runs to the
next backtick and may hold substitutions, which hold balanced braces, quoted
literals and further templates. A backslash hides the character after it.

The reader keeps a stack of `Layer`s, innermost first, and has found the end of
the literal when the stack is empty.
-/

namespace Gloss.Host

/-- What the reader of a literal is inside of. -/
inductive Layer : Type
  | quoted (quote : Char)
  | template
  | substitution (braces : Nat)
deriving DecidableEq, Repr

namespace Layer

/-- What one character does to the innermost layer: it is read, it is read together with the
character after it, or it ends the line of a quoted literal. -/
inductive Move : Type
  | read (layers : List Layer)
  | readTwo (layers : List Layer)
  | broken
deriving Repr

/-- Inside quotes. -/
def moveQuoted (quote : Char) (c : Char) : Move :=
  if c = '\\' then .readTwo [quoted quote]
  else if c = '\n' then .broken
  else if c = quote then .read []
  else .read [quoted quote]

/-- In the text of a template. -/
def moveTemplate (c : Char) (after : Option Char) : Move :=
  if c = '\\' then .readTwo [template]
  else if c = '\x60' then .read []
  else if c = '$' ∧ after = some '{' then .readTwo [substitution 0, template]
  else .read [template]

/-- In a substitution with the given number of open braces. -/
def moveSubstitution (braces : Nat) (c : Char) : Move :=
  if c = '\x60' then .read [template, substitution braces]
  else if c = '\'' ∨ c = '"' then .read [quoted c, substitution braces]
  else if c = '{' then .read [substitution (braces + 1)]
  else if c = '}' then
    match braces with
    | 0 => .read []
    | braces + 1 => .read [substitution braces]
  else .read [substitution braces]

/-- What a character does, given the character after it. -/
def move (l : Layer) (c : Char) (after : Option Char) : Move :=
  match l with
  | quoted quote => moveQuoted quote c
  | template => moveTemplate c after
  | substitution braces => moveSubstitution braces c

end Layer

namespace Literal

/-- The number of characters up to the one that closes the outermost layer, added to those
read already. -/
def close : List Layer → Nat → List Char → Option Nat
  | [], read, _ => some read
  | _ :: _, _, [] => none
  | layer :: outer, read, c :: rest =>
    match layer.move c rest.head? with
    | .read layers => close (layers ++ outer) (read + 1) rest
    | .readTwo layers =>
      match rest with
      | [] => none
      | _ :: rest => close (layers ++ outer) (read + 2) rest
    | .broken => none

/-- The literal that starts here, if any. -/
def extent? : List Char → Option Extent
  | [] => none
  | c :: rest =>
    if c = '\'' ∨ c = '"' then some (.ofEnd (close [.quoted c] 1 rest))
    else if c = '\x60' then some (.ofEnd (close [.template] 1 rest))
    else none

/-- A closed literal lies in the text that it is read from. -/
theorem close_le {layers : List Layer} {read : Nat} {cs : List Char} {length : Nat}
    (h : close layers read cs = some length) : read ≤ length ∧ length ≤ read + cs.length := by
  fun_induction close layers read cs with
  | case1 => simp_all
  | case2 => simp at h
  | case3 _ _ _ _ _ _ _ ih => have := ih h; simp only [List.length_cons]; omega
  | case4 => simp at h
  | case5 _ _ _ _ _ _ _ _ ih => have := ih h; simp only [List.length_cons]; omega
  | case6 => simp at h

/-- A literal that starts here is not empty and lies in the text. -/
theorem extent?_closed_le {cs : List Char} {length : Nat}
    (h : extent? cs = some (.closed length)) : 0 < length ∧ length ≤ cs.length := by
  have ofEnd {e : Option Nat} (h : Extent.ofEnd e = .closed length) : e = some length := by
    cases e <;> simp_all [Extent.ofEnd]
  cases cs with
  | nil => simp [extent?] at h
  | cons c rest =>
    simp only [extent?] at h
    split at h
    · have := close_le (ofEnd (Option.some.inj h))
      simp only [List.length_cons]
      omega
    · split at h
      · have := close_le (ofEnd (Option.some.inj h))
        simp only [List.length_cons]
        omega
      · cases h

end Literal

end Gloss.Host

/-!
# Digits

Numbers in a base as digits, with letters for the digits above nine:
`Text.valueOf?` reads them in either case, `Text.hexDigits` writes them.
-/

namespace Gloss.Text

/-- The value of a digit, up to the digits of base sixteen. -/
def digit? (c : Char) : Option Nat :=
  if c.isDigit then some (c.toNat - '0'.toNat)
  else if 'a' ≤ c ∧ c ≤ 'f' then some (c.toNat - 'a'.toNat + 10)
  else if 'A' ≤ c ∧ c ≤ 'F' then some (c.toNat - 'A'.toNat + 10)
  else none

/-- The value of digits in a base, the most significant first. -/
def valueOf? (base : Nat) (digits : List Char) : Option Nat :=
  digits.foldlM (fun value c =>
    (digit? c).bind fun digit =>
      if digit < base then some (value * base + digit) else none) 0

/-- The digits of a number in base sixteen, at least `width` of them. -/
def hexDigits (width n : Nat) : List Char :=
  let digits := Nat.toDigits 16 n
  List.replicate (width - digits.length) '0' ++ digits

example : valueOf? 16 ['f', 'F'] = some 255 ∧ valueOf? 8 ['8'] = none := by decide
example : hexDigits 4 0xab = ['0', '0', 'a', 'b'] := by decide

end Gloss.Text

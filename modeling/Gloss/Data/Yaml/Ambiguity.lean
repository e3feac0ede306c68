import Gloss.Text.Digits

/-!
# Texts that look like other scalars

A bare word of a YAML document may be read as nothing, a truth value or a
number. `Yaml.isAmbiguous` recognizes the texts to which this happens, so that a
writer can put them in quotes.
-/

namespace Gloss.Yaml

/-- Digits after a base sign, with a value below a bound. -/
def isBasedBelow (bound : Nat) : List Char → Bool
  | '0' :: 'x' :: d :: digits => (Text.valueOf? 16 (d :: digits)).any (· < bound)
  | '0' :: 'o' :: d :: digits => (Text.valueOf? 8 (d :: digits)).any (· < bound)
  | '0' :: 'b' :: d :: digits => (Text.valueOf? 2 (d :: digits)).any (· < bound)
  | _ => false

/-- Whole numbers in base sixteen, eight or two that fit into 128 bits. -/
def isBased : List Char → Bool
  | '+' :: cs => isBasedBelow (Nat.pow 2 128) cs
  | '-' :: cs => isBasedBelow (Nat.pow 2 127 + 1) cs
  | cs => isBasedBelow (Nat.pow 2 128) cs

/-- Digits with a needless zero in front. -/
def isZeroLed : List Char → Bool
  | '0' :: d :: digits => (d :: digits).all Char.isDigit
  | _ => false

/-- A text without one sign at its front. -/
def unsigned : List Char → List Char
  | '+' :: cs => cs
  | '-' :: cs => cs
  | cs => cs

/-- Whether `mantissa * 10 ^ exponent` is below the least number that a double rounds to infinity,
half a unit above the largest double. Far from that border the number of digits decides. -/
def isFinite (mantissa : Nat) (exponent : Int) : Bool :=
  let border := (Nat.pow 2 54 - 1) * Nat.pow 2 970
  let size : Int := (Nat.toDigits 10 mantissa).length + exponent
  if mantissa = 0 then true
  else if size < 309 then true
  else if 309 < size then false
  else mantissa * Nat.pow 10 exponent.toNat < border * Nat.pow 10 (-exponent).toNat

/-- The exponent after the digits of a number. -/
def exponent? : List Char → Option Int
  | [] => some 0
  | e :: cs =>
    if e = 'e' ∨ e = 'E' then
      let digits := unsigned cs
      if digits.isEmpty then none
      else (Text.valueOf? 10 digits).map fun n => if cs.head? = some '-' then -(n : Int) else n
    else none

/-- Decimal digits with a full stop or an exponent or neither, whose value is finite. -/
def isDecimal (cs : List Char) : Bool :=
  let whole := cs.takeWhile Char.isDigit
  let more := cs.dropWhile Char.isDigit
  let places :=
    if more.head? = some '.' then more.tail.takeWhile Char.isDigit else []
  let rest :=
    if more.head? = some '.' then more.tail.dropWhile Char.isDigit else more
  if whole.isEmpty && places.isEmpty then false
  else
    match Text.valueOf? 10 (whole ++ places), exponent? rest with
    | some mantissa, some exponent => isFinite mantissa (exponent - places.length)
    | _, _ => false

/-- The words for nothing, the truth values, infinity and the value that is no number. -/
def words : List String :=
  ["", "~", "null", "Null", "NULL", "true", "True", "TRUE", "false", "False", "FALSE",
    ".inf", ".Inf", ".INF", "+.inf", "+.Inf", "+.INF", "-.inf", "-.Inf", "-.INF",
    ".nan", ".NaN", ".NAN"]

/-- Whether a bare text would be read as something else than text. -/
def isAmbiguous (text : List Char) : Bool :=
  words.contains (String.ofList text) || isBased text || isZeroLed (unsigned text) ||
    isDecimal (unsigned text)

end Gloss.Yaml

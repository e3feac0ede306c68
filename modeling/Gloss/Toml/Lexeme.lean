import Gloss.Text.Digits

/-!
# Lexemes of TOML

Blanks, comments, quoted texts, keys and whole numbers. A reader takes the
characters from its place on and gives what it read with the characters after
it, or nothing where the text is not well formed.
-/

namespace Gloss.Toml

/-- What a reader gives. -/
abbrev Read (α : Type) : Type := Option (α × List Char)

/-- Spaces and tabs. -/
def isBlank (c : Char) : Bool := c == ' ' || c == '\t'

/-- Characters that may stand in comments and quotes: tabs and all that are no control
characters. -/
def isPlain (c : Char) : Bool := c == '\t' || (0x20 ≤ c.toNat && c.toNat != 0x7f)

/-! ## Blanks and line ends -/

/-- Over blanks. -/
def skipBlanks (cs : List Char) : List Char := cs.dropWhile isBlank

/-- Over a comment. -/
def skipComment : List Char → List Char
  | '#' :: rest => rest.dropWhile isPlain
  | cs => cs

/-- Over a line end. -/
def lineEnd? : List Char → Option (List Char)
  | '\n' :: rest => some rest
  | '\x0d' :: '\n' :: rest => some rest
  | _ => none

/-- Over the rest of a line that holds nothing more than a comment. -/
def endLine? (cs : List Char) : Option (List Char) :=
  match skipComment (skipBlanks cs) with
  | [] => some []
  | rest => lineEnd? rest

/-- Over blanks, line ends and comments. -/
def skipFiller (inComment : Bool) : List Char → List Char
  | [] => []
  | c :: rest =>
    if c = '\n' then skipFiller false rest
    else if c = '\x0d' ∧ rest.head? = some '\n' then skipFiller inComment rest
    else if inComment then if isPlain c then skipFiller true rest else c :: rest
    else if isBlank c then skipFiller false rest
    else if c = '#' then skipFiller true rest
    else c :: rest

/-! ## Quoted texts -/

/-- The character of a code point in hexadecimal digits. -/
def scalar? (digits : List Char) : Option Char := do
  let code ← Text.valueOf? 16 digits
  if code.isValidChar then some (Char.ofNat code) else none

/-- The character after a backslash, unless it is a code point. -/
def escape? : Char → Option Char
  | 'b' => some '\x08'
  | 't' => some '\t'
  | 'n' => some '\n'
  | 'f' => some '\x0c'
  | 'r' => some '\x0d'
  | '"' => some '"'
  | '\\' => some '\\'
  | _ => none

/-- Puts a character before what a reader gives. -/
def after? (c : Option Char) (more : Read (List Char)) : Read (List Char) :=
  match c, more with
  | some c, some (cs, rest) => some (c :: cs, rest)
  | _, _ => none

/-- The text in double quotes, after the opening quote. -/
def basic : List Char → Read (List Char)
  | [] => none
  | '"' :: rest => some ([], rest)
  | '\\' :: 'u' :: a :: b :: c :: d :: rest => after? (scalar? [a, b, c, d]) (basic rest)
  | '\\' :: 'U' :: a :: b :: c :: d :: e :: f :: g :: h :: rest =>
    after? (scalar? [a, b, c, d, e, f, g, h]) (basic rest)
  | '\\' :: c :: rest => after? (escape? c) (basic rest)
  | c :: rest => if isPlain c then after? (some c) (basic rest) else none

/-- The text in single quotes, after the opening quote. -/
def literal : List Char → Read (List Char)
  | [] => none
  | '\'' :: rest => some ([], rest)
  | c :: rest => if isPlain c then after? (some c) (literal rest) else none

/-- Quotes that close a text over several lines: three of them, after up to two that belong to the
text. Fewer than three do not close it. -/
def closing? (quote : Char) (cs : List Char) : Read (List Char) :=
  let run := (cs.takeWhile (· = quote)).length
  if run < 3 then none
  else
    let inside := min (run - 3) 2
    some (List.replicate inside quote, cs.drop (inside + 3))

/-- The text over several lines, after its three opening double quotes. A backslash before a line
end takes away the blanks and line ends after it; `folding` says that this is so here. -/
def multiBasic (folding : Bool) : List Char → Read (List Char)
  | [] => none
  | '\\' :: 'u' :: a :: b :: c :: d :: rest =>
    after? (scalar? [a, b, c, d]) (multiBasic false rest)
  | '\\' :: 'U' :: a :: b :: c :: d :: e :: f :: g :: h :: rest =>
    after? (scalar? [a, b, c, d, e, f, g, h]) (multiBasic false rest)
  | '\\' :: c :: rest =>
    if (lineEnd? (skipBlanks (c :: rest))).isSome then multiBasic true (c :: rest)
    else after? (escape? c) (multiBasic false rest)
  | '\x0d' :: '\n' :: rest =>
    if folding then multiBasic true rest else after? (some '\n') (multiBasic false rest)
  | c :: rest =>
    if folding && (isBlank c || c == '\n') then multiBasic true rest
    else if c = '"' then
      match closing? '"' (c :: rest) with
      | some closed => some closed
      | none => after? (some c) (multiBasic false rest)
    else if isPlain c || c == '\n' then after? (some c) (multiBasic false rest)
    else none

/-- The text over several lines, after its three opening single quotes. -/
def multiLiteral : List Char → Read (List Char)
  | [] => none
  | '\x0d' :: '\n' :: rest => after? (some '\n') (multiLiteral rest)
  | c :: rest =>
    if c = '\'' then
      match closing? '\'' (c :: rest) with
      | some closed => some closed
      | none => after? (some c) (multiLiteral rest)
    else if isPlain c || c == '\n' then after? (some c) (multiLiteral rest)
    else none

/-- A text over several lines without the line end that follows its opening quotes. -/
def opened (cs : List Char) : List Char := (lineEnd? cs).getD cs

/-- A text in quotes. -/
def quoted : List Char → Read (List Char)
  | '"' :: '"' :: '"' :: rest => multiBasic false (opened rest)
  | '\'' :: '\'' :: '\'' :: rest => multiLiteral (opened rest)
  | '"' :: rest => basic rest
  | '\'' :: rest => literal rest
  | _ => none

/-! ## Keys -/

/-- Characters of a key without quotes. -/
def isKeyChar (c : Char) : Bool := c.isAlphanum || c == '_' || c == '-'

/-- A key, bare or in quotes on one line. -/
def simpleKey : List Char → Read String
  | '"' :: rest => (basic rest).map fun (cs, rest) => (String.ofList cs, rest)
  | '\'' :: rest => (literal rest).map fun (cs, rest) => (String.ofList cs, rest)
  | cs =>
    let key := cs.takeWhile isKeyChar
    if key.isEmpty then none else some (String.ofList key, cs.dropWhile isKeyChar)

/-- Keys with full stops between them, and the blanks around each. -/
def key : Nat → List Char → Option (List String × List Char)
  | 0, _ => none
  | fuel + 1, cs => do
    let (first, rest) ← simpleKey (skipBlanks cs)
    match skipBlanks rest with
    | '.' :: rest => do
      let (more, rest) ← key fuel rest
      some (first :: more, rest)
    | rest => some ([first], rest)

/-! ## Whole numbers -/

/-- Whether every underscore stands alone between two other characters. -/
def isSpaced (cs : List Char) : Bool :=
  cs.head? != some '_' && cs.getLast? != some '_' &&
    (cs.zip cs.tail).all fun pair => pair.1 != '_' || pair.2 != '_'

/-- The value of digits with single underscores between them. -/
def digits? (base : Nat) (cs : List Char) : Option Nat :=
  if !cs.isEmpty && isSpaced cs then Text.valueOf? base (cs.filter (· ≠ '_')) else none

/-- Decimal digits without a zero in front. -/
def decimal? (cs : List Char) : Option Nat :=
  if cs.head? = some '0' ∧ cs ≠ ['0'] then none else digits? 10 cs

/-- A value that fits into 64 bits with a sign. -/
def bounded? (n : Int) : Option Int :=
  let bound : Int := (Nat.pow 2 63 : Nat)
  if -bound ≤ n ∧ n < bound then some n else none

/-- The value of a number without blanks, within 64 bits. -/
def integerOf? : List Char → Option Int
  | '0' :: 'x' :: cs => (digits? 16 cs).bind fun n => bounded? n
  | '0' :: 'o' :: cs => (digits? 8 cs).bind fun n => bounded? n
  | '0' :: 'b' :: cs => (digits? 2 cs).bind fun n => bounded? n
  | '+' :: cs => (decimal? cs).bind fun n => bounded? n
  | '-' :: cs => (decimal? cs).bind fun n => bounded? (-n)
  | cs => (decimal? cs).bind fun n => bounded? n

/-- A whole number. -/
def integer (cs : List Char) : Read Int :=
  let isPart := fun c => c.isAlphanum || c == '_' || c == '+' || c == '-'
  (integerOf? (cs.takeWhile isPart)).map fun n => (n, cs.dropWhile isPart)

end Gloss.Toml

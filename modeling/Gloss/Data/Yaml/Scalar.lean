import Gloss.Data.Yaml.Ambiguity

/-!
# YAML scalars

`Scalar.write` writes a text so that it reads back as the same text: plain where
that is safe, in single quotes where it is not, in double quotes with escapes
when it holds characters that cannot be printed, and as a literal block when it
holds line feeds.
-/

namespace Gloss.Yaml

/-- How a text is written. -/
inductive Style : Type
  | plain
  | single
  | double
  | literal
deriving DecidableEq, Repr

/-- Characters that end a line. -/
def isBreak (c : Char) : Bool :=
  c == '\n' || c == '\x0d' || c == '\u0085' || c == '\u2028' || c == '\u2029'

/-- Characters that may stand in a document as they are. -/
def isPrintable (c : Char) : Bool :=
  c == '\n' || (0x20 ≤ c.toNat && c.toNat ≤ 0x7e) || (0xa0 ≤ c.toNat && c.toNat ≤ 0xd7ff) ||
    (0xe000 ≤ c.toNat && c.toNat ≤ 0xfffd && c != '\ufeff') || 0x10000 ≤ c.toNat

/-- The end of a text or a space. -/
def isGap : Option Char → Bool
  | none => true
  | some c => c == ' '

namespace Scalar

/-- Signs that begin something else than a plain text. -/
def isIndicator (c : Char) : Bool :=
  ['#', ',', '[', ']', '{', '}', '&', '*', '!', '|', '>', '\'', '"', '%', '@', '\x60'].contains c

/-- Whether the start of a text means something else: a sign, a marker of a document, or a dash,
question mark or colon that stands alone. -/
def startsStructure (text : List Char) : Bool :=
  ['-', '-', '-'].isPrefixOf text || ['.', '.', '.'].isPrefixOf text ||
    match text with
    | [] => false
    | c :: rest =>
      isIndicator c || ((c == '-' || c == '?' || c == ':') && isGap rest.head?)

/-- Whether a key ends or a comment starts after the given character. -/
def holdsStructure : Char → List Char → Bool
  | _, [] => false
  | before, c :: rest =>
    (c == ':' && isGap rest.head?) || (c == '#' && before == ' ') || holdsStructure c rest

/-- Whether a text means something else than itself when it is written plain. -/
def isStructural (text : List Char) : Bool :=
  startsStructure text ||
    match text with
    | [] => false
    | c :: rest => holdsStructure c rest

/-- Whether two neighbours satisfy the conditions. -/
def hasNeighbours (left right : Char → Bool) (text : List Char) : Bool :=
  (text.zip text.tail).any fun pair => left pair.1 && right pair.2

/-- Texts that only escapes can write: with characters that cannot be printed, or with a space
before a line end. -/
def needsEscapes (text : List Char) : Bool :=
  text.any (!isPrintable ·) || hasNeighbours (· == ' ') isBreak text

/-- Texts that may be written plain. -/
def allowsPlain (text : List Char) : Bool :=
  !(needsEscapes text || text.any isBreak || isStructural text || text.head? == some ' ' ||
    text.getLast? == some ' ')

/-- Texts that may be written in single quotes. -/
def allowsSingle (text : List Char) : Bool :=
  !(needsEscapes text || hasNeighbours isBreak (· == ' ') text)

/-- Texts that may be written as a literal block. -/
def allowsLiteral (text : List Char) : Bool :=
  !(needsEscapes text || text.getLast? == some ' ')

/-- The style of a text. -/
def style (text : List Char) : Style :=
  if text.contains '\n' then if allowsLiteral text then .literal else .double
  else if allowsPlain text && !isAmbiguous text then .plain
  else if allowsSingle text then .single
  else .double

/-- Spaces up to a column. -/
def pad (column : Nat) : List Char := List.replicate column ' '

/-- The inside of single quotes. Lines after a line end start at a column. -/
def writeSingle (column : Nat) (fresh : Bool) : List Char → List Char
  | [] => if fresh then pad column else []
  | c :: rest =>
    if isBreak c then c :: writeSingle column true rest
    else
      (if fresh then pad column else []) ++ (if c = '\'' then ['\'', '\''] else [c]) ++
        writeSingle column false rest

/-- The lines of a literal block. Those that are not empty start at a column. -/
def writeLines (column : Nat) (fresh : Bool) : List Char → List Char
  | [] => []
  | c :: rest =>
    if isBreak c then c :: writeLines column true rest
    else (if fresh then pad column else []) ++ c :: writeLines column false rest

/-- The digits of a number in base sixteen with capitals, at least `width` of them. -/
def hexDigits (width n : Nat) : List Char := (Text.hexDigits width n).map Char.toUpper

/-- The letters of the escapes that have one. -/
def escapes : List (Char × Char) :=
  [('\x00', '0'), ('\x07', 'a'), ('\x08', 'b'), ('\t', 't'), ('\n', 'n'), ('\x0b', 'v'),
    ('\x0c', 'f'), ('\x0d', 'r'), ('\x1b', 'e'), ('"', '"'), ('\\', '\\'), ('\u0085', 'N'),
    ('\u2028', 'L'), ('\u2029', 'P')]

/-- A character inside double quotes. -/
def escape (c : Char) : List Char :=
  match escapes.lookup c with
  | some letter => ['\\', letter]
  | none =>
    if isPrintable c then [c]
    else if c.toNat ≤ 0xff then '\\' :: 'x' :: hexDigits 2 c.toNat
    else if c.toNat ≤ 0xffff then '\\' :: 'u' :: hexDigits 4 c.toNat
    else '\\' :: 'U' :: hexDigits 8 c.toNat

/-- What a literal block says about line ends after its last line: none, one, or all that the
text has. -/
def chomping (text : List Char) : List Char :=
  match text.reverse with
  | [] => ['-']
  | [c] => if isBreak c then ['+'] else ['-']
  | last :: before :: _ =>
    if isBreak last then if isBreak before then ['+'] else []
    else ['-']

/-- The head of a literal block. When its first line starts with a space or is empty, the number
of columns that belong to the layout has to be given. -/
def literalHead (text : List Char) : List Char :=
  '|' :: (if text.head?.any fun c => c == ' ' || isBreak c then ['2'] else []) ++ chomping text

/-- A text as a scalar. Its lines after the first start at a column. -/
def write (column : Nat) (text : List Char) : List Char :=
  match style text with
  | .plain => text
  | .single => '\'' :: writeSingle column false text ++ ['\'']
  | .double => '"' :: text.flatMap escape ++ ['"']
  | .literal => literalHead text ++ '\n' :: writeLines column true text

end Scalar

end Gloss.Yaml

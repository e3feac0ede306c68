/-!
# Ink

Styles of text on a terminal. With plain ink a text is written as it is, with
coloured ink between the codes that switch its style on and off.
-/

namespace Gloss

/-- The colours of text. -/
inductive Colour : Type
  | red
  | green
  | yellow
  | cyan
deriving DecidableEq, Repr

/-- The look of a text. -/
structure Style : Type where
  bold : Bool
  dimmed : Bool
  colour : Option Colour
deriving DecidableEq, Repr

namespace Style

/-- Bold text. -/
def strong : Style := ⟨true, false, none⟩

/-- Dimmed text. -/
def faint : Style := ⟨false, true, none⟩

/-- Text in a colour. -/
def of (c : Colour) : Style := ⟨false, false, some c⟩

/-- Bold text in a colour. -/
def strongOf (c : Colour) : Style := ⟨true, false, some c⟩

end Style

/-- The code of a colour. -/
def Colour.code : Colour → String
  | red => "31"
  | green => "32"
  | yellow => "33"
  | cyan => "36"

/-- The codes that switch a style on, the colour last. -/
def Style.codes (s : Style) : String :=
  String.intercalate ";" <|
    (if s.bold then ["1"] else []) ++ (if s.dimmed then ["2"] else []) ++
      s.colour.toList.map Colour.code

/-- Whether text is written with colours. -/
inductive Ink : Type
  | plain
  | coloured
deriving DecidableEq, Repr

namespace Ink

/-- Whether a variable of the environment is set to something else than zero. -/
def isOn (value : Option String) : Option Bool := value.map (· != "0")

/-- The ink for the variables `CLICOLOR`, `NO_COLOR` and `CLICOLOR_FORCE`. Force wins over
everything, then the wish for no colours; otherwise a terminal is written to in colours unless
they are switched off. -/
def ofEnvironment (wished unwanted forced : Option String) (terminal : Bool) : Ink :=
  if isOn forced = some true then coloured
  else if unwanted.isSome then plain
  else if (isOn wished).getD true && terminal then coloured
  else plain

/-- The sequence that switches every style off. -/
def off : List Char := ['\x1b', '[', '0', 'm']

/-- Puts a sequence after each one that switches styles off. -/
def resume (start : List Char) : List Char → List Char
  | '\x1b' :: '[' :: '0' :: 'm' :: rest => off ++ start ++ resume start rest
  | c :: rest => c :: resume start rest
  | [] => []

/-- Fills a text with spaces up to a number of characters. -/
def fill (width : Nat) (text : String) : String :=
  text ++ String.ofList (List.replicate (width - text.length) ' ')

/-- Puts spaces before a text up to a number of characters. -/
def fillBefore (width : Nat) (text : String) : String :=
  String.ofList (List.replicate (width - text.length) ' ') ++ text

/-- A text in a style. The style goes on after sequences in the text that switch it off. -/
def paint (ink : Ink) (style : Style) (text : String) : String :=
  match ink with
  | plain => text
  | coloured =>
    let start := ('\x1b' :: '[' :: style.codes.toList) ++ ['m']
    String.ofList (start ++ resume start text.toList ++ off)

end Ink

end Gloss

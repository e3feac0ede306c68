import Gloss.Outline.NameList

/-!
# Walking over the host tokens

One forward walk finds the declaration sites of a file. It keeps a stack of
`Frame`s for the open brackets and a few expectations: the owner of the next
parameter list, the class that the next brace opens, the name that the next
expression is bound to, and the depth of the open declaration.

The walk goes from host token to host token. Of the annotations between two of
them it looks at the line feeds, which may end a statement or start a member.
-/

namespace Gloss

open Token (Seated)

/-- Who owns a parameter list. -/
inductive Owner : Type
  | function (name : String)
  | constructor (owner : String)
deriving DecidableEq, Repr

namespace Owner

/-- The name under which the result of the owner is known. -/
def name : Owner → String
  | function name => name
  | constructor owner => s!"{owner}.constructor"

/-- The site of a parameter. -/
def site (slot : Nat) (param : String) : Owner → Site
  | function name => .param name slot param
  | constructor owner => .constructorParam owner slot param

end Owner

/-- An open bracket. -/
inductive Frame : Type
  | group
  | block
  | classBody (name : String)
  | params (owner : Owner) (slot : Nat) (fresh : Bool)
deriving DecidableEq, Repr

/-- What the walk knows about the tokens before the current one. -/
structure Walk : Type where
  /-- Open brackets, innermost first. -/
  frames : List Frame
  /-- The owner of the next parameter list, and the depth where it may open. -/
  params : Option (Owner × Nat)
  /-- The name of the class whose body is next, and the depth where it may open. -/
  heading : Option (String × Nat)
  /-- The name that an expression is bound to, and the number of its first token. -/
  binding : Option (String × Nat)
  /-- The depth of an open declaration. -/
  declaration : Option Nat
deriving DecidableEq, Repr

/-- The current token with its surroundings, and its number among the host tokens. -/
structure Place : Type where
  number : Nat
  prev : Option Seated
  token : Seated
  rest : List Seated
deriving Repr

namespace Place

/-- The current token and those after it. -/
def tokens (p : Place) : List Seated := p.token :: p.rest

/-- Whether the word is used as a property name. -/
def namesProperty (p : Place) : Bool :=
  p.prev.any (·.isPunct ".") ||
    p.rest.head?.any fun t => t.isPunct ":" || t.isPunct "(" || t.isPunct "="

/-- Whether a class body expects a member here. -/
def atMemberStart (p : Place) : Bool :=
  p.prev.isNone || p.token.breaksLine ||
    p.prev.any fun t => t.text == "\x7b" || t.text == "\x7d" || t.text == ";"

/-- Whether the declaration before this token goes on although a line ends. -/
def continues (p : Place) : Bool := p.prev.any fun t => t.text == "," || t.text == "="

/-- Whether an arrow follows the parenthesis that closes this level, with the given number of
parentheses open inside it. -/
def closesBeforeArrow : Nat → List Seated → Bool
  | _, [] => false
  | inside, t :: rest =>
    if t.isPunct "(" then closesBeforeArrow (inside + 1) rest
    else if t.isPunct ")" then
      match inside with
      | 0 => rest.head?.any (·.kind == .arrow)
      | inside + 1 => closesBeforeArrow inside rest
    else closesBeforeArrow inside rest

/-- Whether the parenthesis at this place opens the parameters of an arrow function. -/
def opensArrow (p : Place) : Bool := closesBeforeArrow 0 p.rest

/-- The name of a function or class without one. -/
def anonymous (p : Place) : String := s!"<anonymous@{p.token.span.start}>"

end Place

/-- What one step of the walk does: the knowledge after it, the number of tokens that it takes
up, and what it places. -/
structure Stride : Type where
  walk : Walk
  length : Nat
  placements : List Placement
deriving Repr

namespace Walk

/-- At the start of a file. -/
def initial : Walk := ⟨[], none, none, none, none⟩

/-- The number of open brackets. -/
def depth (w : Walk) : Nat := w.frames.length

/-- Closes the declaration when its statement ends before the current token. -/
def trackDeclaration (w : Walk) (p : Place) : Walk :=
  match w.declaration with
  | none => w
  | some depth =>
    if w.depth < depth then { w with declaration := none }
    else if depth < w.depth then w
    else if p.token.isPunct ";" ∨
        (p.token.breaksLine = true ∧ p.continues = false ∧ p.token.isPunct "," = false) then
      { w with declaration := none }
    else w

/-- Whether a declaration is open at this depth. -/
def declaring (w : Walk) : Bool := w.declaration == some w.depth

/-- The name that the expression at this place is bound to, or one made from its offset. -/
def boundName (w : Walk) (p : Place) : String :=
  match w.binding with
  | some (name, number) => if number = p.number then name else p.anonymous
  | none => p.anonymous

/-- Forgets the bound name. -/
def unbind (w : Walk) : Walk := { w with binding := none }

/-- Over one token, without a change. -/
def pass (w : Walk) : Stride := ⟨w, 1, []⟩

/-- The declared name that the given token is, when it is an identifier. -/
def declaredName : Option Seated → List Placement
  | some t => if t.kind = .ident then Placement.both t.index (.declarator t.text) else []
  | none => []

/-- Opens a bracket. -/
def push (w : Walk) (frame : Frame) : Walk := { w with frames := frame :: w.frames }

/-- Closes a bracket; a class head inside it is given up. -/
def pop (w : Walk) : Walk :=
  let frames := w.frames.tail
  { w with frames := frames, heading := w.heading.filter (·.2 ≤ frames.length) }

/-- A word that may modify a parameter. -/
def isParamModifier (t : Token) : Bool :=
  t.kind == .ident &&
    ["public", "private", "protected", "readonly", "override"].contains t.text

/-- Reads a token directly inside a parameter list. The step is `none` when the token is read
like any other. -/
def paramStep (w : Walk) (p : Place) (owner : Owner) (slot : Nat) (fresh : Bool)
    (outer : List Frame) : Walk × Option (List Placement) :=
  let t := p.token
  let within (slot : Nat) (fresh : Bool) : Walk :=
    { w with frames := .params owner slot fresh :: outer }
  if t.isPunct "," then (within (slot + 1) true, some [])
  else if t.isPunct ")" then
    ({ w with frames := outer }, some [.trailing t.index (.returnSlot owner.name)])
  else if !fresh then (w, none)
  else if t.isPunct "." then (w, some [])
  else if isParamModifier t.toToken && p.rest.head?.any (·.kind == .ident) then (w, some [])
  else if t.kind != .ident then (within slot false, none)
  else (within slot false, some (Placement.both t.index (owner.site slot t.text)))

/-- The number of modifiers before the name of a class member. -/
def modifierRun : List Seated → Nat
  | t :: next :: rest =>
    if (t.isMemberModifier || t.isPunct "*") && next.isName && !next.breaksLine then
      1 + modifierRun (next :: rest)
    else 0
  | _ => 0

/-- The name of a class member; a string names the member by its text. -/
def memberName (t : Token) : String :=
  if t.kind = .string then Clause.unquote t.text else t.text

/-- The owner of the parameters of a method. -/
def methodOwner (owner member : String) : Owner :=
  if member = "constructor" then .constructor owner else .function s!"{owner}.{member}"

/-- Reads the head of a class member, when one stands here. -/
def memberStep (w : Walk) (p : Place) (owner : String) : Option Stride :=
  let run := modifierRun p.tokens
  match p.tokens.drop run with
  | [] => none
  | t :: rest =>
    if t.isName then
      let name := memberName t.toToken
      let placements := Placement.both t.index (.member owner name)
      if rest.head?.any (·.isPunct "(") then
        some ⟨{ w with params := some (methodOwner owner name, w.depth) }, run + 1, placements⟩
      else if rest.head?.any (·.isPunct "=") then
        some ⟨{ w with binding := some (s!"{owner}.{name}", p.number + run + 2) }, run + 2,
          placements⟩
      else some ⟨w, run + 1, placements⟩
    else none

/-- Reads `function` with the star and the name after it. -/
def functionHead (w : Walk) (p : Place) : Stride :=
  let star := if p.rest.head?.any (·.isPunct "*") then 1 else 0
  match p.rest[star]? with
  | some t =>
    if t.kind = .ident then
      ⟨{ w with params := some (.function t.text, w.depth) }, star + 2, []⟩
    else
      ⟨{ w.unbind with params := some (.function (w.boundName p), w.depth) }, star + 1, []⟩
  | none => ⟨{ w.unbind with params := some (.function (w.boundName p), w.depth) }, star + 1, []⟩

/-- Reads `class` with the name after it. -/
def classHead (w : Walk) (p : Place) : Stride :=
  match p.rest.head? with
  | some t =>
    if t.kind = .ident ∧ t.text ≠ "extends" then
      ⟨{ w with heading := some (t.text, w.depth) }, 2, []⟩
    else ⟨{ w.unbind with heading := some (w.boundName p, w.depth) }, 1, []⟩
  | none => ⟨{ w.unbind with heading := some (w.boundName p, w.depth) }, 1, []⟩

/-- Reads an opening parenthesis. -/
def openParen (w : Walk) (p : Place) : Stride :=
  let settled := { w with params := none }
  match w.params.filter (·.2 == w.depth) with
  | some (owner, _) => ⟨settled.push (.params owner 0 true), 1, []⟩
  | none =>
    if p.opensArrow then
      ⟨settled.unbind.push (.params (.function (w.boundName p)) 0 true), 1, []⟩
    else ⟨settled.push .group, 1, []⟩

/-- Reads an opening brace. -/
def openBrace (w : Walk) : Stride :=
  match w.heading.filter (·.2 == w.depth) with
  | some (name, _) => ⟨{ w with heading := none }.push (.classBody name), 1, []⟩
  | none => ⟨w.push .block, 1, []⟩

/-- Reads an equals sign: the name before it is bound to what follows. -/
def bind (w : Walk) (p : Place) : Stride :=
  match p.prev with
  | some t =>
    if t.kind = .ident then ⟨{ w with binding := some (t.text, p.number + 1) }, 1, []⟩ else w.pass
  | none => w.pass

/-- Reads `async`: a name bound to what starts here is bound to what follows. -/
def rebind (w : Walk) (p : Place) : Stride :=
  match w.binding with
  | some (name, number) =>
    ⟨{ w with binding := if number = p.number then some (name, p.number + 1) else none }, 1, []⟩
  | none => w.pass

/-- Reads the only parameter of an arrow function without parentheses. -/
def arrowParam (w : Walk) (p : Place) : Stride :=
  ⟨w.unbind, 1, [.leading p.token.index (.param (w.boundName p) 0 p.token.text),
    .trailing p.token.index (.returnSlot (w.boundName p))]⟩

/-- Where the list of an export clause opens, if the clause has one. -/
def exportBrace? (p : Place) : Option Nat :=
  if Clause.punctAt p.tokens 1 "\x7b" then some 1
  else if Clause.textAt p.tokens 1 = "type" ∧ Clause.punctAt p.tokens 2 "\x7b" then some 2
  else none

/-- Reads a reserved word. -/
def keywordStep (w : Walk) (p : Place) : Stride :=
  let text := p.token.text
  if text = "let" ∨ text = "const" ∨ text = "var" then
    ⟨{ w with declaration := some w.depth }, 1, declaredName p.rest.head?⟩
  else if text = "function" then w.functionHead p
  else if text = "class" ∧ p.namesProperty = false then w.classHead p
  else if text = "import" then
    let clause := Clause.readImport p.tokens
    ⟨w, clause.length, clause.placements⟩
  else if text = "export" then
    match exportBrace? p with
    | some position =>
      let clause := Clause.readExport p.tokens position
      ⟨w, clause.length, clause.placements⟩
    | none => w.pass
  else w.pass

/-- Reads a punctuator. -/
def punctStep (w : Walk) (p : Place) : Stride :=
  let text := p.token.text
  if text = "," ∧ w.declaring = true then
    ⟨w, 1, declaredName p.rest.head?⟩
  else if text = "=" then w.bind p
  else if text = "(" then w.openParen p
  else if text = "[" then ⟨w.push .group, 1, []⟩
  else if text = "\x7b" then w.openBrace
  else if text = ")" ∨ text = "]" ∨ text = "\x7d" then ⟨w.pop, 1, []⟩
  else w.pass

/-- Reads an identifier. -/
def identStep (w : Walk) (p : Place) : Stride :=
  if p.token.text = "async" then w.rebind p
  else if p.rest.head?.any (·.kind == .arrow) then w.arrowParam p
  else w.pass

/-- Reads a token that no enclosing list or class body claims. -/
def plainStep (w : Walk) (p : Place) : Stride :=
  match p.token.kind with
  | .keyword => w.keywordStep p
  | .punct => w.punctStep p
  | .ident => w.identStep p
  | _ => w.pass

/-- Reads a token outside of parameter lists: a class body may expect a member. -/
def openStep (w : Walk) (p : Place) : Stride :=
  match w.frames with
  | .classBody owner :: _ =>
    if p.atMemberStart then (w.memberStep p owner).getD (w.plainStep p) else w.plainStep p
  | _ => w.plainStep p

/-- Reads the current token. -/
def step (w : Walk) (p : Place) : Stride :=
  let w := w.trackDeclaration p
  match w.frames with
  | .params owner slot fresh :: outer =>
    match w.paramStep p owner slot fresh outer with
    | (w, some placements) => ⟨w, 1, placements⟩
    | (w, none) => w.openStep p
  | _ => w.openStep p

end Walk

end Gloss

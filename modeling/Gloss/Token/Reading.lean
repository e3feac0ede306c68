import Gloss.Note.Scan
import Gloss.Host.Regex
import Gloss.Token

/-!
# Reading a file into tokens

`Reading.ofSource?` cuts a host text into tokens, with an annotation wherever
one can be read at an introducer. A malformed annotation is kept as a flaw, and
its introducer is read again as host text, so the rest of the file is not lost.

The reader follows brackets with a stack of `Scope`s, because the members of a
class body may have private names that look like annotations. A word `class`
that heads a class waits for its body at the depth of scopes where it stands.

Every step reads at least one character (`Piece.length_pos`), so reading ends
with the text.
-/

namespace Gloss

open Host

/-- An open bracket of the host text. -/
inductive Scope : Type
  | paren
  | square
  | brace
  | classBody
deriving DecidableEq, Repr

/-- What the reader knows about the text before the cursor. -/
structure Context : Type where
  /-- Open brackets, innermost first. -/
  scopes : List Scope
  /-- The number of open brackets at which a class head waits for its body. -/
  awaiting : Option Nat
  /-- Line feeds since the last host token. -/
  newlines : Nat
  /-- The last host token. -/
  last : Option Token
  /-- The number of annotations. -/
  notes : Nat
deriving Repr

namespace Context

/-- At the start of a file. -/
def initial : Context := ⟨[], none, 0, none, 0⟩

/-- Whether a class body expects a member name: on a new line, after a brace or a semicolon, or
after a modifier. -/
def atMemberStart (ctx : Context) : Bool :=
  ctx.scopes.head? == some .classBody &&
    (0 < ctx.newlines ||
      match ctx.last with
      | none => true
      | some t =>
        t.text == "\x7b" || t.text == "\x7d" || t.text == ";" || t.isMemberModifier)

/-- Whether the word before the given text names a property and heads no class. -/
def namesProperty (ctx : Context) (after : List Char) : Bool :=
  ctx.last.any (·.isPunct ".") ||
    match after.find? fun c => !Text.isBlank c with
    | some c => c == ':' || c == '(' || c == '='
    | none => false

/-- The context after a class head. -/
def awaitClass (ctx : Context) : Context := { ctx with awaiting := some ctx.scopes.length }

/-- The context after an opening bracket. -/
def enter (ctx : Context) (scope : Scope) : Context := { ctx with scopes := scope :: ctx.scopes }

/-- What an opening brace opens. -/
def braceScope (ctx : Context) : Scope :=
  if ctx.awaiting = some ctx.scopes.length then .classBody else .brace

/-- The context after an opening brace: a class head has found its body. -/
def enterBrace (ctx : Context) : Context :=
  let opened := ctx.enter ctx.braceScope
  if ctx.awaiting = some ctx.scopes.length then { opened with awaiting := none } else opened

/-- The context after a closing bracket: a class head inside the brackets is given up. -/
def leave (ctx : Context) : Context :=
  let scopes := ctx.scopes.tail
  let awaiting := ctx.awaiting.filter (· ≤ scopes.length)
  { ctx with scopes := scopes, awaiting := awaiting }

/-- The context after a semicolon: a class head beside it is given up. -/
def endStatement (ctx : Context) : Context :=
  if ctx.awaiting = some ctx.scopes.length then { ctx with awaiting := none } else ctx

/-- The context after a punctuator, and the scope that it opens. -/
def punctuate (ctx : Context) (c : Char) : Context × Option Scope :=
  match c with
  | '(' => (ctx.enter .paren, some .paren)
  | '[' => (ctx.enter .square, some .square)
  | '{' => (ctx.enterBrace, some ctx.braceScope)
  | ')' | ']' | '}' => (ctx.leave, none)
  | ';' => (ctx.endStatement, none)
  | _ => (ctx, none)

/-- The context after a host token. -/
def afterHost (ctx : Context) (t : Token) : Context := { ctx with newlines := 0, last := some t }

/-- The context after an annotation. -/
def afterNote (ctx : Context) : Context :=
  { ctx with notes := ctx.notes + 1 }

end Context

/-- The characters that a number may go on with. -/
def isNumberPart (c : Char) : Bool := Text.isAlphanumeric c || c == '.' || c == '_'

/-- The kind and length of the word, the number or the punctuator that starts with the given
character. -/
def Token.plainShape (c : Char) (rest : List Char) : Token.Kind × Nat :=
  if isIdentifierStart c then
    let length := 1 + identifierRun rest
    if Token.keywords.contains (String.ofList ((c :: rest).take length)) then (.keyword, length)
    else (.ident, length)
  else if c.isDigit then (.number, 1 + (rest.takeWhile isNumberPart).length)
  else if c = '=' ∧ rest.head? = some '>' then (.arrow, 2)
  else (.punct, 1)

/-- The kind and length of the host token that starts with the given character, after the given
token. -/
def Token.shape (last : Option Token) (c : Char) (rest : List Char) : Token.Kind × Nat :=
  match Literal.extent? (c :: rest) with
  | some extent => (.string, extent.lengthIn (c :: rest))
  | none =>
    match Regex.extent? (last.map (·.text)) (c :: rest) with
    | some (.closed length) => (.regex, length)
    | _ => Token.plainShape c rest

/-- The kind and length of an introducer that starts no annotation: a private name when an
identifier follows, and a punctuator otherwise. -/
def Token.introducerShape (rest : List Char) : Token.Kind × Nat :=
  if rest.head?.any isIdentifierStart then (.privateName, 1 + identifierRun rest) else (.punct, 1)

/-- What one step of the reader yields: a token, what was found at an introducer, and the scope
that the token opens. -/
structure Piece : Type where
  token : Token
  length : Nat
  scan : Option Scan
  opened : Option Scope
deriving DecidableEq, Repr

namespace Piece

/-- The token of the next characters. -/
def tokenAt (c : Cursor) (newlines : Nat) (kind : Token.Kind) (length : Nat) : Token :=
  ⟨kind, c.lexeme length, c.span length, newlines⟩

/-- Reads a host token that is no introducer. -/
def readHost (ctx : Context) (c : Cursor) (newlines : Nat) (ch : Char) (rest : List Char) :
    Piece × Context :=
  let shape := Token.shape ctx.last ch rest
  let token := tokenAt c newlines shape.1 shape.2
  let (ctx, opened) :=
    if token.text = "class" ∧ ctx.namesProperty (c.rest.drop shape.2) = false then
      (ctx.awaitClass, none)
    else if shape.1 = .punct then ctx.punctuate ch
    else (ctx, none)
  (⟨token, shape.2, none, opened⟩, ctx.afterHost token)

/-- Reads an introducer: as an annotation if one can be read, and else as host text. -/
def readIntroducer (d : Dialect) (ctx : Context) (c : Cursor) (newlines : Nat)
    (rest : List Char) : Piece × Context :=
  match Note.scan d ctx.atMemberStart c with
  | .found a length =>
    (⟨tokenAt c newlines (.note ctx.notes) length, length, some (.found a length),
      none⟩, ctx.afterNote)
  | scan =>
    let shape := Token.introducerShape rest
    let token := tokenAt c newlines shape.1 shape.2
    (⟨token, shape.2, some scan, none⟩, ctx.afterHost token)

/-- Reads the next token, whose first character is given. -/
def read (d : Dialect) (ctx : Context) (c : Cursor) (newlines : Nat) (ch : Char)
    (rest : List Char) : Piece × Context :=
  let ctx := { ctx with newlines := ctx.newlines + newlines }
  if ch = d.introducer then readIntroducer d ctx c newlines rest
  else readHost ctx c newlines ch rest

/-- The annotation of a piece. -/
def note? (p : Piece) : Option Note :=
  match p.scan with
  | some (.found a _) => some a
  | _ => none

/-- The malformed annotation of a piece. -/
def malformed? (p : Piece) : Option Malformed :=
  match p.scan with
  | some (.malformed m) => some m
  | _ => none

/-- Whether the hashbang line of a piece is torn. -/
def isTorn (p : Piece) : Bool :=
  match p.scan with
  | some .torn => true
  | _ => false

end Piece

namespace Note

theorem wordOpening_pos (d : Dialect) (c : Cursor) : 0 < wordOpening d c := by
  unfold wordOpening
  split
  · split <;> decide
  · decide

theorem length_pos_of_flagged {c : Cursor} {form : Form} {opening payload length : Nat}
    {a : Note} (pos : 0 < opening) (h : flagged c form opening payload = .found a length) :
    0 < length := by
  obtain ⟨-, rfl⟩ := Scan.found.inj h
  omega

theorem length_pos_of_scanWord {d : Dialect} {memberStart : Bool} {c : Cursor} {a : Note}
    {length : Nat} (h : scanWord d memberStart c = .found a length) : 0 < length := by
  have opening := wordOpening_pos d c
  unfold scanWord at h
  split at h
  · cases h
  · split at h
    · split at h
      · cases h
      · split at h
        · cases h
        · exact length_pos_of_flagged opening h
    · split at h
      · exact length_pos_of_flagged opening h
      · cases h

/-- An annotation takes up at least its introducer. -/
theorem length_pos_of_scan {d : Dialect} {memberStart : Bool} {c : Cursor} {a : Note}
    {length : Nat} (h : scan d memberStart c = .found a length) : 0 < length := by
  unfold scan at h
  split at h
  · cases h
  · split at h
    · cases h
    · split at h
      · exact length_pos_of_scanWord h
      · split at h
        · unfold scanHashbang at h
          split at h
          · cases h
          · obtain ⟨-, rfl⟩ := Scan.found.inj h
            omega
        · split at h
          · unfold scanBlock at h
            split at h
            · cases h
            · split at h
              · obtain ⟨-, rfl⟩ := Scan.found.inj h
                omega
              · cases h
          · split at h
            · unfold scanQuoted at h
              split at h
              · cases h
              · cases h
              · obtain ⟨-, rfl⟩ := Scan.found.inj h
                omega
            · exact length_pos_of_scanWord h

end Note

/-- A regular expression that starts here is more than a slash and lies in the text. -/
theorem Host.Regex.extent?_closed_le {prev : Option String} {cs : List Char} {length : Nat}
    (h : Regex.extent? prev cs = some (.closed length)) : 1 < length ∧ length ≤ cs.length := by
  unfold Regex.extent? at h
  split at h
  · next rest =>
    split at h
    · cases h
    · split at h
      · cases h
      · cases closed : Regex.closeFlags rest with
        | none => simp [closed, Extent.ofEnd] at h
        | some n =>
          have := Regex.closeFlags_le closed
          simp [closed, Extent.ofEnd] at h
          simp only [List.length_cons]
          omega
  · cases h

theorem Token.plainShape_length_pos (c : Char) (rest : List Char) :
    0 < (Token.plainShape c rest).2 := by
  unfold Token.plainShape
  split
  · dsimp only
    split <;> simp only <;> omega
  · split
    · simp only
      omega
    · split <;> simp

theorem Token.shape_length_pos (last : Option Token) (c : Char) (rest : List Char) :
    0 < (Token.shape last c rest).2 := by
  unfold Token.shape
  split
  · next extent literal =>
    cases extent with
    | closed length => exact (Literal.extent?_closed_le literal).1
    | unclosed => simp [Extent.lengthIn]
  · split
    · next length regex => exact Nat.lt_trans Nat.one_pos (Regex.extent?_closed_le regex).1
    · exact Token.plainShape_length_pos c rest

/-- Every piece takes up at least one character. -/
theorem Piece.length_pos (d : Dialect) (ctx : Context) (c : Cursor) (newlines : Nat) (ch : Char)
    (rest : List Char) : 0 < (Piece.read d ctx c newlines ch rest).1.length := by
  unfold Piece.read
  dsimp only
  split
  · unfold Piece.readIntroducer
    split
    · next found => exact Note.length_pos_of_scan found
    · dsimp only [Token.introducerShape]
      split <;> simp only <;> omega
  · exact Token.shape_length_pos ..

namespace Reading

/-- The pieces of a text, from a cursor on. -/
def pieces (d : Dialect) (ctx : Context) (c : Cursor) : List Piece :=
  let gap := Comment.gap c.rest
  let newlines := (c.rest.take gap).count '\n'
  let c' := c.advance gap
  match _next : c'.rest with
  | [] => []
  | ch :: rest =>
    let step := Piece.read d ctx c' newlines ch rest
    step.1 :: pieces d step.2 (c'.advance step.1.length)
termination_by c.rest.length
decreasing_by
  have := Piece.length_pos d ctx (c.advance (Comment.gap c.rest))
    ((c.rest.take (Comment.gap c.rest)).count '\n') ch rest
  have size : (c.advance (Comment.gap c.rest)).rest.length = (ch :: rest).length :=
    congrArg List.length _next
  simp only [Cursor.advance_rest, List.length_drop, List.length_cons] at size ⊢
  omega

end Reading

/-- A file as it was read: its tokens, its annotations in order, and the malformed ones. -/
structure Reading : Type where
  tokens : List Token
  notes : List Note
  malformed : List Malformed
deriving DecidableEq, Repr

namespace Reading

/-- Puts pieces together. -/
def ofPieces (ps : List Piece) : Reading where
  tokens := ps.map (·.token)
  notes := ps.filterMap (·.note?)
  malformed := ps.filterMap (·.malformed?)

/-- The pieces of a whole file. -/
def piecesOf (d : Dialect) (source : String) : List Piece :=
  pieces d .initial (.start source.toList)

/-- Reads a file, as if a torn hashbang line were host text. -/
def ofSource (d : Dialect) (source : String) : Reading := ofPieces (piecesOf d source)

/-- Reads a file. There is no reading when its hashbang line is torn. -/
def ofSource? (d : Dialect) (source : String) : Option Reading :=
  if (piecesOf d source).any (·.isTorn) then none else some (ofSource d source)

end Reading

/-- A reading of a file is the one that there is. -/
theorem Reading.eq_ofSource {d : Dialect} {source : String} {r : Reading}
    (read : ofSource? d source = some r) : r = ofSource d source := by
  unfold ofSource? at read
  split at read
  · cases read
  · exact (Option.some.inj read).symm

/-! ## Torn lines -/

theorem Note.scanWord_ne_torn (d : Dialect) (memberStart : Bool) (c : Cursor) :
    scanWord d memberStart c ≠ .torn := by
  unfold scanWord
  repeat' split
  all_goals simp [flagged]

/-- Only a hashbang marker that is a carriage return tears a line. -/
theorem Note.scan_ne_torn {d : Dialect} (h : d.hashbang ≠ some '\x0d') (memberStart : Bool)
    (c : Cursor) : scan d memberStart c ≠ .torn := by
  unfold scan
  split
  · simp
  · split
    · simp
    · split
      · exact scanWord_ne_torn d memberStart c
      · next ch _ =>
        split
        · next mark =>
          unfold scanHashbang
          split
          · next torn => exact absurd (torn.1 ▸ mark.2) h
          · simp
        · split
          · unfold scanBlock
            repeat' split
            all_goals simp
          · split
            · unfold scanQuoted
              split <;> simp
            · exact scanWord_ne_torn d memberStart c

theorem Piece.isTorn_read {d : Dialect} (h : d.hashbang ≠ some '\x0d') (ctx : Context)
    (c : Cursor) (newlines : Nat) (ch : Char) (rest : List Char) :
    (Piece.read d ctx c newlines ch rest).1.isTorn = false := by
  unfold Piece.read
  dsimp only
  split
  · unfold readIntroducer
    split
    · rfl
    · unfold isTorn
      have := Note.scan_ne_torn h
        ({ ctx with newlines := ctx.newlines + newlines } : Context).atMemberStart c
      dsimp only
      split
      · next torn => exact absurd (Option.some.inj torn) this
      · rfl
  · rfl

namespace Reading

theorem isTorn_pieces {d : Dialect} (h : d.hashbang ≠ some '\x0d') (ctx : Context) (c : Cursor) :
    (pieces d ctx c).any (·.isTorn) = false := by
  fun_induction pieces d ctx c with
  | case1 => rfl
  | case2 ctx c gap newlines c' ch rest next step more =>
    simp only [List.any_cons, more, Bool.or_false]
    exact Piece.isTorn_read h ..

/-- Every file can be read when the hashbang marker is no carriage return. -/
theorem ofSource?_eq_some {d : Dialect} (h : d.hashbang ≠ some '\x0d') (source : String) :
    ofSource? d source = some (ofSource d source) := by
  unfold ofSource? piecesOf
  rw [isTorn_pieces h]
  rfl

end Reading

end Gloss

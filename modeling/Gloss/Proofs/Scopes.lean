import Gloss.Proofs.Boundary
import Mathlib.Algebra.Ring.Nat
import Mathlib.Tactic.SplitIfs

/-!
# Brackets along a reading

`Reading.Run` is the part of a reading that yields given pieces, with the states
of the reader before and after. What the reader knows on the way is a fact about
the tokens before the cursor and the text (`Context.Knows`): its last host token
is theirs, and a word heads a class by them and the text after it
(`Token.headsClass`).

`Context.Moves` lists all that a token can do to the open brackets and to the
class head that waits for its body, and `Piece.moves_readAfter` says that no
step does anything else. `Token.turn` is what it does to their number.
-/

namespace Gloss

open Host

/-! ## Tokens and the text around them -/

/-- The text after an offset. -/
def Text.after (source : List Char) (offset : Nat) : List Char :=
  ((splitBytes? offset source).map (·.2)).getD []

theorem Text.after_append (before rest : List Char) :
    after (before ++ rest) (width before) = rest := by
  rw [after, splitBytes?_width_append]
  rfl

namespace Token

/-- The last host token. -/
def lastHost (before : List Token) : Option Token := before.reverse.find? fun t => !t.isNote

/-- The annotations after the last host token, nearest first. -/
def lastNotes (before : List Token) : List Token := before.reverse.takeWhile (·.isNote)

/-- Whether a token heads a class: the word `class`, not after a full stop, and with neither a
colon nor a parenthesis nor an equals sign as the next visible character. -/
def headsClass (source : List Char) (before : List Token) (t : Token) : Bool :=
  t.kind == .keyword && t.text == "class" &&
    !(lastHost before).any (·.isPunct ".") &&
    !((Text.after source t.span.stop).find? fun c => !Text.isBlank c).any fun c =>
      c == ':' || c == '(' || c == '='

/-- An opening bracket. -/
def opensBracket (t : Token) : Bool := t.isPunct "(" || t.isPunct "[" || t.isPunct "\x7b"

/-- A closing bracket. -/
def closesBracket (t : Token) : Bool := t.isPunct ")" || t.isPunct "]" || t.isPunct "\x7d"

/-- The number of open brackets after a token. A bracket that nothing opened cannot be closed. -/
def turn (height : Nat) (t : Token) : Option Nat :=
  if t.opensBracket then some (height + 1)
  else if t.closesBracket then if height = 0 then none else some (height - 1)
  else some height

/-- The number of open brackets after some tokens. Tokens whose brackets are properly nested take
every height back to itself. -/
def height? (height : Nat) (ts : List Token) : Option Nat := ts.foldlM turn height

theorem height?_cons (height : Nat) (t : Token) (ts : List Token) :
    height? height (t :: ts) = (turn height t).bind (height? · ts) := rfl

theorem lastHost_concat (before : List Token) (t : Token) :
    lastHost (before ++ [t]) = if t.isNote then lastHost before else some t := by
  rw [lastHost, List.reverse_append]
  cases note : t.isNote <;> simp [lastHost, note]

theorem lastNotes_concat (before : List Token) (t : Token) :
    lastNotes (before ++ [t]) = if t.isNote then t :: lastNotes before else [] := by
  rw [lastNotes, List.reverse_append]
  cases note : t.isNote <;> simp [lastNotes, note]

theorem isPunct_eq_false {t : Token} (kind : t.kind ≠ .punct) (text : String) :
    t.isPunct text = false := by
  simp [isPunct, kind]

end Token

namespace Token

theorem opensBracket_of_ne {t : Token} (kind : t.kind ≠ .punct) : t.opensBracket = false := by
  simp only [opensBracket, isPunct_eq_false kind, Bool.or_false]

theorem closesBracket_of_ne {t : Token} (kind : t.kind ≠ .punct) : t.closesBracket = false := by
  simp only [closesBracket, isPunct_eq_false kind, Bool.or_false]

end Token

/-! ## What one token does -/

/-- What a token can do to the open brackets and to the class head that waits. `heads` says whether
the token heads a class; then come the scope that it opens, the open brackets after it, and the
depth at which a class head then waits. -/
inductive Context.Moves (ctx : Context) (t : Token) :
    Bool → Option Scope → List Scope → Option Nat → Prop
  | head : (∀ text, t.isPunct text = false) →
    Moves ctx t true none ctx.scopes (some ctx.scopes.length)
  | opening {scope : Scope} : t.opensBracket = true → t.isPunct "\x7b" = false →
    scope ≠ .classBody → Moves ctx t false (some scope) (scope :: ctx.scopes) ctx.awaiting
  | brace : t.isPunct "\x7b" = true →
    Moves ctx t false (some ctx.braceScope) (ctx.braceScope :: ctx.scopes)
      (ctx.awaiting.filter (· ≠ ctx.scopes.length))
  | closing : t.closesBracket = true →
    Moves ctx t false none ctx.scopes.tail (ctx.awaiting.filter (· ≤ ctx.scopes.tail.length))
  | semicolon : t.isPunct ";" = true →
    Moves ctx t false none ctx.scopes (ctx.awaiting.filter (· ≠ ctx.scopes.length))
  | other : t.opensBracket = false → t.closesBracket = false →
    Moves ctx t false none ctx.scopes ctx.awaiting

section Moves

variable {ctx : Context} {ch : Char} {t : Token}

/-- A class head that has found its body, or is given up, waits no more. -/
theorem filter_ne_eq_ite (awaiting : Option Nat) (depth : Nat) :
    awaiting.filter (· ≠ depth) = if awaiting = some depth then none else awaiting := by
  cases awaiting with
  | none => simp
  | some n => by_cases same : n = depth <;> simp [same]

theorem Token.isPunct_single (kind : t.kind = .punct) (text : t.text = String.ofList [ch])
    (c : Char) : t.isPunct (String.ofList [c]) = (ch == c) := by
  rw [isPunct, kind, text, Bool.eq_iff_iff]
  simp [String.singleton_inj]

/-- A punctuator moves the brackets as its character does. -/
theorem Context.moves_punctuate (kind : t.kind = .punct) (text : t.text = String.ofList [ch]) :
    Moves ctx t false (ctx.punctuate ch).2 (ctx.punctuate ch).1.scopes
      (ctx.punctuate ch).1.awaiting := by
  have here := Token.isPunct_single kind text
  have opens : t.opensBracket = (ch == '(' || ch == '[' || ch == '{') := by
    rw [← here, ← here, ← here]
    rfl
  have closes : t.closesBracket = (ch == ')' || ch == ']' || ch == '}') := by
    rw [← here, ← here, ← here]
    rfl
  unfold punctuate
  split
  · exact .opening opens (here '{') (by decide)
  · exact .opening opens (here '{') (by decide)
  · have moves : Moves ctx t _ _ _ _ := .brace (here '{')
    rw [filter_ne_eq_ite] at moves
    unfold enterBrace
    dsimp only
    split
    · next waits => rwa [if_pos waits] at moves
    · next waits => rwa [if_neg waits] at moves
  · exact .closing closes
  · exact .closing closes
  · exact .closing closes
  · have moves : Moves ctx t _ _ _ _ := .semicolon (here ';')
    rw [filter_ne_eq_ite] at moves
    unfold endStatement
    split
    · next waits => rwa [if_pos waits] at moves
    · next waits => rwa [if_neg waits] at moves
  · exact .other (by simp_all) (by simp_all)

end Moves

/-! ## What the reader knows -/

/-- The reader knows the tokens before the cursor: the last host token and the line feeds after it,
and its cursor is in the text. -/
structure Context.Knows (ctx : Context) (c : Cursor) (source : List Char) (before : List Token) :
    Prop where
  last : ctx.last = Token.lastHost before
  newlines : ctx.newlines = ((Token.lastNotes before).map (·.newlinesBefore)).sum
  text : ∃ past, source = past ++ c.rest ∧ c.offset = Text.width past

theorem Context.knows_start (source : List Char) :
    Context.initial.Knows (.start source) source [] :=
  ⟨rfl, rfl, ⟨[], rfl, rfl⟩⟩

section Step

variable {d : Dialect} {ctx : Context} {c : Cursor} {gap rest : List Char} {ch : Char}
  {source : List Char} {before : List Token}

/-- A word `class` is a keyword. -/
theorem Token.shape_class (last : Option Token) (ch : Char) (rest : List Char)
    (text : String.ofList ((ch :: rest).take (shape last ch rest).2) = "class") :
    (shape last ch rest).1 = .keyword := by
  have pos := shape_length_pos last ch rest
  have first : ch = 'c' := by
    obtain ⟨n, size⟩ : ∃ n, (shape last ch rest).2 = n + 1 :=
      ⟨_, (Nat.succ_pred_eq_of_pos pos).symm⟩
    have chars := congrArg String.toList text
    rw [String.toList_ofList, size, List.take_succ_cons] at chars
    exact (List.cons.inj chars).1
  subst first
  have plain : shape last 'c' rest = plainShape 'c' rest := by
    rw [shape, Literal.extent?_eq_none.mpr (by decide), Regex.extent?_of_ne_slash (by decide)]
  have word : isIdentifierStart 'c' = true := by decide
  rw [plain] at text ⊢
  rw [plainShape, if_pos word] at text ⊢
  dsimp only at text ⊢
  split at text
  · next reserved => rw [if_pos reserved]
  · next free =>
    dsimp only at text
    rw [text] at free
    exact absurd (by decide) free

/-- A punctuator is one character. -/
theorem Token.shape_punct (last : Option Token) (ch : Char) (rest : List Char)
    (punct : (shape last ch rest).1 = .punct) : (shape last ch rest).2 = 1 := by
  have plain (punct : (plainShape ch rest).1 = .punct) : (plainShape ch rest).2 = 1 := by
    unfold plainShape at punct ⊢
    dsimp only at punct ⊢
    split_ifs at punct ⊢
    rfl
  unfold shape at punct ⊢
  split at punct
  · cases punct
  · split at punct
    · cases punct
    · exact plain punct

/-- The text after the offset of a cursor is the text that the cursor has left. -/
theorem Context.Knows.after_advance (knows : ctx.Knows c source before) (length : Nat) :
    Text.after source (c.advance length).offset = (c.advance length).rest := by
  obtain ⟨past, whole, offset⟩ := knows.text
  have split : source = past ++ c.rest.take length ++ (c.advance length).rest := by
    rw [Cursor.advance_rest, List.append_assoc, List.take_append_drop, whole]
  have here : (c.advance length).offset = Text.width (past ++ c.rest.take length) := by
    rw [Cursor.advance_offset, offset, Text.width_append]
  rw [here, split]
  exact Text.after_append _ _

/-- Line feeds before a token do not change what it can do. -/
theorem Context.Moves.of_afterGap {t : Token} {heads : Bool} {opened : Option Scope}
    {scopes : List Scope} {awaiting : Option Nat} {newlines : Nat}
    (moves : (ctx.afterGap newlines).Moves t heads opened scopes awaiting) :
    ctx.Moves t heads opened scopes awaiting := by
  cases moves with
  | head word => exact .head word
  | opening opens other plain => exact .opening opens other plain
  | brace brace => exact .brace brace
  | closing closes => exact .closing closes
  | semicolon semicolon => exact .semicolon semicolon
  | other opens closes => exact .other opens closes

/-- The introducer is none of the brackets that are counted. -/
def Dialect.sparesBrackets (d : Dialect) : Bool :=
  !(['(', '[', '{', ')', ']', '}'].contains d.introducer)

theorem Dialect.sparesBrackets_of_valid (valid : d.Valid) : d.sparesBrackets = true := by
  obtain ⟨-, -, clash, -⟩ := valid_iff.mp valid
  rw [sparesBrackets, Bool.not_eq_true', ← Bool.not_eq_true, List.contains_iff_mem]
  intro bracket
  have all : ['(', '[', '{', ')', ']', '}'].all clashesAsIntroducer = true := by decide
  rw [List.all_eq_true.mp all _ bracket] at clash
  cases clash

/-- An introducer that is no bracket is none as a token either. -/
theorem Token.opensBracket_introducer {t : Token} (spares : d.sparesBrackets = true)
    (kind : t.kind = .punct) (text : t.text = String.ofList [d.introducer]) :
    t.opensBracket = false ∧ t.closesBracket = false := by
  have here := isPunct_single kind text
  have apart : ∀ c ∈ ['(', '[', '{', ')', ']', '}'], t.isPunct (String.ofList [c]) = false := by
    intro c bracket
    rw [here, beq_eq_false_iff_ne]
    rintro rfl
    rw [Dialect.sparesBrackets, List.contains_iff_mem.mpr bracket] at spares
    cases spares
  constructor
  · rw [opensBracket, Bool.or_eq_false_iff, Bool.or_eq_false_iff]
    exact ⟨⟨apart '(' (by decide), apart '[' (by decide)⟩, apart '{' (by decide)⟩
  · rw [closesBracket, Bool.or_eq_false_iff, Bool.or_eq_false_iff]
    exact ⟨⟨apart ')' (by decide), apart ']' (by decide)⟩, apart '}' (by decide)⟩

section Host

variable {c' : Cursor} (newlines : Nat) (last : ctx.last = Token.lastHost before)
  (here : c'.rest = ch :: rest)
  (after : ∀ length, Text.after source (c'.advance length).offset = c'.rest.drop length)

include here in
/-- A punctuator is its first character. -/
theorem Piece.text_readHost (ctx : Context)
    (punct : (readHost ctx c' newlines ch rest).1.token.kind = .punct) :
    (readHost ctx c' newlines ch rest).1.token.text = String.ofList [ch] := by
  have single : (Token.shape ctx.last ch rest).2 = 1 := Token.shape_punct ctx.last ch rest punct
  show String.ofList (c'.rest.take (Token.shape ctx.last ch rest).2) = _
  rw [here, single]
  rfl

include last here after in
/-- The reader takes a word for a class head when the text around it says so. -/
theorem Piece.headsClass_readHost :
    Token.headsClass source before (readHost ctx c' newlines ch rest).1.token = true ↔
      (readHost ctx c' newlines ch rest).1.token.text = "class" ∧
        ctx.namesProperty (c'.rest.drop (Token.shape ctx.last ch rest).2) = false := by
  unfold readHost
  dsimp only
  have reserved := Token.shape_class ctx.last ch rest
  generalize Token.shape ctx.last ch rest = shape at reserved
  obtain ⟨kind, length⟩ := shape
  dsimp only at reserved ⊢
  generalize token : tokenAt c' newlines kind length = t
  have text : t.text = String.ofList ((ch :: rest).take length) := by
    rw [← token, ← here]
    rfl
  have same : t.kind = kind := by rw [← token]; rfl
  have heads : Token.headsClass source before t = (t.kind == .keyword && t.text == "class" &&
      !ctx.namesProperty (c'.rest.drop length)) := by
    have stop : t.span.stop = (c'.advance length).offset := by rw [← token]; rfl
    rw [Token.headsClass, stop, after, Context.namesProperty, last, Bool.not_or, Bool.and_assoc]
    cases (c'.rest.drop length).find? fun c => !Text.isBlank c <;> rfl
  rw [heads]
  simp only [Bool.and_eq_true, beq_iff_eq, Bool.not_eq_true']
  refine ⟨fun head => ⟨head.1.2, head.2⟩, fun head => ⟨⟨?_, head.1⟩, head.2⟩⟩
  rw [same, reserved (text.symm.trans head.1)]

include last here after in
/-- A host token that is no introducer does what it can do. -/
theorem Piece.moves_readHost :
    ctx.Moves (readHost ctx c' newlines ch rest).1.token
      (Token.headsClass source before (readHost ctx c' newlines ch rest).1.token)
      (readHost ctx c' newlines ch rest).1.opened (readHost ctx c' newlines ch rest).2.scopes
      (readHost ctx c' newlines ch rest).2.awaiting := by
  have heads := headsClass_readHost newlines last here after
  have single := text_readHost newlines here ctx
  unfold readHost at heads single ⊢
  dsimp only at heads single ⊢
  generalize token : tokenAt c' newlines (Token.shape ctx.last ch rest).1
    (Token.shape ctx.last ch rest).2 = t at heads single ⊢
  have same : t.kind = (Token.shape ctx.last ch rest).1 := by rw [← token]; rfl
  cases head : Token.headsClass source before t with
  | true =>
    rw [if_pos (heads.mp head)]
    have keyword : t.kind = .keyword := by
      simp only [Token.headsClass, Bool.and_eq_true, beq_iff_eq] at head
      exact head.1.1.1
    exact .head (Token.isPunct_eq_false (by rw [keyword]; decide))
  | false =>
    rw [if_neg (fun yes => absurd (heads.mpr yes) (by rw [head]; decide))]
    by_cases punct : t.kind = .punct
    · rw [if_pos (same.symm.trans punct)]
      exact Context.moves_punctuate punct (single punct)
    · rw [if_neg (same ▸ punct)]
      exact .other (Token.opensBracket_of_ne punct) (Token.closesBracket_of_ne punct)

end Host

/-- A step does to the brackets what its token can do. -/
theorem Piece.moves_readAfter (valid : d.Valid) (knows : ctx.Knows c source before)
    (text : c.rest = gap ++ ch :: rest) :
    ctx.Moves (readAfter d ctx c gap ch rest).1.token
      (Token.headsClass source before (readAfter d ctx c gap ch rest).1.token)
      (readAfter d ctx c gap ch rest).1.opened (readAfter d ctx c gap ch rest).2.scopes
      (readAfter d ctx c gap ch rest).2.awaiting := by
  have here : (c.advance gap.length).rest = ch :: rest := Cursor.rest_advance_append text
  have after (length : Nat) :
      Text.after source ((c.advance gap.length).advance length).offset =
        (c.advance gap.length).rest.drop length := by
    rw [Cursor.advance_advance, knows.after_advance, ← Cursor.advance_advance, Cursor.advance_rest]
  rw [readAfter]
  generalize c.advance gap.length = c' at here after ⊢
  apply Context.Moves.of_afterGap
  by_cases intro : ch = d.introducer
  · cases stands : Note.scan d (ctx.afterGap (gap.count '\n')).atMemberStart c' with
    | found a length =>
      rw [read_note intro stands]
      exact .other (Token.opensBracket_of_ne (by simp [tokenAt]))
        (Token.closesBracket_of_ne (by simp [tokenAt]))
    | plain | malformed | torn =>
      rw [read_plain intro stands (by simp)]
      unfold Token.introducerShape
      split
      · exact .other (Token.opensBracket_of_ne (by simp [tokenAt]))
          (Token.closesBracket_of_ne (by simp [tokenAt]))
      · have text : (tokenAt c' (gap.count '\n') .punct 1).text = String.ofList [d.introducer] := by
          rw [tokenAt, Cursor.lexeme, here, intro]
          rfl
        obtain ⟨opens, closes⟩ := Token.opensBracket_introducer
          (Dialect.sparesBrackets_of_valid valid) rfl text
        exact .other opens closes
  · rw [read_host intro]
    exact Piece.moves_readHost _ knows.last here after

/-- After a host token line feeds are counted anew. -/
theorem Piece.newlines_read {c : Cursor} {newlines : Nat}
    (host : (read d ctx c newlines ch rest).1.note? = none) :
    (read d ctx c newlines ch rest).2.newlines = 0 := by
  by_cases intro : ch = d.introducer
  · cases stands : Note.scan d (ctx.afterGap newlines).atMemberStart c with
    | found a length =>
      rw [read_note intro stands] at host
      cases host
    | plain | malformed | torn =>
      rw [read_plain intro stands (by simp)]
      rfl
  · rw [read_host intro]
    rfl

/-- What the reader knows after a step. -/
theorem Context.Knows.readAfter (knows : ctx.Knows c source before) (d : Dialect) (gap : List Char)
    (ch : Char) (rest : List Char) :
    (Piece.readAfter d ctx c gap ch rest).2.Knows
      ((c.advance gap.length).advance (Piece.readAfter d ctx c gap ch rest).1.length) source
      (before ++ [(Piece.readAfter d ctx c gap ch rest).1.token]) := by
  obtain ⟨past, whole, offset⟩ := knows.text
  have feeds : (Piece.readAfter d ctx c gap ch rest).1.token.newlinesBefore = gap.count '\n' := by
    obtain ⟨kind, token⟩ := Piece.exists_token_read d ctx (c.advance gap.length)
      (gap.count '\n') ch rest
    rw [Piece.readAfter, token]
    rfl
  refine ⟨?_, ?_, ⟨past ++ c.rest.take (gap.length +
    (Piece.readAfter d ctx c gap ch rest).1.length), ?_, ?_⟩⟩
  · rw [Token.lastHost_concat]
    rcases Piece.read_cases d ctx (c.advance gap.length) (gap.count '\n') ch rest with
      ⟨a, length, step, -⟩ | ⟨-, host, last, -⟩
    · rw [Piece.readAfter, step]
      exact knows.last
    · rw [Piece.readAfter, host, last]
      rfl
  · rw [Token.lastNotes_concat]
    rcases Piece.read_cases d ctx (c.advance gap.length) (gap.count '\n') ch rest with
      ⟨a, length, step, -⟩ | ⟨none, host, -⟩
    · rw [Piece.readAfter] at feeds ⊢
      rw [step] at feeds ⊢
      have notes :
          (Piece.ofNote ctx (c.advance gap.length) (gap.count '\n') a length).token.isNote = true :=
        rfl
      rw [notes, if_pos rfl, List.map_cons, List.sum_cons, feeds, ← knows.newlines, Nat.add_comm]
      rfl
    · rw [Piece.readAfter, host, Piece.newlines_read none]
      rfl
  · rw [Cursor.advance_advance, Cursor.advance_rest, List.append_assoc, List.take_append_drop,
      whole]
  · rw [Cursor.advance_advance, Cursor.advance_offset, offset, Text.width_append]

end Step

/-! ## Runs -/

/-- A run of the reader: from a state over some pieces to another state. -/
inductive Reading.Run (d : Dialect) : Context → Cursor → List Piece → Context → Cursor → Prop
  | done (ctx : Context) (c : Cursor) : Run d ctx c [] ctx c
  | step {ctx ctx' : Context} {c c' : Cursor} {gap rest : List Char} {ch : Char}
      {ps : List Piece} :
    c.rest = gap ++ ch :: rest → Comment.Trivia gap → Comment.StartsToken (ch :: rest) →
    Run d (Piece.readAfter d ctx c gap ch rest).2
      ((c.advance gap.length).advance (Piece.readAfter d ctx c gap ch rest).1.length) ps ctx' c' →
    Run d ctx c ((Piece.readAfter d ctx c gap ch rest).1 :: ps) ctx' c'

namespace Reading

variable {d : Dialect} {ctx ctx' : Context} {c c' : Cursor} {ps qs : List Piece}

/-- A reading that is not over goes on after a gap. -/
theorem exists_readAfter {p : Piece} (text : pieces d ctx c = p :: ps) :
    ∃ gap ch rest, c.rest = gap ++ ch :: rest ∧ Comment.Trivia gap ∧
      Comment.StartsToken (ch :: rest) ∧ p = (Piece.readAfter d ctx c gap ch rest).1 ∧
      pieces d (Piece.readAfter d ctx c gap ch rest).2
        ((c.advance gap.length).advance (Piece.readAfter d ctx c gap ch rest).1.length) = ps := by
  rcases Comment.exists_trivia c.rest with ⟨gap, rest, here, trivia, starts⟩ | last
  · obtain ⟨ch, rest, rfl⟩ := starts.exists_cons
    rw [pieces_cons here trivia starts] at text
    obtain ⟨rfl, more⟩ := List.cons.inj text
    exact ⟨gap, ch, rest, here, trivia, starts, rfl, more⟩
  · rw [pieces_last last] at text
    cases text

/-- A reading can be stopped after any of its pieces. -/
theorem exists_run (text : pieces d ctx c = ps ++ qs) :
    ∃ ctx' c', Run d ctx c ps ctx' c' ∧ pieces d ctx' c' = qs := by
  induction ps generalizing ctx c with
  | nil => exact ⟨ctx, c, .done ctx c, text⟩
  | cons p ps ih =>
    obtain ⟨gap, ch, rest, here, trivia, starts, rfl, more⟩ := exists_readAfter text
    obtain ⟨ctx', c', run, rest'⟩ := ih more
    exact ⟨ctx', c', .step here trivia starts run, rest'⟩

/-- What the reader knows after a run. -/
theorem Run.knows {source : List Char} {before : List Token} (run : Run d ctx c ps ctx' c')
    (knows : ctx.Knows c source before) :
    ctx'.Knows c' source (before ++ ps.map (·.token)) := by
  induction run generalizing before with
  | done ctx c => rwa [List.map_nil, List.append_nil]
  | step text trivia starts run ih =>
    have later := ih (knows.readAfter ..)
    rwa [List.append_assoc] at later

theorem Run.offset_le (run : Run d ctx c ps ctx' c') : c.offset ≤ c'.offset := by
  induction run with
  | done => exact Nat.le_refl _
  | step text trivia starts run ih =>
    exact Nat.le_trans (Cursor.offset_le_advance _ _)
      (Nat.le_trans (Cursor.offset_le_advance _ _) ih)

/-- A run over pieces in two parts stops between them. -/
theorem Run.split {ps : List Piece} (run : Run d ctx c (ps ++ qs) ctx' c') :
    ∃ ctx₁ c₁, Run d ctx c ps ctx₁ c₁ ∧ Run d ctx₁ c₁ qs ctx' c' := by
  generalize all : ps ++ qs = rs at run
  induction run generalizing ps with
  | done ctx c =>
    obtain ⟨rfl, rfl⟩ := List.append_eq_nil_iff.mp all
    exact ⟨ctx, c, .done ctx c, .done ctx c⟩
  | @step ctx ctx' c c' gap rest ch rs text trivia starts run ih =>
    cases ps with
    | nil =>
      rw [List.nil_append] at all
      subst all
      exact ⟨ctx, c, .done ctx c, .step text trivia starts run⟩
    | cons p ps =>
      obtain ⟨rfl, more⟩ := List.cons.inj all
      obtain ⟨ctx₁, c₁, first, second⟩ := ih more
      exact ⟨ctx₁, c₁, .step text trivia starts first, second⟩

end Reading

/-! ## The number of open brackets -/

namespace Token

variable {t : Token} {height : Nat}

/-- A punctuator is only one. -/
theorem isPunct_eq_beq {text : String} (h : t.isPunct text = true) (other : String) :
    t.isPunct other = (text == other) := by
  simp only [isPunct, Bool.and_eq_true, beq_iff_eq] at h
  rw [isPunct, h.1, h.2]
  rfl

theorem opensBracket_of_closes (closes : t.closesBracket = true) : t.opensBracket = false := by
  simp only [closesBracket, Bool.or_eq_true] at closes
  rcases closes with (h | h) | h <;>
    simp only [opensBracket, isPunct_eq_beq h] <;> decide

theorem turn_of_opens (opens : t.opensBracket = true) : turn height t = some (height + 1) := by
  rw [turn, if_pos opens]

theorem turn_of_closes (closes : t.closesBracket = true) :
    turn height t = if height = 0 then none else some (height - 1) := by
  rw [turn, if_neg (by simp [opensBracket_of_closes closes]), if_pos closes]

theorem turn_of_plain (opens : t.opensBracket = false) (closes : t.closesBracket = false) :
    turn height t = some height := by
  rw [turn, if_neg (by simp [opens]), if_neg (by simp [closes])]

theorem opensBracket_of_semicolon (semicolon : t.isPunct ";" = true) : t.opensBracket = false := by
  simp only [opensBracket, isPunct_eq_beq semicolon]
  decide

theorem closesBracket_of_semicolon (semicolon : t.isPunct ";" = true) :
    t.closesBracket = false := by
  simp only [closesBracket, isPunct_eq_beq semicolon]
  decide

theorem turn_of_semicolon (semicolon : t.isPunct ";" = true) : turn height t = some height :=
  turn_of_plain (opensBracket_of_semicolon semicolon) (closesBracket_of_semicolon semicolon)

theorem turn_of_word (word : ∀ text, t.isPunct text = false) : turn height t = some height :=
  turn_of_plain (by simp only [opensBracket, word, Bool.or_false])
    (by simp only [closesBracket, word, Bool.or_false])

end Token

section Height

variable {ctx : Context} {t : Token} {heads : Bool} {opened : Option Scope} {scopes : List Scope}
  {awaiting : Option Nat} {inner base : List Scope} {height : Nat}

/-- Above the brackets that were open before, a token turns their number. -/
theorem Context.Moves.turn (moves : ctx.Moves t heads opened scopes awaiting)
    (shape : ctx.scopes = inner ++ base) (turned : Token.turn inner.length t = some height) :
    ∃ inner', scopes = inner' ++ base ∧ inner'.length = height := by
  cases moves with
  | head word =>
    rw [Token.turn_of_word word] at turned
    exact ⟨inner, shape, Option.some.inj turned⟩
  | @opening scope opens other plain =>
    rw [Token.turn_of_opens opens] at turned
    exact ⟨scope :: inner, by rw [shape]; rfl, Option.some.inj turned⟩
  | brace brace =>
    rw [Token.turn_of_opens (by simp [Token.opensBracket, brace])] at turned
    exact ⟨ctx.braceScope :: inner, by rw [shape]; rfl, Option.some.inj turned⟩
  | closing closes =>
    rw [Token.turn_of_closes closes] at turned
    cases inner with
    | nil => cases turned
    | cons scope inner => exact ⟨inner, by rw [shape]; rfl, Option.some.inj turned⟩
  | semicolon semicolon =>
    rw [Token.turn_of_semicolon semicolon] at turned
    exact ⟨inner, shape, Option.some.inj turned⟩
  | other opens closes =>
    rw [Token.turn_of_plain opens closes] at turned
    exact ⟨inner, shape, Option.some.inj turned⟩

end Height

/-- Over tokens that close only brackets of their own, the brackets that were open before stay
open. -/
theorem Reading.Run.scopes {d : Dialect} {ctx ctx' : Context} {c c' : Cursor} {ps : List Piece}
    {source : List Char} {before : List Token} {inner base : List Scope} {height : Nat}
    (run : Run d ctx c ps ctx' c') (valid : d.Valid) (knows : ctx.Knows c source before)
    (shape : ctx.scopes = inner ++ base)
    (turned : Token.height? inner.length (ps.map (·.token)) = some height) :
    ∃ inner', ctx'.scopes = inner' ++ base ∧ inner'.length = height := by
  induction run generalizing before inner with
  | done ctx c => exact ⟨inner, shape, Option.some.inj turned⟩
  | step text trivia starts run ih =>
    rw [List.map_cons, Token.height?_cons] at turned
    obtain ⟨height', first, later⟩ := Option.bind_eq_some_iff.mp turned
    obtain ⟨inner', shape', rfl⟩ := (Piece.moves_readAfter valid knows text).turn shape first
    exact ih (knows.readAfter ..) shape' later

end Gloss

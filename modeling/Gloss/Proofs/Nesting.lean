import Gloss.Proofs.Invisibility
import Gloss.Proofs.Scopes

/-!
# Class bodies along the tokens

The reader and the walk over its tokens both keep a stack of open brackets and a
class head that waits for its body. A `Nest` is what the two have in common:
which open brackets are class bodies, and how many are open where the head waits.

`Nest.after` is what a token does to the nest of the reader. It is found in the
tokens and the text alone, so the nest before a token (`Token.nest`) is, too:
`Reading.opened_iff` says which braces open a class body, and `Token.nest_take`
leaves out the annotations, which do nothing.
-/

namespace Gloss

open Host
open Token (Seated)

/-! ## Nests -/

/-- The open brackets, as far as class bodies are concerned. -/
structure Nest : Type where
  /-- Whether each open bracket is a class body, innermost first. -/
  bodies : List Bool
  /-- The number of open brackets at which a class head waits for its body. -/
  waiting : Option Nat
deriving DecidableEq, Repr

namespace Nest

/-- At the start of a file. -/
def initial : Nest := ⟨[], none⟩

/-- Whether a class head waits for its body right here. -/
def waitsHere (n : Nest) : Bool := n.waiting == some n.bodies.length

/-- After a class head. -/
def await (n : Nest) : Nest := { n with waiting := some n.bodies.length }

/-- After an opening bracket that is no brace. -/
def enter (n : Nest) : Nest := { n with bodies := false :: n.bodies }

/-- After an opening brace: a class head that waits here has found its body. -/
def enterBrace (n : Nest) : Nest :=
  ⟨n.waitsHere :: n.bodies, n.waiting.filter (· ≠ n.bodies.length)⟩

/-- After a closing bracket: a class head inside the brackets is given up. -/
def leave (n : Nest) : Nest :=
  ⟨n.bodies.tail, n.waiting.filter (· ≤ n.bodies.tail.length)⟩

/-- After a semicolon: a class head beside it is given up. -/
def endStatement (n : Nest) : Nest :=
  { n with waiting := n.waiting.filter (· ≠ n.bodies.length) }

/-- The nest of the reader after a token. An introducer is no semicolon. -/
def after (d : Dialect) (n : Nest) (heads : Bool) (t : Token) : Nest :=
  if heads then n.await
  else if t.isPunct "\x7b" then n.enterBrace
  else if t.opensBracket then n.enter
  else if t.closesBracket then n.leave
  else if t.isPunct ";" && d.introducer != ';' then n.endStatement
  else n

end Nest

/-- The nest of the reader. -/
def Context.nest (ctx : Context) : Nest := ⟨ctx.scopes.map (· == .classBody), ctx.awaiting⟩

theorem Context.waitsHere_nest (ctx : Context) :
    ctx.nest.waitsHere = true ↔ ctx.awaiting = some ctx.scopes.length := by
  simp [nest, Nest.waitsHere]

theorem Context.braceScope_eq_classBody (ctx : Context) :
    ctx.braceScope = .classBody ↔ ctx.nest.waitsHere = true := by
  rw [waitsHere_nest, braceScope]
  split <;> simp_all

/-! ## What a token does to the nest of the reader -/

section Moves

variable {d : Dialect} {ctx : Context} {n : Nest} {t : Token} {ch : Char}

theorem Nest.after_brace (brace : t.isPunct "\x7b" = true) : n.after d false t = n.enterBrace := by
  rw [after, if_neg Bool.false_ne_true, if_pos brace]

theorem Nest.after_opens (opens : t.opensBracket = true) (other : t.isPunct "\x7b" = false) :
    n.after d false t = n.enter := by
  rw [after, if_neg Bool.false_ne_true, other, if_neg Bool.false_ne_true, if_pos opens]

theorem Token.isPunct_of_opens (opens : t.opensBracket = false) : t.isPunct "\x7b" = false := by
  rw [opensBracket, Bool.or_eq_false_iff] at opens
  exact opens.2

theorem Nest.after_closes (closes : t.closesBracket = true) : n.after d false t = n.leave := by
  have opens := Token.opensBracket_of_closes closes
  rw [after, if_neg Bool.false_ne_true, Token.isPunct_of_opens opens, if_neg Bool.false_ne_true,
    opens, if_neg Bool.false_ne_true, if_pos closes]

/-- A token that is no bracket ends a statement or does nothing. -/
theorem Nest.after_plain (opens : t.opensBracket = false) (closes : t.closesBracket = false) :
    n.after d false t =
      if t.isPunct ";" = true ∧ d.introducer ≠ ';' then n.endStatement else n := by
  rw [after, if_neg Bool.false_ne_true, Token.isPunct_of_opens opens, if_neg Bool.false_ne_true,
    opens, if_neg Bool.false_ne_true, closes, if_neg Bool.false_ne_true]
  simp only [Bool.and_eq_true, bne_iff_ne]

/-- A token that is no punctuator and heads no class does nothing. -/
theorem Nest.after_of_ne (kind : t.kind ≠ .punct) : n.after d false t = n := by
  rw [after_plain (Token.opensBracket_of_ne kind) (Token.closesBracket_of_ne kind),
    Token.isPunct_eq_false kind, if_neg (fun both => Bool.false_ne_true both.1)]

/-- An introducer that starts no annotation does nothing. -/
theorem Nest.after_introducer (spares : d.sparesBrackets = true) (kind : t.kind = .punct)
    (text : t.text = String.ofList [d.introducer]) : n.after d false t = n := by
  obtain ⟨opens, closes⟩ := Token.opensBracket_introducer spares kind text
  rw [after_plain opens closes, if_neg]
  rintro ⟨semicolon, other⟩
  exact other (beq_iff_eq.mp ((Token.isPunct_single kind text ';').symm.trans semicolon))

theorem Context.nest_leave (ctx : Context) : ctx.leave.nest = ctx.nest.leave := by
  simp only [leave, nest, Nest.leave, List.map_tail, List.length_tail, List.length_map]

theorem Context.nest_enterBrace (ctx : Context) : ctx.enterBrace.nest = ctx.nest.enterBrace := by
  have body : (ctx.braceScope == .classBody) = ctx.nest.waitsHere := by
    rw [Bool.eq_iff_iff, beq_iff_eq, braceScope_eq_classBody]
  have waiting : ctx.enterBrace.awaiting = ctx.awaiting.filter (· ≠ ctx.scopes.length) := by
    rw [filter_ne_eq_ite, enterBrace]
    split <;> rfl
  have scopes : ctx.enterBrace.scopes = ctx.braceScope :: ctx.scopes := by
    rw [enterBrace]
    split <;> rfl
  rw [nest, waiting, scopes, List.map_cons, body, Nest.enterBrace]
  simp only [nest, List.length_map]

theorem Context.nest_endStatement (ctx : Context) :
    ctx.endStatement.nest = ctx.nest.endStatement := by
  have waiting : ctx.endStatement.awaiting = ctx.awaiting.filter (· ≠ ctx.scopes.length) := by
    rw [filter_ne_eq_ite, endStatement]
    split <;> simp_all
  have scopes : ctx.endStatement.scopes = ctx.scopes := by
    rw [endStatement]
    split <;> rfl
  rw [nest, waiting, scopes, Nest.endStatement]
  simp only [nest, List.length_map]

/-- A punctuator does to the nest what it does to the brackets. -/
theorem Context.nest_punctuate (kind : t.kind = .punct) (text : t.text = String.ofList [ch])
    (other : ch ≠ d.introducer) :
    (ctx.punctuate ch).1.nest = ctx.nest.after d false t ∧
      ((ctx.punctuate ch).2 = some .classBody ↔
        t.isPunct "\x7b" = true ∧ ctx.nest.waitsHere = true) := by
  have here (c : Char) : t.isPunct (String.ofList [c]) = (ch == c) :=
    Token.isPunct_single kind text c
  have opens : t.opensBracket = (ch == '(' || ch == '[' || ch == '{') := by
    rw [← here, ← here, ← here]
    rfl
  have closes : t.closesBracket = (ch == ')' || ch == ']' || ch == '}') := by
    rw [← here, ← here, ← here]
    rfl
  have brace : t.isPunct "\x7b" = (ch == '{') := here '{'
  have semicolon : t.isPunct ";" = (ch == ';') := here ';'
  unfold punctuate
  split
  · rw [Nest.after_opens opens brace, brace]
    exact ⟨rfl, by simp⟩
  · rw [Nest.after_opens opens brace, brace]
    exact ⟨rfl, by simp⟩
  · rw [Nest.after_brace brace, brace, Option.some_inj, braceScope_eq_classBody]
    exact ⟨ctx.nest_enterBrace, by simp⟩
  · rw [Nest.after_closes closes, brace]
    exact ⟨ctx.nest_leave, by simp⟩
  · rw [Nest.after_closes closes, brace]
    exact ⟨ctx.nest_leave, by simp⟩
  · rw [Nest.after_closes closes, brace]
    exact ⟨ctx.nest_leave, by simp⟩
  · rw [Nest.after_plain opens closes, if_pos ⟨semicolon, other.symm⟩, brace]
    exact ⟨ctx.nest_endStatement, by simp⟩
  · next none₁ none₂ none₃ none₄ none₅ none₆ none₇ =>
    have plain : (ch == '(') = false ∧ (ch == '[') = false ∧ (ch == '{') = false ∧
        (ch == ')') = false ∧ (ch == ']') = false ∧ (ch == '}') = false ∧ (ch == ';') = false := by
      simp only [beq_eq_false_iff_ne]
      exact ⟨none₁, none₂, none₃, none₄, none₅, none₆, none₇⟩
    obtain ⟨p₁, p₂, p₃, p₄, p₅, p₆, p₇⟩ := plain
    rw [p₁, p₂, p₃] at opens
    rw [p₄, p₅, p₆] at closes
    rw [Nest.after_plain opens closes, semicolon, p₇, brace, p₃]
    simp

end Moves

section Step

variable {d : Dialect} {ctx : Context} {c : Cursor} {gap rest : List Char} {ch : Char}
  {source : List Char} {before : List Token}

theorem Token.headsClass_of_ne {t : Token} (kind : t.kind ≠ .keyword) :
    headsClass source before t = false := by
  simp [headsClass, kind]

/-- A host token that is no introducer does to the nest what it does to the brackets. -/
theorem Piece.nest_readHost {c' : Cursor} (newlines : Nat) (other : ch ≠ d.introducer)
    (last : ctx.last = Token.lastHost before) (here : c'.rest = ch :: rest)
    (after : ∀ length, Text.after source (c'.advance length).offset = c'.rest.drop length) :
    (readHost ctx c' newlines ch rest).2.nest = ctx.nest.after d
        (Token.headsClass source before (readHost ctx c' newlines ch rest).1.token)
        (readHost ctx c' newlines ch rest).1.token ∧
      ((readHost ctx c' newlines ch rest).1.opened = some .classBody ↔
        (readHost ctx c' newlines ch rest).1.token.isPunct "\x7b" = true ∧
          ctx.nest.waitsHere = true) := by
  have heads := headsClass_readHost newlines last here after
  have single := text_readHost newlines here ctx
  unfold readHost at heads single ⊢
  dsimp only at heads single ⊢
  generalize token : tokenAt c' newlines (Token.shape ctx.last ch rest).1
    (Token.shape ctx.last ch rest).2 = t at heads single ⊢
  have same : t.kind = (Token.shape ctx.last ch rest).1 := by rw [← token]; rfl
  cases head : Token.headsClass source before t with
  | true =>
    rw [if_pos (heads.mp head)]
    have word : t.isPunct "\x7b" = false := by
      simp only [Token.headsClass, Bool.and_eq_true, beq_iff_eq] at head
      exact Token.isPunct_eq_false (by rw [head.1.1.1]; decide) _
    refine ⟨?_, by simp [word]⟩
    simp [Context.nest, Context.afterHost, Context.awaitClass, Nest.after, Nest.await]
  | false =>
    rw [if_neg (fun yes => absurd (heads.mpr yes) (by rw [head]; decide))]
    by_cases punct : t.kind = .punct
    · rw [if_pos (same.symm.trans punct)]
      exact ctx.nest_punctuate punct (single punct) other
    · rw [if_neg (same ▸ punct), Nest.after_of_ne punct, Token.isPunct_eq_false punct]
      exact ⟨rfl, by simp⟩

/-- What a step of the reader does to the nest is a fact about its token, the tokens before it and
the text. -/
theorem Piece.nest_readAfter (spares : d.sparesBrackets = true)
    (knows : ctx.Knows c source before) (text : c.rest = gap ++ ch :: rest) :
    (readAfter d ctx c gap ch rest).2.nest = ctx.nest.after d
        (Token.headsClass source before (readAfter d ctx c gap ch rest).1.token)
        (readAfter d ctx c gap ch rest).1.token ∧
      ((readAfter d ctx c gap ch rest).1.opened = some .classBody ↔
        (readAfter d ctx c gap ch rest).1.token.isPunct "\x7b" = true ∧
          ctx.nest.waitsHere = true) := by
  have here : (c.advance gap.length).rest = ch :: rest := Cursor.rest_advance_append text
  have after (length : Nat) :
      Text.after source ((c.advance gap.length).advance length).offset =
        (c.advance gap.length).rest.drop length := by
    rw [Cursor.advance_advance, knows.after_advance, ← Cursor.advance_advance, Cursor.advance_rest]
  rw [readAfter]
  generalize c.advance gap.length = c' at here after ⊢
  by_cases intro : ch = d.introducer
  · have none {t : Token} (kind : t.kind ≠ .punct) (word : t.kind ≠ .keyword) :
        ctx.nest = ctx.nest.after d (Token.headsClass source before t) t ∧
          ((none : Option Scope) = some .classBody ↔
            t.isPunct "\x7b" = true ∧ ctx.nest.waitsHere = true) := by
      rw [Token.headsClass_of_ne word, Nest.after_of_ne kind, Token.isPunct_eq_false kind]
      exact ⟨rfl, by simp⟩
    cases stands : Note.scan d (ctx.afterGap (gap.count '\n')).atMemberStart c' with
    | found a length =>
      rw [read_note intro stands]
      exact none (by simp [tokenAt]) (by simp [tokenAt])
    | plain | malformed | torn =>
      rw [read_plain intro stands (by simp)]
      unfold Token.introducerShape
      split
      · exact none (by simp [tokenAt]) (by simp [tokenAt])
      · have text : (tokenAt c' (gap.count '\n') .punct 1).text = String.ofList [d.introducer] := by
          rw [tokenAt, Cursor.lexeme, here, intro]
          rfl
        have opens := (Token.opensBracket_introducer spares rfl text).1
        rw [Token.headsClass_of_ne (by simp [tokenAt]), Nest.after_introducer spares rfl text,
          Token.isPunct_of_opens opens]
        exact ⟨rfl, by simp⟩
  · rw [read_host intro]
    exact Piece.nest_readHost _ intro knows.last here after

end Step

/-! ## The nest before a token -/

section Nest

variable (d : Dialect) (source : List Char)

/-- The nest of the reader after some tokens, given those before them. -/
def Nest.along (before : List Token) (n : Nest) : List Token → Nest
  | [] => n
  | t :: ts => along (before ++ [t]) (n.after d (Token.headsClass source before t) t) ts

/-- The nest of the reader after the first tokens of a file. -/
def Token.nest (ts : List Token) : Nest := Nest.initial.along d source [] ts

/-- Whether a host token of a file heads a class for the reader. -/
def Token.Seated.heads (ts : List Token) (t : Seated) : Bool :=
  headsClass source (ts.take t.index) t.toToken

/-- The nest of the reader after some host tokens of a file. -/
def Nest.through (ts : List Token) (n : Nest) (us : List Seated) : Nest :=
  us.foldl (fun n t => n.after d (t.heads source ts) t.toToken) n

/-- Whether one of some host tokens opens a class body for the reader. -/
def Nest.opensBody (ts : List Token) (n : Nest) : List Seated → Bool
  | [] => false
  | t :: us =>
    (t.isPunct "\x7b" && n.waitsHere) || opensBody ts (n.after d (t.heads source ts) t.toToken) us

end Nest

section Runs

variable {d : Dialect} {source : List Char}

/-- The nest of the reader along a run. -/
theorem Reading.Run.nest {ctx ctx' : Context} {c c' : Cursor} {ps : List Piece}
    {before : List Token} (run : Run d ctx c ps ctx' c') (spares : d.sparesBrackets = true)
    (knows : ctx.Knows c source before) :
    ctx'.nest = ctx.nest.along d source before (ps.map (·.token)) := by
  induction run generalizing before with
  | done => rfl
  | step text trivia starts run ih =>
    rw [ih (knows.readAfter ..), (Piece.nest_readAfter spares knows text).1]
    rfl

/-- The braces that open a class body are those where a class head waits. -/
theorem Reading.opened_iff {source : String} (spares : d.sparesBrackets = true) {i : Nat}
    {p : Piece} (piece : (piecesOf d source)[i]? = some p) :
    p.opened = some .classBody ↔ p.token.isPunct "\x7b" = true ∧
      (Token.nest d source.toList ((ofSource d source).tokens.take i)).waitsHere = true := by
  obtain ⟨bound, here⟩ := List.getElem?_eq_some_iff.mp piece
  have whole : piecesOf d source =
      (piecesOf d source).take i ++ p :: (piecesOf d source).drop (i + 1) := by
    rw [← here, List.getElem_cons_drop, List.take_append_drop]
  obtain ⟨ctx, c, run, more⟩ := exists_run whole
  obtain ⟨gap, ch, rest, text, trivia, starts, rfl, -⟩ := exists_readAfter more
  have knows := run.knows (Context.knows_start source.toList)
  have before : (ofSource d source).tokens.take i = ((piecesOf d source).take i).map (·.token) :=
    List.map_take.symm
  rw [(Piece.nest_readAfter spares knows text).2, run.nest spares (Context.knows_start _), before]
  rfl

/-- An annotation does nothing. -/
theorem Nest.after_note {n : Nest} {t : Token} {before : List Token} (note : t.isNote = true) :
    n.after d (Token.headsClass source before t) t = n := by
  have kind : t.kind ≠ .punct ∧ t.kind ≠ .keyword := by
    unfold Token.isNote at note
    split at note
    · next index kind =>
      rw [kind]
      exact ⟨by simp, by simp⟩
    · cases note
  rw [Token.headsClass_of_ne kind.2, after_of_ne kind.1]

/-- The nest before a host token is found in the host tokens alone. -/
theorem Nest.along_seatFrom {notes rest : List Token} {us vs : List Seated} {t : Seated}
    (done : List Token) (n : Nest) (seats : Token.seatFrom done.length notes rest = us ++ t :: vs) :
    done.length ≤ t.index ∧
      n.along d source done (rest.take (t.index - done.length)) =
        n.through d source (done ++ rest) us := by
  induction rest generalizing done notes us n with
  | nil => simp [Token.seatFrom] at seats
  | cons r rest ih =>
    have shift : (done ++ [r]).length = done.length + 1 := List.length_append
    have whole : done ++ r :: rest = done ++ [r] ++ rest := by simp
    -- past the first token the nest is that of the tokens after it
    have onward {us : List Seated} {notes : List Token}
        (seats : Token.seatFrom (done.length + 1) notes rest = us ++ t :: vs) :
        done.length ≤ t.index ∧
          n.along d source done ((r :: rest).take (t.index - done.length)) =
            (n.after d (Token.headsClass source done r) r).through d source
              (done ++ r :: rest) us := by
      rw [← shift] at seats
      obtain ⟨later, same⟩ := ih _ (n.after d (Token.headsClass source done r) r) seats
      rw [shift] at later same
      refine ⟨by omega, ?_⟩
      rw [show t.index - done.length = t.index - (done.length + 1) + 1 by omega,
        List.take_succ_cons, whole, ← same]
      rfl
    rw [Token.seatFrom] at seats
    split at seats
    · next note =>
      have later := onward seats
      rwa [after_note note] at later
    · next host =>
      cases us with
      | nil =>
        obtain ⟨rfl, -⟩ := List.cons.inj seats
        rw [Nat.sub_self]
        exact ⟨Nat.le_refl _, rfl⟩
      | cons u us =>
        obtain ⟨rfl, more⟩ := List.cons.inj seats
        have before : (done ++ r :: rest).take done.length = done := List.take_left
        have heads : (Seated.mk r done.length notes).heads source (done ++ r :: rest) =
            Token.headsClass source done r := by
          rw [Seated.heads, before]
        rw [through, List.foldl_cons, heads]
        exact onward more

/-- The nest before a host token of a file. -/
theorem Token.nest_take {ts : List Token} {us vs : List Seated} {t : Seated}
    (seats : hosts ts = us ++ t :: vs) :
    nest d source (ts.take t.index) = Nest.initial.through d source ts us :=
  (Nest.along_seatFrom [] .initial seats).2

end Runs

end Gloss

import Gloss.Proofs.Step

/-!
# Tokens tile the text

A reading loses nothing of its text. `Token.Tile` says that from an offset on a
text is what the given tokens cover, in order, with blanks and comments between
them whose line feeds the tokens count. `Reading.ofSource?_tile` says it of
every reading, together with the order of the spans and with the numbers and
spans of the annotation tokens.
-/

namespace Gloss

open Host

/-- From an offset on, the text is covered by the tokens in order. Before each of them there are
blanks and comments, whose line feeds it counts, and after the last there may be an open comment. -/
def Token.Tile (source : List Char) : Nat → List Token → Prop
  | offset, [] =>
    ∃ gap, Text.slice? source offset (Text.width source) = some gap ∧ Comment.LastTrivia gap
  | offset, t :: ts =>
    (∃ gap, Text.slice? source offset t.span.start = some gap ∧ Comment.Trivia gap ∧
      t.newlinesBefore = gap.count '\n') ∧
    t.span.start < t.span.stop ∧
    Text.slice? source t.span.start t.span.stop = some t.text.toList ∧
    Tile source t.span.stop ts

/-- The index and the span of an annotation token. -/
def Token.noteSpan? (t : Token) : Option (Nat × Span) :=
  match t.kind with
  | .note index => some (index, t.span)
  | _ => none

/-! ## Covering -/

/-- Tokens that tile a text from an offset on start at that offset or later. -/
theorem Token.Tile.le_start {source : List Char} {offset : Nat} {ts : List Token}
    (tile : Tile source offset ts) {t : Token} (member : t ∈ ts) : offset ≤ t.span.start := by
  induction ts generalizing offset with
  | nil => cases member
  | cons u us ih =>
    obtain ⟨⟨gap, slice, -⟩, nonempty, -, later⟩ := tile
    have first : offset ≤ u.span.start := by
      unfold Text.slice? at slice
      split at slice
      · assumption
      · cases slice
    rcases List.mem_cons.1 member with rfl | member
    · exact first
    · have := ih later member
      omega

/-- Tokens that tile a text are in ascending order and do not overlap. -/
theorem Token.Tile.pairwise {source : List Char} {offset : Nat} {ts : List Token}
    (tile : Tile source offset ts) :
    ts.Pairwise fun t u => t.span.start < u.span.start ∧ t.span.overlaps u.span = false := by
  induction ts generalizing offset with
  | nil => exact .nil
  | cons t ts ih =>
    obtain ⟨-, nonempty, -, later⟩ := tile
    refine List.pairwise_cons.2 ⟨fun u member => ?_, ih later⟩
    have after := later.le_start member
    refine ⟨by omega, ?_⟩
    simp only [Span.overlaps, Bool.and_eq_false_iff, decide_eq_false_iff_not]
    exact .inr (by omega)

/-- A token starts between characters of the text. -/
theorem Token.Tile.exists_append {source : List Char} {offset : Nat} {ts : List Token}
    (tile : Tile source offset ts) {t : Token} (member : t ∈ ts) :
    ∃ before after, source = before ++ after ∧ Text.width before = t.span.start := by
  induction ts generalizing offset with
  | nil => cases member
  | cons u us ih =>
    obtain ⟨-, -, slice, later⟩ := tile
    rcases List.mem_cons.1 member with rfl | member
    · unfold Text.slice? at slice
      split at slice
      · obtain ⟨parts, cut, -⟩ := Option.bind_eq_some_iff.1 slice
        exact ⟨parts.1, parts.2, Text.splitBytes?_eq_some cut⟩
      · cases slice
    · exact ih later member

/-- A token that covers what comes next is the slice of its span. -/
theorem Piece.slice_tokenAt (c : Cursor) (before : List Char) (here : c.offset = Text.width before)
    (newlines : Nat) (kind : Token.Kind) (length : Nat) :
    Text.slice? (before ++ c.rest) (tokenAt c newlines kind length).span.start
        (tokenAt c newlines kind length).span.stop =
      some (tokenAt c newlines kind length).text.toList := by
  have slice := Text.slice?_append before (c.rest.take length) (c.rest.drop length)
  rw [List.append_assoc, List.take_append_drop, ← here, ← Cursor.advance_offset] at slice
  simpa [tokenAt, Cursor.span, Cursor.lexeme] using slice

/-- The pieces of the rest of a text tile it from the cursor on. -/
theorem Reading.pieces_tile (d : Dialect) (ctx : Context) (c : Cursor) (before : List Char)
    (here : c.offset = Text.width before) :
    Token.Tile (before ++ c.rest) c.offset ((pieces d ctx c).map (·.token)) := by
  induction ctx, c using Reading.pieces_induction generalizing before with
  | last ctx c last =>
    refine ⟨c.rest, ?_, last⟩
    have slice := Text.slice?_append before c.rest []
    rw [List.append_nil, ← Text.width_append] at slice
    rw [here]
    exact slice
  | cons ctx c gap ch rest text trivia starts ih =>
    obtain ⟨kind, token⟩ := Piece.exists_token_read d ctx (c.advance gap.length)
      (gap.count '\n') ch rest
    have pos := Piece.length_pos d ctx (c.advance gap.length) (gap.count '\n') ch rest
    rw [← Piece.readAfter] at token pos
    generalize Piece.readAfter d ctx c gap ch rest = step at token pos ih ⊢
    have here' : (c.advance gap.length).offset = Text.width (before ++ gap) := by
      rw [Cursor.advance_offset, text, List.take_left, here, Text.width_append]
    have rest' := Cursor.rest_advance_append text
    generalize c.advance gap.length = c' at token ih here' rest'
    have source : before ++ c.rest = before ++ gap ++ c'.rest := by
      rw [text, rest', List.append_assoc]
    rw [source, List.map_cons, token]
    refine ⟨⟨gap, ?_, trivia, rfl⟩, ?_, Piece.slice_tokenAt c' _ here' _ _ _, ?_⟩
    · show Text.slice? _ c.offset c'.offset = some gap
      rw [here, here', Text.width_append]
      exact Text.slice?_append before gap c'.rest
    · exact Cursor.offset_lt_advance rest' pos
    · have later := ih (before ++ gap ++ c'.rest.take step.1.length) (by
        rw [Cursor.advance_offset, here', Text.width_append _ (c'.rest.take _)])
      rw [Cursor.advance_rest, List.append_assoc, List.take_append_drop] at later
      exact later

/-! ## Annotation tokens -/

theorem Token.noteSpan?_eq_none {t : Token} (host : t.isNote = false) : t.noteSpan? = none := by
  unfold isNote at host
  unfold noteSpan?
  split
  · next index note =>
    rw [note] at host
    cases host
  · rfl

/-- A piece with an annotation has a token with its number and its span, and is counted. Any
other piece has a host token and is not counted. -/
theorem Piece.note?_read (d : Dialect) (ctx : Context) (c : Cursor) (newlines : Nat) (ch : Char)
    (rest : List Char) :
    (∃ a, (read d ctx c newlines ch rest).1.note? = some a ∧
      (read d ctx c newlines ch rest).1.token.noteSpan? = some (ctx.notes, a.span) ∧
      (read d ctx c newlines ch rest).2.notes = ctx.notes + 1) ∨
    ((read d ctx c newlines ch rest).1.note? = none ∧
      (read d ctx c newlines ch rest).1.token.noteSpan? = none ∧
      (read d ctx c newlines ch rest).2.notes = ctx.notes) := by
  rcases read_cases d ctx c newlines ch rest with
    ⟨a, length, step, span, -⟩ | ⟨none, isNote, -, notes⟩
  · rw [step]
    refine .inl ⟨a, rfl, ?_, rfl⟩
    rw [span]
    rfl
  · exact .inr ⟨none, Token.noteSpan?_eq_none isNote, notes⟩

/-- The annotation tokens of a text are numbered on, and have the spans of its annotations. -/
theorem Reading.noteSpan?_pieces (d : Dialect) (ctx : Context) (c : Cursor) :
    ((pieces d ctx c).map (·.token)).filterMap Token.noteSpan? =
      (((pieces d ctx c).filterMap (·.note?)).zipIdx ctx.notes).map fun p => (p.2, p.1.span) := by
  induction ctx, c using Reading.pieces_induction with
  | last ctx c last => rfl
  | cons ctx c gap ch rest text trivia starts ih =>
    have step := Piece.note?_read d ctx (c.advance gap.length) (gap.count '\n') ch rest
    rw [← Piece.readAfter] at step
    generalize Piece.readAfter d ctx c gap ch rest = step at step ih ⊢
    rw [List.map_cons, List.filterMap_cons, List.filterMap_cons, ih]
    rcases step with ⟨a, note, token, counted⟩ | ⟨note, token, counted⟩
    · rw [note, token, counted]
      rfl
    · rw [note, token, counted]

namespace Reading

variable (d : Dialect) (source : String)

/-- The tokens of a file tile its text. -/
theorem ofSource_tile : Token.Tile source.toList 0 (ofSource d source).tokens :=
  pieces_tile d .initial (.start source.toList) [] rfl

/-- The annotation tokens of a file are numbered from zero and have the spans of its annotations. -/
theorem noteSpan?_ofSource :
    (ofSource d source).tokens.filterMap Token.noteSpan? =
      (ofSource d source).notes.zipIdx.map fun p => (p.2, p.1.span) :=
  noteSpan?_pieces d .initial (.start source.toList)

end Reading

/-- Reading loses nothing. The tokens of a file tile its text, in ascending order and without
overlap, and the annotation tokens are numbered from zero and cover what the annotations do. -/
theorem Reading.ofSource?_tile {d : Dialect} (marker : d.hashbang ≠ some '\r')
    (source : String) :
    ∃ r, ofSource? d source = some r ∧ Token.Tile source.toList 0 r.tokens ∧
      (r.tokens.Pairwise fun t u =>
        t.span.start < u.span.start ∧ t.span.overlaps u.span = false) ∧
      r.tokens.filterMap Token.noteSpan? = r.notes.zipIdx.map fun p => (p.2, p.1.span) := by
  have tile : Token.Tile source.toList 0 (ofSource d source).tokens :=
    pieces_tile d .initial (.start source.toList) [] rfl
  exact ⟨_, ofSource?_eq_some marker source, tile, tile.pairwise, noteSpan?_pieces ..⟩

theorem Reading.ofSource?_tile_hash :
    Dialect.hash.hashbang ≠ some '\r' ∧
      ∃ r, ofSource? .hash "#!n\nlet a /* \n */ #T? // b" = some r ∧
        Token.Tile "#!n\nlet a /* \n */ #T? // b".toList 0 r.tokens ∧
        (r.tokens.Pairwise fun t u =>
          t.span.start < u.span.start ∧ t.span.overlaps u.span = false) ∧
        r.tokens.filterMap Token.noteSpan? = r.notes.zipIdx.map fun p => (p.2, p.1.span) :=
  ⟨by decide, ofSource?_tile (by decide) _⟩

end Gloss

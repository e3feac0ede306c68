import Gloss.Proofs.Nesting
import Gloss.Proofs.Retention
import Gloss.Proofs.Spelling

/-!
# Words after a full stop

After a full stop a word with its introducer is the name of a property, and no annotation. The
reader knows of the full stop by the character right before the introducer. So with a gap between
the two it reads an annotation wherever a word could be one (`Reading.isWord_iff_of_stop`): in the
gap may be blanks, lines and comments, and its last character is never a full stop
(`Host.Comment.Trivia.getLast?_ne_dot`).
-/

namespace Gloss

open Host

/-! ## Words -/

/-- A word with its opening. Where a member is expected it has its disambiguator. -/
def Dialect.NameStands (d : Dialect) (memberStart : Bool) (rest : List Char) : Prop :=
  ∃ opening x tail, rest = opening ++ x :: tail ∧ d.OpensWord opening (x :: tail) ∧
    isIdentifierStart x = true ∧ (memberStart = true → opening ≠ [d.introducer])

/-- The token is an annotation in the form of a word. -/
def Reading.IsWord (r : Reading) (t : Token) : Prop :=
  ∃ index a, t.kind = .note index ∧ r.notes[index]? = some a ∧ a.form = .word

/-- A word can stand where a token does, but not right after the full stop before it. On a new line
of a class body it has its disambiguator. -/
def Reading.WordFollows (d : Dialect) (source : List Char) (before : List Token) (dot t : Token) :
    Prop :=
  dot.span.stop < t.span.start ∧
    ∃ past more, source = past ++ d.introducer :: more ∧ Text.width past = t.span.start ∧
      d.WordAt past more ∧
      d.NameStands ((Token.nest d source before).bodies.head? == some true &&
        decide (0 < t.newlinesBefore)) (d.introducer :: more)

namespace Note

variable {d : Dialect} {memberStart : Bool} {before more : List Char} {a : Note} {length : Nat}

/-- Where a word or a special character is found nothing else could stand. -/
theorem wordAt_of_scan
    (found : scan d memberStart (.between before (d.introducer :: more)) = .found a length)
    (form : a.form = .word ∨ a.form = .special) : d.WordAt before more := by
  have text := Cursor.between_rest before (d.introducer :: more)
  cases more with
  | nil => constructor <;> simp
  | cons ch more =>
    rw [scan_cons text] at found
    split at found
    · unfold scanHashbang at found
      split at found
      · cases found
      · obtain ⟨rfl, -⟩ := Scan.found.inj found
        exact form.elim nofun nofun
    next noMark =>
    split at found
    · unfold scanBlock at found
      split at found
      · cases found
      split at found
      · obtain ⟨rfl, -⟩ := Scan.found.inj found
        exact form.elim nofun nofun
      · cases found
    next noBlock =>
    split at found
    · unfold scanQuoted at found
      split at found
      · cases found
      · cases found
      · obtain ⟨rfl, -⟩ := Scan.found.inj found
        exact form.elim nofun nofun
    next noQuote =>
    refine ⟨?_, ?_, ?_⟩
    · rintro c first ⟨rfl, mark⟩
      obtain rfl := Option.some.inj first
      exact noMark ⟨by rw [Cursor.between_offset, Text.width_nil], mark⟩
    · intro own first
      obtain rfl := Option.some.inj first
      exact Bool.eq_false_iff.mpr
        (Option.filter_eq_none_iff.mp noBlock own (Bracket.ofOpening?_eq_some.mpr rfl))
    · intro c first
      obtain rfl := Option.some.inj first
      exact noQuote

/-- A word is looked for and found exactly when one stands here and not after a full stop. -/
theorem exists_scanWord_word_iff {c : Cursor} (here : c.rest = d.introducer :: more)
    (memberStart : Bool) :
    (∃ a length, scanWord d memberStart c = .found a length ∧ a.form = .word) ↔
      c.prev ≠ some '.' ∧ d.NameStands memberStart c.rest := by
  obtain ⟨opening, rest, text, size, opens⟩ := exists_opensWord here
  have left : c.rest.drop (wordOpening d c) = rest := by rw [text, ← size, List.drop_left]
  have one := wordOpening_eq_one size opens
  constructor
  · rintro ⟨a, length, found, word⟩
    obtain ⟨x, tail, after, forms⟩ := scanWord_eq_found.mp found
    obtain rfl := left.symm.trans after
    rcases forms with ⟨start, dot, member, -⟩ | ⟨-, -, special⟩
    · refine ⟨dot, opening, x, tail, text, opens, start, fun expected bare => ?_⟩
      exact member ⟨expected, one.mpr bare⟩
    · obtain ⟨rfl, -⟩ := Scan.found.inj special
      cases word
  · rintro ⟨dot, opening', x, tail, text', opens', start, member⟩
    obtain ⟨rfl, rfl⟩ := opensWord_unique opens opens' (text.symm.trans text')
    have unexpected : ¬ (memberStart = true ∧ wordOpening d c = 1) :=
      fun both => member both.1 (one.mp both.2)
    exact ⟨_, _, scanWord_eq_found.mpr ⟨x, tail, left, .inl ⟨start, dot, unexpected, rfl⟩⟩, rfl⟩

/-- A word is found exactly when nothing else could stand there. -/
theorem exists_scan_word_iff :
    (∃ a length, scan d memberStart (.between before (d.introducer :: more)) = .found a length ∧
        a.form = .word) ↔
      before.getLast? ≠ some '.' ∧ d.WordAt before more ∧
        d.NameStands memberStart (d.introducer :: more) := by
  have here := Cursor.between_rest before (d.introducer :: more)
  have looked := exists_scanWord_word_iff here memberStart
  rw [Cursor.between_prev, here] at looked
  constructor
  · rintro ⟨a, length, found, word⟩
    have alone := wordAt_of_scan found (.inl word)
    rw [scan_eq_scanWord alone] at found
    obtain ⟨dot, name⟩ := looked.mp ⟨a, length, found, word⟩
    exact ⟨dot, alone, name⟩
  · rintro ⟨dot, alone, name⟩
    rw [scan_eq_scanWord alone]
    exact looked.mpr ⟨dot, name⟩

end Note

/-! ## The gap after a full stop -/

/-- The last character of a full stop with a gap after it is another one, unless the gap is
empty. -/
theorem Host.Comment.Trivia.getLast?_or_ne_iff {gap : List Char} (trivia : Trivia gap) :
    gap.getLast?.or (some '.') ≠ some '.' ↔ gap ≠ [] := by
  have other := trivia.getLast?_ne_dot
  cases last : gap.getLast? with
  | none => simpa using last
  | some x =>
    rw [last] at other
    have more : gap ≠ [] := by
      rintro rfl
      cases last
    exact ⟨fun _ => more, fun _ => other⟩

/-- A boundary of a text, not at its end, parts it. -/
theorem Cursor.IsBoundary.eq_between {source : List Char} {c : Cursor}
    (boundary : c.IsBoundary source) (more : c.rest ≠ []) :
    ∃ before, source = before ++ c.rest ∧ c = .between before c.rest := by
  obtain ⟨n, rfl⟩ := boundary
  have rest : ((start source).advance n).rest = source.drop n := advance_rest ..
  rw [rest] at more ⊢
  have inside : n ≤ source.length := by
    rw [Ne, List.drop_eq_nil_iff] at more
    omega
  refine ⟨source.take n, (List.take_append_drop n source).symm, ?_⟩
  rw [between, List.take_append_drop, List.length_take_of_le inside]

namespace Reading

variable {d : Dialect} {ctx ctx' : Context} {c c' : Cursor} {ps : List Piece}

theorem Run.isBoundary {source : List Char} (run : Run d ctx c ps ctx' c')
    (boundary : c.IsBoundary source) : c'.IsBoundary source := by
  induction run with
  | done => exact boundary
  | step text trivia starts run ih => exact ih ((boundary.advance _).advance _)

/-- Annotations are counted along a run. -/
theorem Run.notes (run : Run d ctx c ps ctx' c') :
    ctx'.notes = ctx.notes + (ps.filterMap (·.note?)).length := by
  induction run with
  | done => rfl
  | @step ctx ctx' c c' gap rest ch ps text trivia starts run ih =>
    rw [ih, List.filterMap_cons, Piece.readAfter]
    rcases Piece.note?_read d ctx (c.advance gap.length) (gap.count '\n') ch rest with
      ⟨a, note, -, counted⟩ | ⟨note, -, counted⟩
    · rw [note, counted, List.length_cons]
      omega
    · rw [note, counted]

/-- What the reader knows when a full stop was the last token. -/
theorem Run.after_stop {p : Piece} (run : Run d ctx c (ps ++ [p]) ctx' c')
    (point : p.token.isPunct "." = true) :
    ctx'.last = some p.token ∧ ctx'.newlines = 0 ∧ c'.prev = some '.' ∧
      c'.offset = p.token.span.stop := by
  obtain ⟨ctx₁, c₁, -, last⟩ := run.split
  cases last with
  | @step _ _ _ _ gap rest ch _ text trivia starts last =>
    cases last with
    | done =>
      rw [Piece.readAfter] at point ⊢
      obtain ⟨punct, word⟩ := Bool.and_eq_true_iff.mp point
      have host : (Piece.read d ctx₁ (c₁.advance gap.length) (gap.count '\n') ch rest).1.note? =
          none := by
        have isNote := Piece.isNote_read d ctx₁ (c₁.advance gap.length) (gap.count '\n') ch rest
        rw [Token.isNote, beq_iff_eq.mp punct] at isNote
        exact Option.not_isSome_iff_eq_none.mp (by rw [← isNote]; decide)
      obtain ⟨kind, token⟩ := Piece.exists_token_read d ctx₁ (c₁.advance gap.length)
        (gap.count '\n') ch rest
      have stop : ((c₁.advance gap.length).rest.take
          (Piece.read d ctx₁ (c₁.advance gap.length) (gap.count '\n') ch rest).1.length) =
          ['.'] := by
        rw [token] at word
        have text := congrArg String.toList (beq_iff_eq.mp word)
        rwa [Piece.tokenAt, Cursor.lexeme, String.toList_ofList] at text
      refine ⟨Piece.last_read host, Piece.newlines_read host, ?_, ?_⟩
      · rw [Cursor.advance_prev, stop]
        rfl
      · rw [token]
        rfl

end Reading

/-- After a full stop a class body expects a member on a new line alone. -/
theorem Context.atMemberStart_of_stop {ctx : Context} {dot : Token} (last : ctx.last = some dot)
    (point : dot.isPunct "." = true) :
    ctx.atMemberStart = (ctx.nest.bodies.head? == some true && decide (0 < ctx.newlines)) := by
  obtain ⟨punct, word⟩ := Bool.and_eq_true_iff.mp point
  have scope : (ctx.nest.bodies.head? == some true) = (ctx.scopes.head? == some .classBody) := by
    rw [nest, List.head?_map]
    cases ctx.scopes.head? <;> simp
  have other : dot.isMemberModifier = false := by
    rw [Token.isMemberModifier, beq_iff_eq.mp punct]
    rfl
  rw [atMemberStart, last, scope]
  simp [beq_iff_eq.mp word, other]

namespace Reading

/-- Where a member is expected after a full stop, by the tokens that the reader has behind it. -/
theorem Run.atMemberStart_of_stop {d : Dialect} (valid : d.Valid) {source : List Char}
    {ps : List Piece} {p : Piece} {ctx : Context} {c : Cursor}
    (run : Run d .initial (.start source) (ps ++ [p]) ctx c) (point : p.token.isPunct "." = true)
    (lines : Nat) :
    (ctx.afterGap lines).atMemberStart =
      ((Token.nest d source ((ps ++ [p]).map (·.token))).bodies.head? == some true &&
        decide (0 < lines)) := by
  obtain ⟨last, newlines, -⟩ := run.after_stop point
  have known := Context.atMemberStart_of_stop
    (show (ctx.afterGap lines).last = some p.token from last) point
  have counted : (ctx.afterGap lines).newlines = lines := by
    rw [Context.afterGap, newlines]
    exact Nat.zero_add _
  have nest : ctx.nest = _ :=
    run.nest (Dialect.sparesBrackets_of_valid valid) (Context.knows_start source)
  rw [known, counted]
  exact congrArg (fun n : Nest => n.bodies.head? == some true && _) nest

/-- A token is an annotation in the form of a word when one is found at its introducer. -/
theorem isWord_iff_exists_scan {d : Dialect} {source : String} {ps qs : List Piece} {ctx : Context}
    {c : Cursor} {gap rest : List Char} {ch : Char}
    (run : Run d .initial (.start source.toList) ps ctx c)
    (whole : piecesOf d source = ps ++ (Piece.readAfter d ctx c gap ch rest).1 :: qs) :
    (ofSource d source).IsWord (Piece.readAfter d ctx c gap ch rest).1.token ↔
      ch = d.introducer ∧ ∃ a length,
        Note.scan d (ctx.afterGap (gap.count '\n')).atMemberStart (c.advance gap.length) =
          .found a length ∧ a.form = .word := by
  have notes {a : Note} (note : (Piece.readAfter d ctx c gap ch rest).1.note? = some a) :
      (ofSource d source).notes[ctx.notes]? = some a := by
    have count : ctx.notes = (ps.filterMap (·.note?)).length := run.notes.trans (Nat.zero_add _)
    rw [ofSource, ofPieces, whole, List.filterMap_append, List.filterMap_cons, note, count]
    dsimp only
    rw [List.getElem?_append_right (Nat.le_refl _), Nat.sub_self, List.getElem?_cons_zero]
  rw [Piece.readAfter] at notes ⊢
  constructor
  · rintro ⟨index, a, kind, held, word⟩
    rcases Piece.note?_read d ctx (c.advance gap.length) (gap.count '\n') ch rest with
      ⟨b, note, number, -⟩ | ⟨-, number, -⟩
    · obtain ⟨intro, length, found⟩ := Piece.scan_of_note note
      rw [Token.noteSpan?, kind] at number
      obtain rfl : index = ctx.notes := (Prod.mk.inj (Option.some.inj number)).1
      obtain rfl := Option.some.inj ((notes note).symm.trans held)
      exact ⟨intro, b, length, found, word⟩
    · rw [Token.noteSpan?, kind] at number
      cases number
  · rintro ⟨intro, a, length, found, word⟩
    have step : Piece.read d ctx (c.advance gap.length) (gap.count '\n') ch rest = _ :=
      Piece.read_note intro found
    rw [step] at notes ⊢
    exact ⟨ctx.notes, a, rfl, notes rfl, word⟩

/-- A token stands after its gap. -/
theorem start_readAfter (d : Dialect) (ctx : Context) (c : Cursor) (gap : List Char) (ch : Char)
    (rest : List Char) :
    (Piece.readAfter d ctx c gap ch rest).1.token.span.start = (c.advance gap.length).offset ∧
      (Piece.readAfter d ctx c gap ch rest).1.token.newlinesBefore = gap.count '\n' := by
  obtain ⟨kind, token⟩ := Piece.exists_token_read d ctx (c.advance gap.length) (gap.count '\n') ch
    rest
  rw [Piece.readAfter, token]
  exact ⟨rfl, rfl⟩

/-- Two tokens in a row come from two pieces in a row. -/
theorem exists_pieces {d : Dialect} {source : String} {i : Nat} {t u : Token}
    (first : (ofSource d source).tokens[i]? = some t)
    (second : (ofSource d source).tokens[i + 1]? = some u) :
    ∃ ps p q qs, piecesOf d source = (ps ++ [p]) ++ q :: qs ∧ p.token = t ∧ q.token = u ∧
      (ps ++ [p]).map (·.token) = (ofSource d source).tokens.take (i + 1) := by
  have tokens : (ofSource d source).tokens = (piecesOf d source).map (·.token) := rfl
  rw [tokens, List.getElem?_map] at first second
  obtain ⟨p, piece, rfl⟩ := Option.map_eq_some_iff.mp first
  obtain ⟨q, piece', rfl⟩ := Option.map_eq_some_iff.mp second
  obtain ⟨low, here⟩ := List.getElem?_eq_some_iff.mp piece
  obtain ⟨high, next⟩ := List.getElem?_eq_some_iff.mp piece'
  refine ⟨(piecesOf d source).take i, p, q, (piecesOf d source).drop (i + 2), ?_, rfl, rfl, ?_⟩
  · rw [← here, ← next, List.append_assoc, List.singleton_append, List.getElem_cons_drop,
      List.getElem_cons_drop, List.take_append_drop]
  · rw [tokens, ← List.map_take, ← here, List.take_append_getElem]

/-- After a full stop a token is an annotation in the form of a word exactly when something stands
between the two and a word can stand there. -/
theorem isWord_iff_of_stop {d : Dialect} (valid : d.Valid) {source : String} {r : Reading}
    (read : ofSource? d source = some r) {i : Nat} {dot t : Token}
    (first : r.tokens[i]? = some dot) (second : r.tokens[i + 1]? = some t)
    (point : dot.isPunct "." = true) :
    r.IsWord t ↔ WordFollows d source.toList (r.tokens.take (i + 1)) dot t := by
  obtain rfl := eq_ofSource read
  obtain ⟨ps, p, q, qs, whole, rfl, rfl, before⟩ := exists_pieces first second
  obtain ⟨ctx, c, run, later⟩ := exists_run whole
  obtain ⟨gap, ch, rest, text, trivia, starts, rfl, -⟩ := exists_readAfter later
  obtain ⟨-, -, prev, stop⟩ := run.after_stop point
  obtain ⟨start, feeds⟩ := start_readAfter d ctx c gap ch rest
  have here := Cursor.rest_advance_append text
  have boundary := (run.isBoundary (Cursor.isBoundary_start _)).advance gap.length
  obtain ⟨past, parts, between⟩ := boundary.eq_between (by rw [here]; exact List.cons_ne_nil _ _)
  rw [here] at parts between
  have member := run.atMemberStart_of_stop valid point (gap.count '\n')
  rw [before] at member
  have character : past.getLast? = gap.getLast?.or (some '.') := by
    rw [← Cursor.between_prev past (ch :: rest), ← between, Cursor.advance_prev, prev, text,
      List.take_left]
  have apart : past.getLast? ≠ some '.' ↔ c.offset < (c.advance gap.length).offset := by
    rw [character, trivia.getLast?_or_ne_iff]
    cases gap with
    | nil => exact iff_of_false (absurd rfl) (Nat.lt_irrefl _)
    | cons x gap =>
      exact iff_of_true (List.cons_ne_nil _ _) (Cursor.offset_lt_advance text (Nat.succ_pos _))
  have width : Text.width past = (c.advance gap.length).offset := by
    rw [between, Cursor.between_offset]
  rw [isWord_iff_exists_scan run whole, WordFollows, start, feeds, ← stop, ← member, ← apart]
  constructor
  · rintro ⟨rfl, found⟩
    rw [between] at found
    obtain ⟨dot, alone, name⟩ := Note.exists_scan_word_iff.mp found
    exact ⟨dot, past, rest, parts, width, alone, name⟩
  · rintro ⟨dot, past', more, parts', width', alone, name⟩
    obtain ⟨rfl, same⟩ :=
      Text.append_inj_of_width (parts.symm.trans parts') (width.trans width'.symm)
    obtain ⟨rfl, rfl⟩ := List.cons.inj same
    rw [between]
    exact ⟨rfl, Note.exists_scan_word_iff.mpr ⟨dot, alone, name⟩⟩

/-- Right after a full stop there is no annotation in the form of a word. -/
theorem isWord_iff_of_stop_private :
    ∃ r dot t, Dialect.hash.Valid ∧ ofSource? .hash "this.#count" = some r ∧
      r.tokens[1]? = some dot ∧ r.tokens[1 + 1]? = some t ∧ dot.isPunct "." = true ∧
      (r.IsWord t ↔
        WordFollows .hash "this.#count".toList (r.tokens.take (1 + 1)) dot t) ∧ ¬ r.IsWord t := by
  have read := ofSource?_eq_some (d := .hash) (by decide) "this.#count"
  have first : (ofSource .hash "this.#count").tokens[1]? = some ⟨.punct, ".", ⟨4, 5⟩, 0⟩ := by
    decide +kernel
  have second : (ofSource .hash "this.#count").tokens[1 + 1]? =
      some ⟨.privateName, "#count", ⟨5, 11⟩, 0⟩ := by
    decide +kernel
  have follows := isWord_iff_of_stop Dialect.hash_valid read first second rfl
  exact ⟨_, _, _, Dialect.hash_valid, read, first, second, rfl, follows,
    fun word => absurd (follows.mp word).1 (by decide)⟩

/-- With a space after its full stop the access of a private field is read as an annotation, and it
is removed as one. -/
theorem isWord_after_stop_space :
    ∃ r dot t, Dialect.hash.Valid ∧ ofSource? .hash "this. #count" = some r ∧
      r.tokens[1]? = some dot ∧ r.tokens[1 + 1]? = some t ∧ dot.isPunct "." = true ∧
      r.tokens.countP (·.isPunct ".") = 1 ∧ r.IsWord t ∧
      Removal.ofNotes? "this. #count" r.notes = some "this. " := by
  refine ⟨_, ⟨.punct, ".", ⟨4, 5⟩, 0⟩, ⟨.note 0, "#count", ⟨6, 12⟩, 0⟩, Dialect.hash_valid,
    ofSource?_eq_some (by decide) _, by decide +kernel, by decide +kernel, rfl, by decide +kernel,
    ⟨0, ⟨⟨6, 12⟩, .word, "count", ⟨7, 12⟩, none⟩, rfl, by decide +kernel, rfl⟩, by decide +kernel⟩

end Reading

end Gloss

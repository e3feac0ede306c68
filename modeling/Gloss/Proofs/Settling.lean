import Gloss.Proofs.Harmless

/-!
# Text that leaves nothing open

A text that is followed by more lines is read as it would be alone, unless it
leaves a literal or a block comment open, which then takes up the rest of the
file. `Settles` says that it does not. `Reading.outcome_append` says that of a
text without introducers the reader goes on with the lines after it exactly in
that case, as long as nothing in them closes what is open.
-/

namespace Gloss

open Host

/-- Reading on to the end of the text leaves no literal and no block comment open. -/
inductive Settles (d : Dialect) : Context → Cursor → Prop
  | last {ctx : Context} {c : Cursor} :
    Comment.LastTrivia c.rest → ¬ Comment.EndsInBlock c.rest → Settles d ctx c
  | cons {ctx : Context} {c : Cursor} {gap rest : List Char} {ch : Char} :
    c.rest = gap ++ ch :: rest → Comment.Trivia gap → Comment.StartsToken (ch :: rest) →
    Literal.extent? (ch :: rest) ≠ some .unclosed →
    Settles d (Piece.readAfter d ctx c gap ch rest).2
      ((c.advance gap.length).advance (Piece.readAfter d ctx c gap ch rest).1.length) →
    Settles d ctx c

section Settles

variable {d : Dialect} {ctx : Context} {c : Cursor} {gap rest : List Char} {ch : Char}

theorem settles_last_iff (last : Comment.LastTrivia c.rest) :
    Settles d ctx c ↔ ¬ Comment.EndsInBlock c.rest := by
  constructor
  · intro settles
    cases settles with
    | last _ closed => exact closed
    | cons text trivia starts =>
      exact absurd starts (Comment.LastTrivia.not_startsToken (text ▸ last) trivia)
  · exact .last last

theorem settles_cons_iff (text : c.rest = gap ++ ch :: rest) (trivia : Comment.Trivia gap)
    (starts : Comment.StartsToken (ch :: rest)) :
    Settles d ctx c ↔ Literal.extent? (ch :: rest) ≠ some .unclosed ∧
      Settles d (Piece.readAfter d ctx c gap ch rest).2
        ((c.advance gap.length).advance (Piece.readAfter d ctx c gap ch rest).1.length) := by
  constructor
  · intro settles
    cases settles with
    | last last => exact absurd starts (Comment.LastTrivia.not_startsToken (text ▸ last) trivia)
    | cons text' trivia' starts' closed more =>
      obtain ⟨rfl, same⟩ :=
        Comment.Trivia.unique (text.symm.trans text') trivia trivia' starts starts'
      obtain ⟨rfl, rfl⟩ := List.cons.inj same
      exact ⟨closed, more⟩
  · intro settles
    rcases settles with ⟨closed, more⟩
    exact .cons text trivia starts closed more

theorem settles_of_done (done : c.rest = []) : Settles d ctx c := by
  refine .last (by rw [done]; exact .inl .nil) ?_
  intro block
  rcases block with ⟨gap, body, text, -⟩
  rw [done] at text
  exact List.cons_ne_nil _ _ (List.append_eq_nil_iff.1 text.symm).2

end Settles

/-! ## Host text -/

theorem Piece.scan_of_ne {d : Dialect} {ch : Char} (other : ch ≠ d.introducer) (ctx : Context)
    (c : Cursor) (gap rest : List Char) : (readAfter d ctx c gap ch rest).1.scan = none := by
  rw [readAfter, read_scan, if_neg other]

theorem Piece.note?_of_ne {d : Dialect} {ch : Char} (other : ch ≠ d.introducer) (ctx : Context)
    (c : Cursor) (gap rest : List Char) : (readAfter d ctx c gap ch rest).1.note? = none := by
  rw [note?, scan_of_ne other]

namespace Reading

/-- The payloads of the annotations, and the malformed annotations. -/
def outcome (ps : List Piece) : List String × List Malformed :=
  ((ps.filterMap (·.note?)).map (·.payload), ps.filterMap (·.malformed?))

theorem outcome_host {p : Piece} {ps : List Piece} (plain : p.scan = none) :
    outcome (p :: ps) = outcome ps := by
  have note : p.note? = none := by rw [Piece.note?, plain]
  have malformed : p.malformed? = none := by rw [Piece.malformed?, plain]
  rw [outcome, List.filterMap_cons, note, List.filterMap_cons, malformed, outcome]

theorem not_mem_advance {c : Cursor} {ch : Char} (plain : ch ∉ c.rest) (m n : Nat) :
    ch ∉ ((c.advance m).advance n).rest := by
  rw [Cursor.advance_rest, Cursor.advance_rest]
  exact fun held => plain (List.mem_of_mem_drop (List.mem_of_mem_drop held))

theorem outcome_of_plain {d : Dialect} {ctx : Context} {c : Cursor}
    (plain : d.introducer ∉ c.rest) : outcome (pieces d ctx c) = ([], []) := by
  induction ctx, c using Reading.pieces_induction with
  | last ctx c last => rfl
  | cons ctx c gap ch rest text trivia starts ih =>
    have other : ch ≠ d.introducer := by
      rintro rfl
      exact plain (text ▸ by simp)
    rw [outcome_host (Piece.scan_of_ne other ..)]
    exact ih (not_mem_advance plain _ _)

/-! Host text without introducers is read in front of a line feed and a harmless text. -/

theorem keepsApart_lineFeed (w tail more : List Char) :
    KeepsApart w tail (tail ++ '\n' :: more) := by
  intro b c last visible head
  cases tail with
  | nil =>
    obtain rfl := Option.some.inj head
    exact .inl (by decide)
  | cons d tail => exact .inr head

/-- A literal that is never closed takes up all of the file. -/
theorem pieces_unclosed {d : Dialect} {ctx : Context} {c : Cursor} {gap rest : List Char}
    {ch : Char} (text : c.rest = gap ++ ch :: rest) (trivia : Comment.Trivia gap)
    (starts : Comment.StartsToken (ch :: rest)) (other : ch ≠ d.introducer)
    (unclosed : Literal.extent? (ch :: rest) = some .unclosed) :
    outcome (pieces d ctx c) = ([], []) := by
  have shape : Token.hostShape d ctx.last ch rest = (.string, rest.length + 1) := by
    rw [Token.hostShape, if_neg other, Token.shape, unclosed]
    rfl
  have length := (Piece.read_hostShape (Piece.note?_of_ne other ctx c gap rest)).2
  rw [pieces_cons text trivia starts, outcome_host (Piece.scan_of_ne other ..)]
  have done : ((c.advance gap.length).advance
      (Piece.readAfter d ctx c gap ch rest).1.length).rest = [] := by
    rw [Piece.readAfter, length, shape, Cursor.advance_rest, Cursor.rest_advance_append text]
    exact List.drop_length
  rw [pieces_last (by rw [done]; exact .inl .nil)]
  rfl

/-- A host token that leaves nothing open is read in front of a line feed and a harmless text. -/
theorem outcome_token_append {d : Dialect} {ctx ctx' : Context} {c c' : Cursor} {ch : Char}
    {gap gap' w tail more : List Char} (text : c.rest = gap ++ ch :: (w ++ tail))
    (starts : Comment.StartsToken (ch :: (w ++ tail))) (other : ch ≠ d.introducer)
    (length : (Piece.readAfter d ctx c gap ch (w ++ tail)).1.length = w.length + 1)
    (closed : Literal.extent? (ch :: (w ++ tail)) ≠ some .unclosed) (harmless : Harmless more)
    (same : (ctx'.last.map (·.text)).any Regex.endsOperand =
      (ctx.last.map (·.text)).any Regex.endsOperand)
    (text' : c'.rest = gap' ++ ch :: (w ++ (tail ++ '\n' :: more)))
    (trivia' : Comment.Trivia gap') :
    ∃ ctx'' : Context, outcome (pieces d ctx' c') =
        outcome (pieces d ctx'' ((c'.advance gap'.length).advance (w.length + 1))) ∧
      ctx''.last.map (·.text) =
        (Piece.readAfter d ctx c gap ch (w ++ tail)).2.last.map (·.text) := by
  have apart := keepsApart_lineFeed (ch :: w) tail more
  have host := Piece.note?_of_ne other ctx c gap (w ++ tail)
  have host' := Piece.note?_of_ne other ctx' c' gap' (w ++ (tail ++ '\n' :: more))
  rw [pieces_cons text' trivia' (starts.append apart), outcome_host (Piece.scan_of_ne other ..)]
  unfold Piece.readAfter at length host host' ⊢
  have own := (Piece.read_hostShape host).2.symm.trans length
  have shape : Token.hostShape d ctx.last ch (w ++ tail) =
      ((Token.hostShape d ctx.last ch (w ++ tail)).1, w.length + 1) := by
    rw [← own]
  have slash : ch = '/' → w = [] → d.introducer ≠ '/' → ∀ n,
      Regex.extent? (ctx.last.map (·.text)) ('/' :: (tail ++ '\n' :: more)) ≠
        some (.closed n) := by
    rintro rfl rfl -
    rw [Token.hostShape, if_neg other] at own
    exact Regex.extent?_append_harmless (Token.extent?_of_shape_alone own) starts harmless
  have shape' := Token.hostShape_append shape same starts.visible apart
    (fun opens => absurd opens closed) slash
  obtain ⟨length', -, word⟩ := Piece.read_of_hostShape host host' length
    (Cursor.rest_advance_append text) (Cursor.rest_advance_append text') (shape'.trans shape.symm)
  refine ⟨_, by rw [length'], ?_⟩
  rw [Piece.last_read host', Piece.last_read host, Option.map_some, Option.map_some, word]

/-- Host text that leaves nothing open is read up to its end, and the reader goes on with what
comes after it. If a literal or a block comment is open, nothing more is found. -/
theorem outcome_append {d : Dialect} (ctx : Context) (c : Cursor) {more : List Char}
    (plain : d.introducer ∉ c.rest) (harmless : Harmless more) (ctx' : Context) (c' : Cursor)
    (gap' : List Char)
    (same : (ctx'.last.map (·.text)).any Regex.endsOperand =
      (ctx.last.map (·.text)).any Regex.endsOperand)
    (text' : c'.rest = gap' ++ (c.rest ++ '\n' :: more)) (trivia' : Comment.Trivia gap') :
    (Settles d ctx c ∧ ∃ (ctx'' : Context) (c'' : Cursor) (gap'' : List Char),
      outcome (pieces d ctx' c') = outcome (pieces d ctx'' c'') ∧
      c''.rest = gap'' ++ more ∧ Comment.Trivia gap'') ∨
    (¬ Settles d ctx c ∧ outcome (pieces d ctx' c') = ([], [])) := by
  induction ctx, c using Reading.pieces_induction (d := d) generalizing ctx' c' gap' with
  | last ctx c last =>
    rw [settles_last_iff last]
    by_cases block : Comment.EndsInBlock c.rest
    · have end_ := (block.append_harmless harmless).prepend trivia'
      rw [← text'] at end_
      rw [pieces_last (.inr (.inr end_))]
      exact .inr ⟨fun closed => closed block, rfl⟩
    · refine .inl ⟨block, ctx', c', gap' ++ (c.rest ++ ['\n']), rfl, by rw [text']; simp, ?_⟩
      exact trivia'.append (last.append_lineFeed block)
  | cons ctx c gap ch rest text trivia starts ih =>
    have other : ch ≠ d.introducer := by
      rintro rfl
      exact plain (text ▸ by simp)
    obtain ⟨w, tail, rfl, length⟩ :=
      Piece.exists_append_of_host (Piece.note?_of_ne other ctx c gap rest)
    rw [← Piece.readAfter] at length
    have text₁ : c'.rest = (gap' ++ gap) ++ ch :: (w ++ (tail ++ '\n' :: more)) := by
      rw [text', text]
      simp
    have trivia₁ := trivia'.append trivia
    rw [settles_cons_iff text trivia starts]
    by_cases unclosed : Literal.extent? (ch :: (w ++ tail)) = some .unclosed
    · have unclosed₁ := Literal.extent?_unclosed_append unclosed harmless
      rw [List.append_assoc] at unclosed₁
      have starts₁ := starts.append (keepsApart_lineFeed (ch :: w) tail more)
      exact .inr ⟨fun settles => settles.1 unclosed,
        pieces_unclosed text₁ trivia₁ starts₁ other unclosed₁⟩
    · obtain ⟨ctx₁, goes, last⟩ :=
        outcome_token_append text starts other length unclosed harmless same text₁ trivia₁
      have rest₁ : ((c.advance gap.length).advance (w.length + 1)).rest = tail :=
        Cursor.rest_advance_append (w := ch :: w) (Cursor.rest_advance_append text)
      have plain₁ := not_mem_advance plain gap.length (w.length + 1)
      rw [length, rest₁] at ih
      rw [rest₁] at plain₁
      rw [length, goes]
      rcases ih plain₁ ctx₁ _ [] (congrArg (·.any Regex.endsOperand) last)
        (Cursor.rest_advance_append (w := ch :: w) (Cursor.rest_advance_append text₁)) .nil with
        ⟨settles, found⟩ | ⟨open_, nothing⟩
      · exact .inl ⟨⟨unclosed, settles⟩, found⟩
      · exact .inr ⟨fun settles => open_ settles.2, nothing⟩

end Reading

end Gloss

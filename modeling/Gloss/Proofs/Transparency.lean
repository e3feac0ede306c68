import Gloss.Proofs.BareWords

/-!
# Blanking out a comment

A comment in a gap is overwritten by spaces. `Reading.ofSource?_blanked_iff` says
when the tokens and the annotations of the file stay as they were: when the host
tokens before the comment are kept, and the comment does not hide from the last of
them what comes after it. A word `class` in front of a comment heads a class; in
front of a parenthesis it names a property. Then the reader knows of other class
bodies after the comment, and each bare word there has to be read as it was: an
annotation where no member is expected, and none where one is.
-/

namespace Gloss

open Host

/-! ## Along a text -/

/-- Every one of the tokens has the property where the reader comes to it. -/
def Reading.Along (d : Dialect) (holds : Context → Cursor → Token → Prop) (ctx : Context)
    (c : Cursor) : List Token → Prop
  | [] => True
  | t :: ts =>
    let gap := c.rest.take (Comment.gap c.rest)
    let c' := c.advance gap.length
    match c'.rest with
    | [] => True
    | ch :: rest =>
      holds (ctx.afterGap (gap.count '\n')) c' t ∧
        Along d holds (Piece.readAfter d ctx c gap ch rest).2 (c'.advance t.text.length) ts

/-- The state in which the reader has the tokens behind it. -/
def Reading.past (d : Dialect) (ctx : Context) (c : Cursor) : List Token → Context × Cursor
  | [] => (ctx, c)
  | t :: ts =>
    let gap := c.rest.take (Comment.gap c.rest)
    let c' := c.advance gap.length
    match c'.rest with
    | [] => (ctx, c')
    | ch :: rest => past d (Piece.readAfter d ctx c gap ch rest).2 (c'.advance t.text.length) ts

/-- Host tokens are kept. -/
def KeptHost (d : Dialect) (ctx : Context) (c : Cursor) (t : Token) : Prop :=
  t.isNote = false → Keeps d ctx c t

/-- Where the text after the tokens at the start of a file starts. -/
def Token.endOf (ts : List Token) : Nat := (ts.getLast?.map (·.span.stop)).getD 0

namespace Reading

variable {d : Dialect} {ctx ctx' : Context} {c c' : Cursor} {gap gap' w tail tail' : List Char}
  {ch : Char} {ps : List Piece}

/-- The reader takes the gap in front of a token. -/
theorem take_gap {rest : List Char} (text : c.rest = gap ++ ch :: rest)
    (trivia : Comment.Trivia gap) (starts : Comment.StartsToken (ch :: rest)) :
    c.rest.take (Comment.gap c.rest) = gap := by
  rw [text, Comment.gap_append trivia starts, List.take_left]

theorem along_cons {holds : Context → Cursor → Token → Prop} {rest : List Char} {t : Token}
    {ts : List Token} (text : c.rest = gap ++ ch :: rest) (trivia : Comment.Trivia gap)
    (starts : Comment.StartsToken (ch :: rest)) :
    Along d holds ctx c (t :: ts) ↔
      holds (ctx.afterGap (gap.count '\n')) (c.advance gap.length) t ∧
        Along d holds (Piece.readAfter d ctx c gap ch rest).2
          ((c.advance gap.length).advance t.text.length) ts := by
  rw [Along]
  simp only [take_gap text trivia starts, Cursor.rest_advance_append text]

theorem past_cons {rest : List Char} {t : Token} {ts : List Token}
    (text : c.rest = gap ++ ch :: rest) (trivia : Comment.Trivia gap)
    (starts : Comment.StartsToken (ch :: rest)) :
    past d ctx c (t :: ts) = past d (Piece.readAfter d ctx c gap ch rest).2
      ((c.advance gap.length).advance t.text.length) ts := by
  rw [past]
  simp only [take_gap text trivia starts, Cursor.rest_advance_append text]

theorem along_of_rest_nil {holds : Context → Cursor → Token → Prop} {ts : List Token}
    (done : c.rest = []) : Along d holds ctx c ts := by
  cases ts with
  | nil => trivial
  | cons t ts =>
    rw [Along, done]
    simp [done]

/-- Along two lists of tokens is along the first one, and along the second one from there. -/
theorem along_append {holds : Context → Cursor → Token → Prop} {ts us : List Token} :
    Along d holds ctx c (ts ++ us) ↔
      Along d holds ctx c ts ∧
        Along d holds (past d ctx c ts).1 (past d ctx c ts).2 us := by
  induction ts generalizing ctx c with
  | nil => exact (iff_of_eq (true_and _)).symm
  | cons t ts ih =>
    rw [List.cons_append, Along, Along, past]
    split
    · next done => exact iff_of_true trivial ⟨trivial, along_of_rest_nil done⟩
    · rw [ih, and_assoc]

theorem Along.mono {holds holds' : Context → Cursor → Token → Prop}
    (weaker : ∀ ctx c t, holds ctx c t → holds' ctx c t) {ts : List Token}
    (along : Along d holds ctx c ts) : Along d holds' ctx c ts := by
  induction ts generalizing ctx c with
  | nil => trivial
  | cons t ts ih =>
    rw [Along] at along ⊢
    split
    · trivial
    · next ch rest here =>
      simp only [here] at along
      exact ⟨weaker _ _ _ along.1, ih along.2⟩

theorem Along.of_forall {holds : Context → Cursor → Token → Prop} {ts : List Token}
    (all : ∀ t ∈ ts, ∀ ctx c, holds ctx c t) : Along d holds ctx c ts := by
  induction ts generalizing ctx c with
  | nil => trivial
  | cons t ts ih =>
    obtain ⟨first, others⟩ := List.forall_mem_cons.mp all
    rw [Along]
    split
    · trivial
    · exact ⟨first _ _, ih others⟩

/-! ## Reading again -/

/-- The second pieces are the first ones read again. -/
structure Repeats (ps ps' : List Piece) : Prop where
  tokens : ps'.map (·.token) = ps.map (·.token)
  notes : ps'.filterMap (·.note?) = ps.filterMap (·.note?)
  whole : ∀ p ∈ ps', p.isTorn = false

theorem Repeats.cons {p p' : Piece} {ps' : List Piece} (first : p.Repeats p')
    (others : Repeats ps ps') : Repeats (p :: ps) (p' :: ps') where
  tokens := by rw [List.map_cons, List.map_cons, first.token, others.tokens]
  notes := by rw [List.filterMap_cons, List.filterMap_cons, first.note, others.notes]
  whole := List.forall_mem_cons.mpr ⟨first.whole, others.whole⟩

/-- Wherever the text is read in a state alike, the pieces are read again exactly when their tokens
are retained. -/
def RepeatedBy (d : Dialect) (ctx : Context) (c : Cursor) (left : List Char) (ps : List Piece) :
    Prop :=
  ∀ ctx' c', ctx.Alike ctx' → c.Alike c' → c'.rest = left →
    (Along d (Retains d) ctx' c' (ps.map (·.token)) → Repeats ps (pieces d ctx' c')) ∧
    ((pieces d ctx' c').map (·.token) = ps.map (·.token) →
      (∀ p ∈ pieces d ctx' c', p.isTorn = false) →
      Along d (Retains d) ctx' c' (ps.map (·.token)))

/-- After a gap and a token comes what is left. -/
theorem rest_advance_token (text : c.rest = gap ++ ch :: (w ++ tail)) :
    ((c.advance gap.length).advance (w.length + 1)).rest = tail :=
  Cursor.rest_advance_append (w := ch :: w) (Cursor.rest_advance_append text)

theorem length_text_readAfter (text : c.rest = gap ++ ch :: (w ++ tail))
    (length : (Piece.readAfter d ctx c gap ch (w ++ tail)).1.length = w.length + 1) :
    (Piece.readAfter d ctx c gap ch (w ++ tail)).1.token.text.length = w.length + 1 := by
  obtain ⟨kind, token⟩ := Piece.exists_token_read d ctx (c.advance gap.length) (gap.count '\n') ch
    (w ++ tail)
  rw [Piece.readAfter] at length ⊢
  rw [token, length, Piece.tokenAt, Cursor.lexeme, Cursor.rest_advance_append text,
    String.length_ofList, List.take_succ_cons, List.take_left, List.length_cons]

/-- Behind matching gaps and a token the cursors are alike. -/
theorem alike_advance_token (text : c.rest = gap ++ ch :: (w ++ tail))
    (gaps : Comment.MatchingGaps gap gap') (place : c.Alike c')
    (text' : c'.rest = gap' ++ ch :: (w ++ tail')) :
    ((c.advance gap.length).advance (w.length + 1)).Alike
      ((c'.advance gap'.length).advance (w.length + 1)) :=
  (place.advance_gap gaps text text').advance (w := ch :: w) (Cursor.rest_advance_append text)
    (Cursor.rest_advance_append text')

/-- Behind matching gaps a token that is retained is read again. -/
theorem repeats_readAfter (text : c.rest = gap ++ ch :: (w ++ tail))
    (gaps : Comment.MatchingGaps gap gap') (starts : Comment.StartsToken (ch :: (w ++ tail)))
    (length : (Piece.readAfter d ctx c gap ch (w ++ tail)).1.length = w.length + 1)
    (part : PartAtSlash tail tail') (alike : ctx.Alike ctx') (place : c.Alike c')
    (text' : c'.rest = gap' ++ ch :: (w ++ tail'))
    (retains : Retains d (ctx'.afterGap (gap'.count '\n')) (c'.advance gap'.length)
      (Piece.readAfter d ctx c gap ch (w ++ tail)).1.token) :
    (Piece.readAfter d ctx c gap ch (w ++ tail)).1.Repeats
        (Piece.readAfter d ctx' c' gap' ch (w ++ tail')).1 ∧
      (Piece.readAfter d ctx c gap ch (w ++ tail)).2.Alike
        (Piece.readAfter d ctx' c' gap' ch (w ++ tail')).2 := by
  rw [Piece.readAfter, Piece.readAfter, gaps.lines] at *
  exact Piece.repeats_of_retains alike (place.advance_gap gaps text text') length
    (Cursor.rest_advance_append text) (Cursor.rest_advance_append text') starts part retains

/-- The next token is read again together with all that follow it. -/
theorem RepeatedBy.cons (text : c.rest = gap ++ ch :: (w ++ tail))
    (gaps : Comment.MatchingGaps gap gap') (starts : Comment.StartsToken (ch :: (w ++ tail)))
    (length : (Piece.readAfter d ctx c gap ch (w ++ tail)).1.length = w.length + 1)
    (part : PartAtSlash tail tail')
    (later : RepeatedBy d (Piece.readAfter d ctx c gap ch (w ++ tail)).2
      ((c.advance gap.length).advance (w.length + 1)) tail' ps) :
    RepeatedBy d ctx c (gap' ++ ch :: (w ++ tail'))
      ((Piece.readAfter d ctx c gap ch (w ++ tail)).1 :: ps) := by
  intro ctx' c' alike place text'
  have starts' := starts.append (part.keepsApart (ch :: w))
  have place₂ := alike_advance_token text gaps place text'
  have rest₂ := rest_advance_token text'
  have again := repeats_readAfter text gaps starts length part alike place text'
  rw [pieces_cons text' gaps.right starts', List.map_cons, along_cons text' gaps.right starts',
    length_text_readAfter text length]
  constructor
  · intro retained
    obtain ⟨first, alike₂⟩ := again retained.1
    rw [first.length.trans length]
    exact .cons first ((later _ _ alike₂ place₂ rest₂).1 retained.2)
  · intro tokens whole
    obtain ⟨first, others⟩ := List.cons.inj tokens
    obtain ⟨whole₁, whole₂⟩ := List.forall_mem_cons.mp whole
    have retains : Retains d (ctx'.afterGap (gap'.count '\n')) (c'.advance gap'.length)
        (Piece.readAfter d ctx c gap ch (w ++ tail)).1.token := by
      rw [Piece.readAfter, Piece.readAfter, gaps.lines] at *
      exact Piece.retains_of_token alike length (Cursor.rest_advance_append text)
        (Cursor.rest_advance_append text') starts part first whole₁
    obtain ⟨repeats, alike₂⟩ := again retains
    rw [repeats.length.trans length] at others whole₂
    exact ⟨retains, (later _ _ alike₂ place₂ rest₂).2 others whole₂⟩

/-- A piece takes up the first character of its text and some of those after it. -/
theorem exists_append_readAfter (d : Dialect) (ctx : Context) {rest : List Char}
    (text : c.rest = gap ++ ch :: rest) :
    ∃ w tail, rest = w ++ tail ∧ (Piece.readAfter d ctx c gap ch rest).1.length = w.length + 1 := by
  cases note : (Piece.readAfter d ctx c gap ch rest).1.note? with
  | none => exact Piece.exists_append_of_host note
  | some a =>
    obtain ⟨intro, length, found⟩ := Piece.scan_of_note note
    have pos := Note.length_pos_of_scan found
    have bound := Note.length_le_of_scan found
    rw [Cursor.rest_advance_append text, List.length_cons] at bound
    rw [Piece.readAfter, Piece.read_note intro found]
    refine ⟨_, _, (List.take_append_drop (length - 1) rest).symm, ?_⟩
    rw [List.length_take]
    dsimp only
    omega

/-- The reader comes to a state over the pieces of a text. -/
inductive Over (d : Dialect) (ctx₁ : Context) (c₁ : Cursor) :
    Context → Cursor → List Char → List Piece → Prop
  | done : Over d ctx₁ c₁ ctx₁ c₁ [] []
  | step {ctx : Context} {c : Cursor} {gap w u : List Char} {ch : Char} {ps : List Piece} :
    c.rest = gap ++ ch :: (w ++ (u ++ c₁.rest)) → Comment.Trivia gap →
    Comment.StartsToken (ch :: (w ++ (u ++ c₁.rest))) →
    (Piece.readAfter d ctx c gap ch (w ++ (u ++ c₁.rest))).1.length = w.length + 1 →
    Over d ctx₁ c₁ (Piece.readAfter d ctx c gap ch (w ++ (u ++ c₁.rest))).2
      ((c.advance gap.length).advance (w.length + 1)) u ps →
    Over d ctx₁ c₁ ctx c (gap ++ ch :: (w ++ u))
      ((Piece.readAfter d ctx c gap ch (w ++ (u ++ c₁.rest))).1 :: ps)

/-- A run goes over the text between its states. -/
theorem Run.exists_over {ctx₁ : Context} {c₁ : Cursor} (run : Run d ctx c ps ctx₁ c₁) :
    ∃ u, c.rest = u ++ c₁.rest ∧ Over d ctx₁ c₁ ctx c u ps := by
  induction run with
  | done ctx c => exact ⟨[], rfl, .done⟩
  | @step ctx ctx₁ c c₁ gap rest ch ps text trivia starts run ih =>
    obtain ⟨u, left, path⟩ := ih
    obtain ⟨w, tail, rfl, length⟩ := exists_append_readAfter d ctx text
    rw [length] at left path
    rw [rest_advance_token text] at left
    subst left
    exact ⟨gap ++ ch :: (w ++ u), by rw [text]; simp, .step text trivia starts length path⟩

/-- Another text is what is left with another gap: before the first piece, or at the end. -/
inductive Regapped (d : Dialect) : Context → Cursor → List Char → List Piece → Prop
  | last {ctx : Context} {c : Cursor} {left : List Char} :
    Comment.LastTrivia left → Regapped d ctx c left []
  | step {ctx : Context} {c : Cursor} {gap gap' w tail : List Char} {ch : Char}
      {ps : List Piece} :
    c.rest = gap ++ ch :: (w ++ tail) → Comment.MatchingGaps gap gap' →
    Comment.StartsToken (ch :: (w ++ tail)) →
    (Piece.readAfter d ctx c gap ch (w ++ tail)).1.length = w.length + 1 →
    Regapped d (Piece.readAfter d ctx c gap ch (w ++ tail)).2
      ((c.advance gap.length).advance (w.length + 1)) tail ps →
    Regapped d ctx c (gap' ++ ch :: (w ++ tail))
      ((Piece.readAfter d ctx c gap ch (w ++ tail)).1 :: ps)

theorem regapped_rest (d : Dialect) (ctx : Context) (c : Cursor) :
    Regapped d ctx c c.rest (pieces d ctx c) := by
  induction ctx, c using pieces_induction with
  | last ctx c last => exact .last last
  | cons ctx c gap ch rest text trivia starts ih =>
    obtain ⟨w, tail, rfl, length⟩ := exists_append_readAfter d ctx text
    rw [text]
    rw [length] at ih ⊢
    rw [rest_advance_token text] at ih
    exact .step text (.refl trivia) starts length ih

/-- In front of a blanked comment the text has another gap. -/
theorem regapped_blanked {comment after : List Char} (is : Comment.IsComment comment after)
    (trivia : Comment.Trivia gap) (text : c.rest = gap ++ (comment ++ after)) (d : Dialect)
    (ctx : Context) :
    Regapped d ctx c (gap ++ (Comment.blanked comment ++ after)) (pieces d ctx c) := by
  rcases is.matching_or_last trivia with ⟨more, rest, rfl, starts, gaps⟩ | ⟨last, last'⟩
  · obtain ⟨ch, rest, rfl⟩ := starts.exists_cons
    simp only [← List.append_assoc] at text gaps ⊢
    obtain ⟨w, tail, rfl, length⟩ := exists_append_readAfter d ctx text
    rw [pieces_cons text gaps.left starts, length]
    have later := regapped_rest d
      (Piece.readAfter d ctx c (gap ++ comment ++ more) ch (w ++ tail)).2
      ((c.advance (gap ++ comment ++ more).length).advance (w.length + 1))
    rw [rest_advance_token text] at later
    exact .step text gaps starts length later
  · rw [← text] at last
    rw [pieces_last last]
    exact .last last'

/-- A text with another gap is read again. -/
theorem Regapped.repeatedBy {left : List Char} (regapped : Regapped d ctx c left ps) :
    RepeatedBy d ctx c left ps := by
  induction regapped with
  | last last =>
    intro ctx' c' _ _ text
    rw [pieces_last (text ▸ last)]
    exact ⟨fun _ => ⟨rfl, rfl, List.forall_mem_nil _⟩, fun _ _ => trivial⟩
  | step text gaps starts length _ ih => exact .cons text gaps starts length (.inl rfl) ih

section Over

variable {ctx₁ : Context} {c₁ : Cursor} {u : List Char} (path : Over d ctx₁ c₁ ctx c u ps)
  (part : PartAtSlash c₁.rest tail')

include path part

/-- What the reader comes over is read again when the text after it parts at a slash. -/
theorem Over.repeatedBy {qs : List Piece} (later : RepeatedBy d ctx₁ c₁ tail' qs) :
    RepeatedBy d ctx c (u ++ tail') (ps ++ qs) := by
  induction path with
  | done => exact later
  | step text trivia starts length _ ih =>
    simp only [List.append_assoc, List.cons_append]
    exact .cons text (.refl trivia) starts length (part.prepend _) ih

/-- Where all its tokens are retained, the reader comes to a state alike. -/
theorem Over.past_alike (alike : ctx.Alike ctx') (place : c.Alike c') (text' : c'.rest = u ++ tail')
    (retained : Along d (Retains d) ctx' c' (ps.map (·.token))) :
    ctx₁.Alike (past d ctx' c' (ps.map (·.token))).1 ∧
      c₁.Alike (past d ctx' c' (ps.map (·.token))).2 ∧
      (past d ctx' c' (ps.map (·.token))).2.rest = tail' := by
  induction path generalizing ctx' c' with
  | done => exact ⟨alike, place, text'⟩
  | @step ctx c gap w u ch ps text trivia starts length path ih =>
    rw [List.append_assoc, List.cons_append, List.append_assoc] at text'
    have part' := part.prepend u
    have starts' := starts.append (part'.keepsApart (ch :: w))
    have long := length_text_readAfter text length
    rw [List.map_cons, along_cons text' trivia starts', long] at retained
    obtain ⟨-, alike₂⟩ := repeats_readAfter text (.refl trivia) starts length part' alike place
      text' retained.1
    rw [List.map_cons, past_cons text' trivia starts', long]
    exact ih alike₂ (alike_advance_token text (.refl trivia) place text') (rest_advance_token text')
      retained.2

end Over

/-! ## Reading again in the same context -/

/-- The next token is read again in the same context, and the context after it is the same. -/
theorem readAfter_of_kept (text : c.rest = gap ++ ch :: (w ++ tail))
    (gaps : Comment.MatchingGaps gap gap') (starts : Comment.StartsToken (ch :: (w ++ tail)))
    (length : (Piece.readAfter d ctx c gap ch (w ++ tail)).1.length = w.length + 1)
    (part : PartAtSlash tail tail') (place : c.Alike c')
    (text' : c'.rest = gap' ++ ch :: (w ++ tail'))
    (kept : KeptHost d (ctx.afterGap (gap'.count '\n')) (c'.advance gap'.length)
      (Piece.readAfter d ctx c gap ch (w ++ tail)).1.token) :
    Retains d (ctx.afterGap (gap'.count '\n')) (c'.advance gap'.length)
        (Piece.readAfter d ctx c gap ch (w ++ tail)).1.token ∧
      (Piece.readAfter d ctx c gap ch (w ++ tail)).1.Repeats
        (Piece.readAfter d ctx c' gap' ch (w ++ tail')).1 ∧
      ((Piece.readAfter d ctx c' gap' ch (w ++ tail')).2 =
          (Piece.readAfter d ctx c gap ch (w ++ tail)).2 ∨
        ch ≠ d.introducer ∧
          (Piece.readAfter d ctx c gap ch (w ++ tail)).1.token.text = "class" ∧
          ctx.namesProperty tail = false ∧ ctx.namesProperty tail' = true) := by
  have here := Cursor.rest_advance_append text
  have here' := Cursor.rest_advance_append text'
  have retains : Retains d (ctx.afterGap (gap'.count '\n')) (c'.advance gap'.length)
      (Piece.readAfter d ctx c gap ch (w ++ tail)).1.token := by
    rw [Piece.readAfter, gaps.lines] at *
    exact Piece.retains_of_kept (place.advance_gap gaps text text') length here here' part kept
  obtain ⟨repeats, -⟩ := repeats_readAfter text gaps starts length part (.refl ctx) place text'
    retains
  refine ⟨retains, repeats, ?_⟩
  rw [Piece.readAfter, Piece.readAfter, gaps.lines] at *
  exact Piece.context_of_repeats length here here' part repeats

/-- In the same context all tokens are retained, with another gap before the first one. -/
theorem Regapped.retained {left : List Char} (regapped : Regapped d ctx c left ps)
    (whole : ∀ p ∈ ps, p.isTorn = false) (place : c.Alike c') (text' : c'.rest = left) :
    Along d (Retains d) ctx c' (ps.map (·.token)) := by
  induction regapped generalizing c' with
  | last => trivial
  | @step ctx c gap gap' w tail ch ps text gaps starts length _ ih =>
    obtain ⟨whole₁, whole₂⟩ := List.forall_mem_cons.mp whole
    have kept : KeptHost d (ctx.afterGap (gap'.count '\n')) (c'.advance gap'.length)
        (Piece.readAfter d ctx c gap ch (w ++ tail)).1.token := by
      intro host
      rw [Piece.readAfter, Piece.isNote_read, Option.isSome_eq_false_iff, Option.isNone_iff_eq_none]
        at host
      rw [gaps.lines]
      exact Piece.keeps_of_same (place.advance_gap gaps text text')
        (Cursor.rest_advance_append text) (Cursor.rest_advance_append text') host whole₁
    obtain ⟨retains, -, same | ⟨-, -, heads, names⟩⟩ :=
      readAfter_of_kept text gaps starts length (.inl rfl) place text' kept
    · rw [List.map_cons, along_cons text' gaps.right starts, length_text_readAfter text length,
        same]
      exact ⟨retains,
        ih whole₂ (alike_advance_token text gaps place text') (rest_advance_token text')⟩
    · rw [heads] at names
      cases names

/-! ## Reading again among other class bodies -/

theorem offset_advance_ne_zero (inside : c.offset ≠ 0) (length : Nat) :
    (c.advance length).offset ≠ 0 :=
  Nat.ne_of_gt (Nat.lt_of_lt_of_le (Nat.pos_of_ne_zero inside) (c.offset_le_advance length))

/-- In a context alike, with another gap before the first one, the tokens are retained exactly when
each bare word among them is an annotation where no member is expected, and none where one is. -/
theorem Regapped.suits_iff {left : List Char} (regapped : Regapped d ctx c left ps)
    (whole : ∀ p ∈ ps, p.isTorn = false) (alike : ctx.Alike ctx') (place : c.Alike c')
    (text' : c'.rest = left) (inside : c'.offset ≠ 0) :
    Along d (Suits d) ctx' c' (ps.map (·.token)) ↔
      Along d (Retains d) ctx' c' (ps.map (·.token)) := by
  induction regapped generalizing ctx' c' with
  | last => exact Iff.rfl
  | @step ctx c gap gap' w tail ch ps text gaps starts length _ ih =>
    obtain ⟨whole₁, whole₂⟩ := List.forall_mem_cons.mp whole
    have inside₁ := offset_advance_ne_zero inside gap'.length
    have first : Retains d (ctx'.afterGap (gap'.count '\n')) (c'.advance gap'.length)
          (Piece.readAfter d ctx c gap ch (w ++ tail)).1.token ↔
        Suits d (ctx'.afterGap (gap'.count '\n')) (c'.advance gap'.length)
          (Piece.readAfter d ctx c gap ch (w ++ tail)).1.token := by
      rw [gaps.lines]
      exact Piece.retains_iff_suits alike (place.advance_gap gaps text text')
        (Cursor.rest_advance_append text) (Cursor.rest_advance_append text') inside₁ whole₁
    rw [List.map_cons, along_cons text' gaps.right starts, along_cons text' gaps.right starts,
      length_text_readAfter text length, ← first]
    refine and_congr_right fun retains => ?_
    obtain ⟨-, alike₂⟩ := repeats_readAfter text gaps starts length (.inl rfl) alike place text'
      retains
    exact ih whole₂ alike₂ (alike_advance_token text gaps place text') (rest_advance_token text')
      (offset_advance_ne_zero inside₁ _)

/-! ## What the comment hides -/

/-- The last of the tokens heads a class in the first text and names a property in the second. -/
def HidesHead (source changed : List Char) (before ts : List Token) : Prop :=
  ∃ us t, ts = us ++ [t] ∧ Token.headsClass source (before ++ us) t = true ∧
    Token.headsClass changed (before ++ us) t = false

theorem HidesHead.cons {source changed : List Char} {before ts : List Token} {t : Token}
    (hides : HidesHead source changed (before ++ [t]) ts) :
    HidesHead source changed before (t :: ts) := by
  obtain ⟨us, u, rfl, heads, names⟩ := hides
  rw [List.append_assoc] at heads names
  exact ⟨t :: us, u, rfl, heads, names⟩

/-- A word heads a class in a text, or names a property there. -/
theorem headsClass_readAfter {source : List Char} {before : List Token}
    (knows : ctx.Knows c source before) (other : ch ≠ d.introducer)
    (text : c.rest = gap ++ ch :: (w ++ tail))
    (length : (Piece.readAfter d ctx c gap ch (w ++ tail)).1.length = w.length + 1) :
    Token.headsClass source before (Piece.readAfter d ctx c gap ch (w ++ tail)).1.token = true ↔
      (Piece.readAfter d ctx c gap ch (w ++ tail)).1.token.text = "class" ∧
        ctx.namesProperty tail = false := by
  have here := Cursor.rest_advance_append text
  have after (n : Nat) : Text.after source ((c.advance gap.length).advance n).offset =
      (c.advance gap.length).rest.drop n := by
    rw [Cursor.advance_advance, knows.after_advance, ← Cursor.advance_advance, Cursor.advance_rest]
  rw [Piece.readAfter, Piece.read_host other] at length ⊢
  have last : (ctx.afterGap (gap.count '\n')).last = Token.lastHost before := knows.last
  rw [Piece.headsClass_readHost (gap.count '\n') last here after]
  have size : (Token.shape (ctx.afterGap (gap.count '\n')).last ch (w ++ tail)).2 =
      w.length + 1 := length
  rw [size, here, List.drop_succ_cons, List.drop_left]
  exact Iff.rfl

/-- In the same context the reader comes over the same tokens when its host tokens are kept, and to
the same context, unless the last token heads a class in the first text alone. -/
theorem Over.retained {ctx₁ : Context} {c₁ : Cursor} {u source changed : List Char}
    {before : List Token} (path : Over d ctx₁ c₁ ctx c u ps) (part : PartAtSlash c₁.rest tail')
    (knows : ctx.Knows c source before) (knows' : ctx.Knows c' changed before) (place : c.Alike c')
    (text' : c'.rest = u ++ tail') (kept : Along d (KeptHost d) ctx c' (ps.map (·.token))) :
    Along d (Retains d) ctx c' (ps.map (·.token)) ∧
      ((past d ctx c' (ps.map (·.token))).1 = ctx₁ ∨
        HidesHead source changed before (ps.map (·.token))) := by
  induction path generalizing before c' with
  | done => exact ⟨trivial, .inl rfl⟩
  | @step ctx c gap w u ch ps text trivia starts length path ih =>
    rw [List.append_assoc, List.cons_append, List.append_assoc] at text'
    have part' := part.prepend u
    have starts' := starts.append (part'.keepsApart (ch :: w))
    have long := length_text_readAfter text length
    rw [List.map_cons, along_cons text' trivia starts', long] at kept
    rw [List.map_cons, along_cons text' trivia starts', past_cons text' trivia starts', long]
    obtain ⟨retains, repeats, same | ⟨other, word, heads, names⟩⟩ :=
      readAfter_of_kept text (.refl trivia) starts length part' place text' kept.1
    · have place₂ := alike_advance_token text (.refl trivia) place text'
      have knows₁ := knows.readAfter d gap ch (w ++ (u ++ c₁.rest))
      have knows₂ := knows'.readAfter d gap ch (w ++ (u ++ tail'))
      rw [length] at knows₁
      rw [repeats.length.trans length, repeats.token, same] at knows₂
      rw [same] at kept ⊢
      obtain ⟨others, state⟩ := ih knows₁ knows₂ place₂ (rest_advance_token text') kept.2
      exact ⟨⟨retains, others⟩, state.imp_right HidesHead.cons⟩
    · -- the next visible character is read in both texts, unless this token is the last
      cases path with
      | @step _ _ gap₂ w₂ u ch₂ ps _ _ starts₂ =>
        have visible : ctx.namesProperty (gap₂ ++ ch₂ :: (w₂ ++ u ++ tail')) =
            ctx.namesProperty (gap₂ ++ ch₂ :: (w₂ ++ u ++ c₁.rest)) :=
          Context.namesProperty_of_visible starts₂.visible
        rw [List.append_assoc, List.cons_append] at heads names
        rw [visible, heads] at names
        cases names
      | done =>
        refine ⟨⟨retains, trivial⟩, .inr ⟨[], _, rfl, ?_, ?_⟩⟩
        · rw [List.append_nil]
          exact (headsClass_readAfter knows other text length).mpr ⟨word, heads⟩
        · rw [List.append_nil, ← Bool.not_eq_true]
          rw [← repeats.token, headsClass_readAfter knows' other text'
            (repeats.length.trans length), names]
          simp

/-! ## A comment in a gap -/

/-- After the given tokens the reader skips the comment: it is in the gap before the next token, or
in the one before the end of the text. -/
structure Skips (d : Dialect) (source : String) (ts : List Token)
    (before comment after : List Char) : Prop where
  is : Comment.IsComment comment after
  text : source.toList = before ++ (comment ++ after)
  tokens : ts <+: (ofSource d source).tokens
  gap : ∃ past gap, before = past ++ gap ∧ Text.width past = Token.endOf ts ∧ Comment.Trivia gap

/-- A run ends where its last token does. -/
theorem Run.offset_eq {ctx₁ : Context} {c₁ : Cursor} (run : Run d ctx c ps ctx₁ c₁) :
    c₁.offset = ((ps.map (·.token)).getLast?.map (·.span.stop)).getD c.offset := by
  induction run with
  | done => rfl
  | @step ctx ctx₁ c c₁ gap rest ch ps text trivia starts run ih =>
    obtain ⟨kind, token⟩ := Piece.exists_token_read d ctx (c.advance gap.length)
      (gap.count '\n') ch rest
    have stop : (Piece.readAfter d ctx c gap ch rest).1.token.span.stop =
        ((c.advance gap.length).advance (Piece.readAfter d ctx c gap ch rest).1.length).offset := by
      rw [Piece.readAfter, token]
      rfl
    rw [ih, List.map_cons, List.getLast?_cons]
    cases (ps.map (·.token)).getLast? with
    | none => exact stop.symm
    | some t => rfl

/-- After a token the cursor is not at the start of the text. -/
theorem Run.offset_ne_zero {ctx₁ : Context} {c₁ : Cursor} (run : Run d ctx c ps ctx₁ c₁)
    (some : ps ≠ []) : c₁.offset ≠ 0 := by
  cases run with
  | done => exact absurd rfl some
  | @step _ _ _ _ gap rest ch _ text trivia starts run =>
    have pos := Cursor.offset_lt_advance (Cursor.rest_advance_append text)
      (Piece.length_pos d ctx (c.advance gap.length) (gap.count '\n') ch rest)
    exact Nat.ne_of_gt (Nat.lt_of_lt_of_le (Nat.zero_lt_of_lt pos) run.offset_le)

/-- The reader comes to a comment that it skips. -/
theorem Skips.exists_run {source : String} {ts : List Token} {before comment after : List Char}
    (skips : Skips d source ts before comment after) :
    ∃ ps ctx c gap, Run d .initial (.start source.toList) ps ctx c ∧ ps.map (·.token) = ts ∧
      Comment.Trivia gap ∧ c.rest = gap ++ (comment ++ after) := by
  obtain ⟨us, whole⟩ := skips.tokens
  obtain ⟨ps, qs, pieces_eq, rfl, rfl⟩ := List.map_eq_append_iff.mp whole.symm
  obtain ⟨ctx, c, run, -⟩ := Reading.exists_run pieces_eq
  obtain ⟨past, gap, rfl, end_, trivia⟩ := skips.gap
  obtain ⟨past', text', offset⟩ := (run.knows (Context.knows_start _)).text
  refine ⟨ps, ctx, c, gap, run, rfl, trivia, ?_⟩
  have text := skips.text
  rw [List.append_assoc] at text
  have here : Text.width past' = Text.width past := by
    rw [← offset, run.offset_eq, end_]
    rfl
  calc c.rest = Text.after source.toList (Text.width past') := by
        rw [text', Text.after_append]
    _ = gap ++ (comment ++ after) := by rw [here, text, Text.after_append]

/-- The changed text is the source up to the gap of the comment, and then the blanked comment. -/
theorem Skips.changed_eq {source changed : String} {ts : List Token}
    {before comment after : List Char} {u : List Char}
    (skips : Skips d source ts before comment after)
    (overwritten : changed.toList = before ++ (Comment.blanked comment ++ after))
    (here : source.toList = u ++ c.rest) (left : c.rest = gap ++ (comment ++ after)) :
    changed.toList = u ++ (gap ++ (Comment.blanked comment ++ after)) := by
  have front : before = u ++ gap := by
    rw [← List.append_cancel_right_eq _ (comment ++ after), ← skips.text, List.append_assoc,
      ← left]
    exact here
  rw [overwritten, front, List.append_assoc]

theorem Run.pieces_eq {ctx₁ : Context} {c₁ : Cursor} (run : Run d ctx c ps ctx₁ c₁) :
    pieces d ctx c = ps ++ pieces d ctx₁ c₁ := by
  induction run with
  | done => rfl
  | step text trivia starts run ih => rw [pieces_cons text trivia starts, ih, List.cons_append]

theorem ofSource?_eq_some_iff {source : String} {r : Reading} :
    ofSource? d source = some r ↔
      (∀ p ∈ piecesOf d source, p.isTorn = false) ∧ r = ofSource d source := by
  unfold ofSource?
  split
  · next torn =>
    obtain ⟨p, held, torn⟩ := List.any_eq_true.mp torn
    refine iff_of_false (by simp) fun whole => ?_
    rw [whole.1 p held] at torn
    cases torn
  · next none =>
    have whole : ∀ p ∈ piecesOf d source, p.isTorn = false := by
      intro p held
      cases torn : p.isTorn with
      | false => rfl
      | true => exact absurd (List.any_eq_true.mpr ⟨p, held, torn⟩) none
    rw [Option.some.injEq]
    exact ⟨fun same => ⟨whole, same.symm⟩, fun same => same.2.symm⟩

/-- After the first of the given tokens of the source, each of the others that is a bare word is an
annotation exactly where no member is expected. -/
def SuitsAfter (d : Dialect) (source : String) (ts us : List Token) : Prop :=
  Along d (Suits d) (past d .initial (.start source.toList) ts).1
    (past d .initial (.start source.toList) ts).2 us

/-- A comment that is overwritten by spaces leaves the tokens and the annotations as they were
exactly when the host tokens before it are kept and, if it hides a head, each bare word after it is
an annotation where no member is expected, and none where one is. -/
theorem ofSource?_blanked_iff {source changed : String} {r : Reading}
    (read : ofSource? d source = some r) {ts : List Token} {before comment after : List Char}
    (skips : Skips d source ts before comment after)
    (overwritten : changed.toList = before ++ (Comment.blanked comment ++ after)) :
    (∃ r', ofSource? d changed = some r' ∧ r'.tokens = r.tokens ∧ r'.notes = r.notes) ↔
      Along d (KeptHost d) .initial (.start changed.toList) ts ∧
        (HidesHead source.toList changed.toList [] ts →
          SuitsAfter d changed ts (r.tokens.drop ts.length)) := by
  obtain ⟨ps, ctx, c, gap, run, rfl, trivia, left⟩ := skips.exists_run
  have is := skips.is
  obtain ⟨whole, rfl⟩ := ofSource?_eq_some_iff.mp read
  have pieces_eq : piecesOf d source = ps ++ pieces d ctx c := run.pieces_eq
  have tokens_eq : (ofSource d source).tokens =
      ps.map (·.token) ++ (pieces d ctx c).map (·.token) := by
    rw [← List.map_append]
    exact congrArg (List.map _) pieces_eq
  rw [pieces_eq] at whole
  have whole₁ (p : Piece) (held : p ∈ pieces d ctx c) : p.isTorn = false :=
    whole p (List.mem_append_right ps held)
  obtain ⟨u, here, path⟩ := run.exists_over
  have part : PartAtSlash c.rest (gap ++ (Comment.blanked comment ++ after)) := by
    rw [left]
    exact is.partAtSlash.prepend gap
  have regapped := regapped_blanked is trivia left d ctx
  have same := skips.changed_eq overwritten here left
  have place : (Cursor.start source.toList).Alike (.start changed.toList) := ⟨rfl, Iff.rfl⟩
  obtain ⟨repeats, retains⟩ := path.repeatedBy part regapped.repeatedBy _ _ (.refl _) place same
  have reach := path.past_alike part (.refl _) place same
  have retained := path.retained part (Context.knows_start _) (Context.knows_start _) place same
  rw [List.map_append, along_append] at repeats retains
  rw [tokens_eq, List.drop_left, SuitsAfter]
  generalize past d .initial (.start changed.toList) (ps.map (·.token)) = state at *
  -- behind a head the reader is inside the changed text
  have suits (first : Along d (Retains d) .initial (.start changed.toList) (ps.map (·.token)))
      (hides : HidesHead source.toList changed.toList [] (ps.map (·.token))) :
      Along d (Suits d) state.1 state.2 ((pieces d ctx c).map (·.token)) ↔
        Along d (Retains d) state.1 state.2 ((pieces d ctx c).map (·.token)) := by
    obtain ⟨alike, place₁, rest⟩ := reach first
    refine regapped.suits_iff whole₁ alike place₁ rest ?_
    rw [place₁.offset]
    refine run.offset_ne_zero fun none => ?_
    obtain ⟨us, t, split, -⟩ := hides
    rw [none] at split
    simp at split
  constructor
  · rintro ⟨r', read', tokens, -⟩
    obtain ⟨whole', rfl⟩ := ofSource?_eq_some_iff.mp read'
    obtain ⟨first, later⟩ := retains tokens whole'
    exact ⟨first.mono fun ctx c t retains host => (retains_host host).mp retains,
      fun hides => (suits first hides).mpr later⟩
  · rintro ⟨kept, hidden⟩
    obtain ⟨first, behind⟩ := retained kept
    have later : Along d (Retains d) state.1 state.2 ((pieces d ctx c).map (·.token)) := by
      rcases behind with equal | hides
      · obtain ⟨-, place₁, rest⟩ := reach first
        rw [equal]
        exact regapped.retained whole₁ place₁ rest
      · exact (suits first hides).mp (hidden hides)
    have again := repeats ⟨first, later⟩
    exact ⟨_, ofSource?_eq_some_iff.mpr ⟨again.whole, rfl⟩, again.tokens.trans List.map_append,
      again.notes.trans (congrArg (List.filterMap _) pieces_eq.symm)⟩

/-- A comment in a declaration can be overwritten. -/
theorem ofSource?_blanked_iff_let :
    let ts : List Token := [⟨.keyword, "let", ⟨0, 3⟩, 0⟩]
    let after := [' ', 'a', ' ', '#', 'T']
    ofSource? .hash "let /**/ a #T" = some (ofSource .hash "let /**/ a #T") ∧
      Skips .hash "let /**/ a #T" ts ['l', 'e', 't', ' '] ['/', '*', '*', '/'] after ∧
      "let      a #T".toList =
        ['l', 'e', 't', ' '] ++ (Comment.blanked ['/', '*', '*', '/'] ++ after) ∧
      ∃ r', ofSource? .hash "let      a #T" = some r' ∧
        r'.tokens = (ofSource .hash "let /**/ a #T").tokens ∧
        r'.notes = (ofSource .hash "let /**/ a #T").notes := by
  intro ts after
  have read := ofSource?_eq_some (show Dialect.hash.hashbang ≠ _ by decide) "let /**/ a #T"
  have skips : Skips .hash "let /**/ a #T" ts ['l', 'e', 't', ' '] ['/', '*', '*', '/'] after :=
    ⟨.block Comment.noClose_nil, by decide +kernel, by decide +kernel,
      ['l', 'e', 't'], [' '], rfl, by decide, .blank (by decide) .nil⟩
  have overwritten : "let      a #T".toList =
      ['l', 'e', 't', ' '] ++ (Comment.blanked ['/', '*', '*', '/'] ++ after) := by decide +kernel
  have plain : ∀ t ∈ ts, t.text.toList.head? ≠ some '#' ∧ t.text ≠ "/" ∧ t.text ≠ "class" := by
    decide +kernel
  refine ⟨read, skips, overwritten, ?_⟩
  -- the tokens are kept as a name, so that the reader is not run on them
  clear_value ts
  refine (ofSource?_blanked_iff read skips overwritten).mpr
    ⟨.of_forall fun t held ctx c _ => ?_, ?_⟩
  · exact ⟨fun head => absurd head (plain t held).1, fun slash => absurd slash (plain t held).2.1⟩
  · rintro ⟨us, t, rfl, heads, -⟩
    have word : t.text = "class" := by
      simp only [Token.headsClass, Bool.and_eq_true, beq_iff_eq] at heads
      exact heads.1.1.2
    exact absurd word (plain t (by simp)).2.2

/-- The word `class` heads a class in front of a comment, and names a method in front of the
parenthesis that comes after it. In the braces, `#x` is a private name of the class, and an
annotation in the body of the method. -/
theorem ofSource?_blanked_hides_head :
    let before := ['o', ' ', '=', ' ', '\x7b', ' ', 'c', 'l', 'a', 's', 's', ' ']
    let after := [' ', '(', ')', ' ', '\x7b', ' ', '#', 'x', ' ', '\x7d', ' ', '\x7d']
    Dialect.hash.Valid ∧
      (∃ ts, Skips .hash "o = \x7b class /**/ () \x7b #x \x7d \x7d" ts before
        ['/', '*', '*', '/'] after) ∧
      "o = \x7b class      () \x7b #x \x7d \x7d".toList =
        before ++ (Comment.blanked ['/', '*', '*', '/'] ++ after) ∧
      ∃ r r', ofSource? .hash "o = \x7b class /**/ () \x7b #x \x7d \x7d" = some r ∧
        ofSource? .hash "o = \x7b class      () \x7b #x \x7d \x7d" = some r' ∧
        r.malformed = [] ∧ r.notes = [] ∧ r'.notes.map (·.payload) = ["x"] := by
  intro before after
  have skips : Skips .hash "o = \x7b class /**/ () \x7b #x \x7d \x7d"
      ((ofSource .hash "o = \x7b class /**/ () \x7b #x \x7d \x7d").tokens.take 4) before
      ['/', '*', '*', '/'] after :=
    ⟨.block Comment.noClose_nil, by decide +kernel, List.take_prefix ..,
      ['o', ' ', '=', ' ', '\x7b', ' ', 'c', 'l', 'a', 's', 's'], [' '], rfl, by decide +kernel,
      .blank (by decide) .nil⟩
  refine ⟨by decide, ⟨_, skips⟩, by decide +kernel, _, _, ofSource?_eq_some (by decide) _,
    ofSource?_eq_some (by decide) _, ?_, ?_, ?_⟩
  all_goals decide +kernel

end Reading

end Gloss

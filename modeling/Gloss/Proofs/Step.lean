import Gloss.Proofs.Trivia
import Gloss.Token.Reading

/-!
# Steps of the reader

`Piece.read` reads one token and `Reading.pieces` reads on from there. This
module says once what a step can do, so that later modules need not open the
definitions: an introducer that starts an annotation (`Piece.read_note`), an
introducer that is host text (`Piece.read_plain`), any other host token
(`Piece.read_host`), and the first piece of a text with what follows it
(`Reading.pieces_cons`, `Reading.pieces_last`). `Reading.pieces_induction` is
induction along a reading.
-/

namespace Gloss

open Host

/-! ## Annotations are cut out of the text -/

section Scan

variable {d : Dialect} {memberStart : Bool} {c : Cursor} {a : Note} {length : Nat}

/-- The annotation is cut out of the text: an opening that is not empty, a payload, a closing. -/
def Note.IsCut (c : Cursor) (a : Note) (length : Nat) : Prop :=
  ∃ form opening payload closing marker,
    a = cut c form opening payload closing marker ∧
    length = opening + payload + closing ∧ 0 < opening

theorem Note.isCut_of_scanWord (h : scanWord d memberStart c = .found a length) :
    IsCut c a length := by
  have flagged_isCut {form : Form} {payload : Nat}
      (h : flagged c form (wordOpening d c) payload = .found a length) : IsCut c a length := by
    obtain ⟨rfl, rfl⟩ := Scan.found.inj h
    exact ⟨_, _, _, _, _, rfl, rfl, wordOpening_pos d c⟩
  unfold scanWord at h
  split at h
  · cases h
  · split at h
    · split at h
      · cases h
      · split at h
        · cases h
        · exact flagged_isCut h
    · split at h
      · exact flagged_isCut h
      · cases h

theorem Note.isCut_of_scan (h : scan d memberStart c = .found a length) : IsCut c a length := by
  unfold scan at h
  split at h
  · cases h
  split at h
  · cases h
  split at h
  · exact isCut_of_scanWord h
  split at h
  · unfold scanHashbang at h
    split at h
    · cases h
    · obtain ⟨rfl, rfl⟩ := Scan.found.inj h
      exact ⟨_, 2, _, 0, _, rfl, rfl, by decide⟩
  split at h
  · unfold scanBlock at h
    split at h
    · cases h
    split at h
    · obtain ⟨rfl, rfl⟩ := Scan.found.inj h
      exact ⟨_, 2, _, 1, _, rfl, rfl, by decide⟩
    · cases h
  split at h
  · unfold scanQuoted at h
    split at h
    · cases h
    · cases h
    · obtain ⟨rfl, rfl⟩ := Scan.found.inj h
      exact ⟨_, 2, _, 1, _, rfl, rfl, by decide⟩
  · exact isCut_of_scanWord h

/-- An annotation covers what it takes up. -/
theorem Note.span_of_scan (h : scan d memberStart c = .found a length) :
    a.span = c.span length := by
  obtain ⟨form, opening, payload, closing, marker, rfl, rfl, -⟩ := isCut_of_scan h
  rfl

end Scan

theorem Token.shape_kind_ne_note (last : Option Token) (c : Char) (rest : List Char)
    (index : Nat) : (Token.shape last c rest).1 ≠ .note index := by
  unfold Token.shape Token.plainShape
  dsimp only
  repeat' split
  all_goals simp

theorem Token.plainShape_slash (rest : List Char) : plainShape '/' rest = (.punct, 1) := by
  rw [plainShape, if_neg (by decide), if_neg (by decide), if_neg (by simp)]

theorem Token.shape_of_regex {last : Option Token} {rest : List Char} {length : Nat}
    (closed : Regex.extent? (last.map (·.text)) ('/' :: rest) = some (.closed length)) :
    Token.shape last '/' rest = (.regex, length) := by
  have literal : Literal.extent? ('/' :: rest) = none := rfl
  rw [Token.shape, literal, closed]

/-- No regular expression starts at a slash that is a token by itself. -/
theorem Token.extent?_of_shape_alone {last : Option Token} {rest : List Char}
    (alone : (Token.shape last '/' rest).2 = 1) (length : Nat) :
    Regex.extent? (last.map (·.text)) ('/' :: rest) ≠ some (.closed length) := by
  intro closed
  have longer := (Regex.extent?_closed_le closed).1
  rw [Token.shape_of_regex closed] at alone
  rw [show length = 1 from alone] at longer
  exact absurd longer (by decide)

/-- A slash that is a token by itself is no regular expression. -/
theorem Token.shape_alone_ne_regex {last : Option Token} {rest : List Char}
    (alone : (Token.shape last '/' rest).2 = 1) : (Token.shape last '/' rest).1 ≠ .regex := by
  have open_ := extent?_of_shape_alone alone
  have literal : Literal.extent? ('/' :: rest) = none := rfl
  unfold Token.shape
  rw [literal]
  dsimp only
  split
  · next length closed => exact absurd closed (open_ length)
  · rw [plainShape_slash]
    decide

/-- A word, a number or a punctuator lies in the text. -/
theorem Token.plainShape_le (c : Char) (rest : List Char) :
    (Token.plainShape c rest).2 ≤ rest.length + 1 := by
  have run (p : Char → Bool) : (rest.takeWhile p).length ≤ rest.length :=
    (List.takeWhile_sublist p).length_le
  unfold Token.plainShape
  have word := run isIdentifierPart
  have number := run isNumberPart
  split
  · dsimp only [identifierRun]
    split <;> simp only <;> omega
  split
  · simp only
    omega
  split
  · next arrow =>
    cases rest with
    | nil => simp at arrow
    | cons d rest => simp
  · simp

/-- A host token lies in the text. -/
theorem Token.shape_le (last : Option Token) (c : Char) (rest : List Char) :
    (Token.shape last c rest).2 ≤ rest.length + 1 := by
  unfold Token.shape
  split
  · next extent opens =>
    cases extent with
    | closed length => exact (Literal.extent?_closed_le opens).2
    | unclosed => exact Nat.le_refl _
  split
  · next length regex => exact (Regex.extent?_closed_le regex).2
  · exact plainShape_le c rest

theorem Token.introducerShape_le (rest : List Char) :
    (Token.introducerShape rest).2 ≤ rest.length + 1 := by
  have run : (rest.takeWhile isIdentifierPart).length ≤ rest.length :=
    (List.takeWhile_sublist _).length_le
  unfold Token.introducerShape identifierRun
  split <;> simp only <;> omega

/-! ## One token -/

section Read

variable {d : Dialect} {ctx : Context} {c : Cursor} {newlines : Nat} {ch : Char}
  {rest : List Char}

/-- The context in which a token is read: line feeds of the gap before it are counted. -/
def Context.afterGap (ctx : Context) (newlines : Nat) : Context :=
  { ctx with newlines := ctx.newlines + newlines }

/-- An introducer that starts an annotation yields its token and leaves all but the count of
annotations as it was. -/
theorem Piece.read_note {a : Note} {length : Nat} (intro : ch = d.introducer)
    (found : Note.scan d (ctx.afterGap newlines).atMemberStart c = .found a length) :
    read d ctx c newlines ch rest =
      (⟨tokenAt c newlines (.note ctx.notes) length, length, some (.found a length), none⟩,
        (ctx.afterGap newlines).afterNote) := by
  rw [Context.afterGap] at found ⊢
  simp only [read, if_pos intro, readIntroducer, found]

/-- Any other introducer is host text, and what stands there is kept beside it. -/
theorem Piece.read_plain {scan : Scan} (intro : ch = d.introducer)
    (stands : Note.scan d (ctx.afterGap newlines).atMemberStart c = scan)
    (other : ∀ a length, scan ≠ .found a length) :
    read d ctx c newlines ch rest =
      (⟨tokenAt c newlines (Token.introducerShape rest).1 (Token.introducerShape rest).2,
        (Token.introducerShape rest).2, some scan, none⟩,
        (ctx.afterGap newlines).afterHost (tokenAt c newlines (Token.introducerShape rest).1
          (Token.introducerShape rest).2)) := by
  subst stands
  rw [Context.afterGap] at other ⊢
  simp only [read, if_pos intro, readIntroducer]

/-- A character that is no introducer starts a host token. -/
theorem Piece.read_host (other : ch ≠ d.introducer) :
    read d ctx c newlines ch rest = readHost (ctx.afterGap newlines) c newlines ch rest := by
  simp only [read, if_neg other, Context.afterGap]

/-- A host token leaves the count of annotations as it was. -/
theorem Context.punctuate_notes (ctx : Context) (ch : Char) :
    (ctx.punctuate ch).1.notes = ctx.notes := by
  unfold punctuate
  split
  case h_3 =>
    unfold enterBrace
    split <;> rfl
  case h_7 =>
    unfold endStatement
    split <;> rfl
  all_goals rfl

theorem Piece.readHost_notes : (readHost ctx c newlines ch rest).2.notes = ctx.notes := by
  unfold readHost
  dsimp only [Context.afterHost]
  split
  · rfl
  split
  · exact ctx.punctuate_notes ch
  · rfl

/-- The token of a piece covers what the piece takes up. -/
theorem Piece.exists_token_read (d : Dialect) (ctx : Context) (c : Cursor) (newlines : Nat)
    (ch : Char) (rest : List Char) :
    ∃ kind, (read d ctx c newlines ch rest).1.token =
      tokenAt c newlines kind (read d ctx c newlines ch rest).1.length := by
  by_cases intro : ch = d.introducer
  · cases stands : Note.scan d (ctx.afterGap newlines).atMemberStart c with
    | found a length => exact ⟨_, by rw [read_note intro stands]⟩
    | plain | malformed | torn => exact ⟨_, by rw [read_plain intro stands (by simp)]⟩
  · exact ⟨_, by rw [read_host intro]; rfl⟩

/-- What is found at an introducer is kept beside its piece. -/
theorem Piece.read_scan (d : Dialect) (ctx : Context) (c : Cursor) (newlines : Nat) (ch : Char)
    (rest : List Char) :
    (read d ctx c newlines ch rest).1.scan =
      if ch = d.introducer then some (Note.scan d (ctx.afterGap newlines).atMemberStart c)
      else none := by
  by_cases intro : ch = d.introducer
  · rw [if_pos intro]
    cases stands : Note.scan d (ctx.afterGap newlines).atMemberStart c with
    | found a length => rw [read_note intro stands]
    | plain | malformed | torn => rw [read_plain intro stands (by simp)]
  · rw [if_neg intro, read_host intro]
    rfl

/-- The kind and length of what starts with the given character, when it is no annotation. -/
def Token.hostShape (d : Dialect) (last : Option Token) (ch : Char) (rest : List Char) :
    Token.Kind × Nat :=
  if ch = d.introducer then introducerShape rest else shape last ch rest

theorem Token.hostShape_le (d : Dialect) (last : Option Token) (ch : Char) (rest : List Char) :
    (hostShape d last ch rest).2 ≤ rest.length + 1 := by
  unfold hostShape
  split
  · exact introducerShape_le rest
  · exact shape_le last ch rest

theorem Piece.read_hostShape (host : (read d ctx c newlines ch rest).1.note? = none) :
    (read d ctx c newlines ch rest).1.token = tokenAt c newlines
        (Token.hostShape d ctx.last ch rest).1 (Token.hostShape d ctx.last ch rest).2 ∧
      (read d ctx c newlines ch rest).1.length = (Token.hostShape d ctx.last ch rest).2 := by
  by_cases intro : ch = d.introducer
  · rw [Token.hostShape, if_pos intro]
    cases stands : Note.scan d (ctx.afterGap newlines).atMemberStart c with
    | found a length =>
      rw [read_note intro stands] at host
      cases host
    | plain | malformed | torn =>
      rw [read_plain intro stands (by simp)]
      exact ⟨rfl, rfl⟩
  · rw [Token.hostShape, if_neg intro, read_host intro]
    exact ⟨rfl, rfl⟩

/-- The piece of an annotation. -/
def Piece.ofNote (ctx : Context) (c : Cursor) (newlines : Nat) (a : Note) (length : Nat) : Piece :=
  ⟨tokenAt c newlines (.note ctx.notes) length, length, some (.found a length), none⟩

/-- A step reads an annotation, or a host token that is not counted and that the next step will
know as the last. -/
theorem Piece.read_cases (d : Dialect) (ctx : Context) (c : Cursor) (newlines : Nat) (ch : Char)
    (rest : List Char) :
    (∃ a length, read d ctx c newlines ch rest =
        (ofNote ctx c newlines a length, (ctx.afterGap newlines).afterNote) ∧
        a.span = c.span length ∧ 0 < length) ∨
    ((read d ctx c newlines ch rest).1.note? = none ∧
      (read d ctx c newlines ch rest).1.token.isNote = false ∧
      (read d ctx c newlines ch rest).2.last = some (read d ctx c newlines ch rest).1.token ∧
      (read d ctx c newlines ch rest).2.notes = ctx.notes) := by
  by_cases intro : ch = d.introducer
  · have plain {scan : Scan}
        (stands : Note.scan d (ctx.afterGap newlines).atMemberStart c = scan)
        (other : ∀ a length, scan ≠ .found a length) :
        (read d ctx c newlines ch rest).1.note? = none ∧
        (read d ctx c newlines ch rest).1.token.isNote = false ∧
        (read d ctx c newlines ch rest).2.last = some (read d ctx c newlines ch rest).1.token ∧
        (read d ctx c newlines ch rest).2.notes = ctx.notes := by
      rw [read_plain intro stands other]
      refine ⟨?_, ?_, rfl, rfl⟩
      · cases scan with
        | found a length => exact absurd rfl (other a length)
        | plain | malformed | torn => rfl
      · dsimp only [tokenAt, Token.introducerShape]
        split <;> rfl
    cases stands : Note.scan d (ctx.afterGap newlines).atMemberStart c with
    | found a length =>
      exact .inl ⟨a, length, read_note intro stands, Note.span_of_scan stands,
        Note.length_pos_of_scan stands⟩
    | plain | malformed | torn => exact .inr (plain stands (by simp))
  · rw [read_host intro]
    refine .inr ⟨rfl, ?_, rfl, readHost_notes⟩
    unfold Token.isNote
    split
    · next index kind => exact absurd kind (Token.shape_kind_ne_note _ ch rest index)
    · rfl

/-- A host token is the first character with some of those after it. -/
theorem Piece.exists_append_of_host
    (host : (read d ctx c newlines ch rest).1.note? = none) :
    ∃ w tail, rest = w ++ tail ∧ (read d ctx c newlines ch rest).1.length = w.length + 1 := by
  have pos := length_pos d ctx c newlines ch rest
  have bound := Token.hostShape_le d ctx.last ch rest
  rw [← (read_hostShape host).2] at bound
  generalize (read d ctx c newlines ch rest).1.length = length at pos bound ⊢
  refine ⟨_, _, (List.take_append_drop (length - 1) rest).symm, ?_⟩
  rw [List.length_take]
  omega

theorem Piece.text_read {w tail : List Char} (here : c.rest = ch :: (w ++ tail))
    (host : (read d ctx c newlines ch (w ++ tail)).1.note? = none)
    (length : (read d ctx c newlines ch (w ++ tail)).1.length = w.length + 1) :
    (read d ctx c newlines ch (w ++ tail)).1.token.text = String.ofList (ch :: w) := by
  obtain ⟨token, length'⟩ := read_hostShape host
  rw [token, ← length', length]
  show String.ofList (c.rest.take (w.length + 1)) = _
  rw [here, List.take_succ_cons, List.take_left]

theorem Piece.last_read
    (host : (read d ctx c newlines ch rest).1.note? = none) :
    (read d ctx c newlines ch rest).2.last = some (read d ctx c newlines ch rest).1.token := by
  rcases read_cases d ctx c newlines ch rest with ⟨a, length, step, -⟩ | ⟨-, -, after, -⟩
  · rw [step] at host
    cases host
  · exact after

end Read

/-! ## The whole text -/

/-- Reads the token after a gap. -/
def Piece.readAfter (d : Dialect) (ctx : Context) (c : Cursor) (gap : List Char) (ch : Char)
    (rest : List Char) : Piece × Context :=
  read d ctx (c.advance gap.length) (gap.count '\n') ch rest

namespace Reading

variable {d : Dialect}

theorem pieces_last {ctx : Context} {c : Cursor} (last : Comment.LastTrivia c.rest) :
    pieces d ctx c = [] := by
  have done : (c.advance (Comment.gap c.rest)).rest = [] := by
    rw [Cursor.advance_rest, last.gap_eq, List.drop_length]
  rw [pieces]
  split
  · rfl
  · next more => exact absurd (done.symm.trans more) (by simp)

theorem pieces_cons {ctx : Context} {c : Cursor} {gap rest : List Char} {ch : Char}
    (text : c.rest = gap ++ ch :: rest) (trivia : Comment.Trivia gap)
    (starts : Comment.StartsToken (ch :: rest)) :
    pieces d ctx c =
      (Piece.readAfter d ctx c gap ch rest).1 ::
        pieces d (Piece.readAfter d ctx c gap ch rest).2
          ((c.advance gap.length).advance (Piece.readAfter d ctx c gap ch rest).1.length) := by
  have length : Comment.gap c.rest = gap.length := by
    rw [text, Comment.gap_append trivia starts]
  have more : (c.advance (Comment.gap c.rest)).rest = ch :: rest := by
    rw [length]
    exact Cursor.rest_advance_append text
  have taken : c.rest.take gap.length = gap := by
    rw [text, List.take_left]
  rw [pieces]
  split
  · next done => exact absurd (more.symm.trans done) (by simp)
  · next ch' rest' more' =>
    obtain ⟨rfl, rfl⟩ := List.cons.inj (more.symm.trans more')
    simp only [Piece.readAfter, length, taken]

/-- What holds of the empty reading at the end of a text, and is carried over one gap and one
token from the right, holds of every reading. -/
@[elab_as_elim]
theorem pieces_induction {motive : Context → Cursor → List Piece → Prop}
    (last : ∀ ctx c, Comment.LastTrivia c.rest → motive ctx c [])
    (cons : ∀ ctx c gap ch rest, c.rest = gap ++ ch :: rest → Comment.Trivia gap →
      Comment.StartsToken (ch :: rest) →
      motive (Piece.readAfter d ctx c gap ch rest).2
        ((c.advance gap.length).advance (Piece.readAfter d ctx c gap ch rest).1.length)
        (pieces d (Piece.readAfter d ctx c gap ch rest).2
          ((c.advance gap.length).advance (Piece.readAfter d ctx c gap ch rest).1.length)) →
      motive ctx c
        ((Piece.readAfter d ctx c gap ch rest).1 ::
          pieces d (Piece.readAfter d ctx c gap ch rest).2
            ((c.advance gap.length).advance (Piece.readAfter d ctx c gap ch rest).1.length)))
    (ctx : Context) (c : Cursor) : motive ctx c (pieces d ctx c) := by
  induction size : c.rest.length using Nat.strongRecOn generalizing ctx c with
  | ind n ih =>
  rcases Comment.exists_trivia c.rest with ⟨gap, rest, text, trivia, starts⟩ | end_
  · obtain ⟨ch, rest, rfl⟩ := starts.exists_cons
    rw [pieces_cons text trivia starts]
    refine cons ctx c gap ch rest text trivia starts (ih _ ?_ _ _ rfl)
    have pos := Piece.length_pos d ctx (c.advance gap.length) (gap.count '\n') ch rest
    rw [text, List.length_append, List.length_cons] at size
    rw [Cursor.advance_rest, Cursor.rest_advance_append text, List.length_drop, List.length_cons,
      Piece.readAfter]
    omega
  · rw [pieces_last end_]
    exact last ctx c end_

/-- Induction along a reading that tells annotations from host tokens. -/
@[elab_as_elim]
theorem note_or_host_induction {motive : Context → Cursor → List Piece → Prop}
    (last : ∀ ctx c, Comment.LastTrivia c.rest → motive ctx c [])
    (note : ∀ ctx c gap ch rest a length, c.rest = gap ++ ch :: rest → Comment.Trivia gap →
      Comment.StartsToken (ch :: rest) → a.span = (c.advance gap.length).span length →
      0 < length →
      motive (ctx.afterGap (gap.count '\n')).afterNote ((c.advance gap.length).advance length)
        (pieces d (ctx.afterGap (gap.count '\n')).afterNote
          ((c.advance gap.length).advance length)) →
      motive ctx c
        (Piece.ofNote ctx (c.advance gap.length) (gap.count '\n') a length ::
          pieces d (ctx.afterGap (gap.count '\n')).afterNote
            ((c.advance gap.length).advance length)))
    (host : ∀ ctx c gap ch rest, c.rest = gap ++ ch :: rest → Comment.Trivia gap →
      Comment.StartsToken (ch :: rest) →
      (Piece.readAfter d ctx c gap ch rest).1.note? = none →
      (Piece.readAfter d ctx c gap ch rest).1.token.isNote = false →
      (Piece.readAfter d ctx c gap ch rest).2.last =
        some (Piece.readAfter d ctx c gap ch rest).1.token →
      motive (Piece.readAfter d ctx c gap ch rest).2
        ((c.advance gap.length).advance (Piece.readAfter d ctx c gap ch rest).1.length)
        (pieces d (Piece.readAfter d ctx c gap ch rest).2
          ((c.advance gap.length).advance (Piece.readAfter d ctx c gap ch rest).1.length)) →
      motive ctx c
        ((Piece.readAfter d ctx c gap ch rest).1 ::
          pieces d (Piece.readAfter d ctx c gap ch rest).2
            ((c.advance gap.length).advance (Piece.readAfter d ctx c gap ch rest).1.length)))
    (ctx : Context) (c : Cursor) : motive ctx c (pieces d ctx c) := by
  induction ctx, c using pieces_induction with
  | last ctx c end_ => exact last ctx c end_
  | cons ctx c gap ch rest text trivia starts ih =>
    rcases Piece.read_cases d ctx (c.advance gap.length) (gap.count '\n') ch rest with
      ⟨a, length, step, span, pos⟩ | ⟨none, isNote, after, -⟩
    · rw [← Piece.readAfter] at step
      rw [step] at ih ⊢
      exact note ctx c gap ch rest a length text trivia starts span pos ih
    · exact host ctx c gap ch rest text trivia starts none isNote after ih

end Reading

end Gloss

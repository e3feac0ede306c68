import Gloss.Proofs.Blanking
import Gloss.Proofs.Scopes

/-!
# Reading a token again in front of another text

A token is read again where it was when a comment after it is blanked out, unless
the reader decides otherwise by what comes after the token: an introducer that
started no annotation may start one, a word may now be a private name or an
annotation, and a slash that stood alone may open a regular expression. `Retains`
says that none of this happens: then the token is read again
(`Piece.repeats_of_retains`), and only then (`Piece.retains_of_token`).
-/

namespace Gloss

open Host

/-! ## States that read alike -/

/-- The contexts differ in open brackets and class heads at most. -/
structure Context.Alike (ctx ctx' : Context) : Prop where
  last : ctx'.last = ctx.last
  newlines : ctx'.newlines = ctx.newlines
  notes : ctx'.notes = ctx.notes

theorem Context.Alike.refl (ctx : Context) : ctx.Alike ctx := ⟨rfl, rfl, rfl⟩

theorem Context.Alike.afterGap {ctx ctx' : Context} (alike : ctx.Alike ctx') (newlines : Nat) :
    (ctx.afterGap newlines).Alike (ctx'.afterGap newlines) :=
  ⟨alike.last, congrArg (· + newlines) alike.newlines, alike.notes⟩

/-- The cursors are at the same byte, after a full stop or not. -/
structure Cursor.Alike (c c' : Cursor) : Prop where
  offset : c'.offset = c.offset
  dot : c'.prev = some '.' ↔ c.prev = some '.'

theorem Cursor.Alike.symm {c c' : Cursor} (alike : c.Alike c') : c'.Alike c :=
  ⟨alike.offset.symm, alike.dot.symm⟩

/-- Over the same characters the cursors stay alike. -/
theorem Cursor.Alike.advance {c c' : Cursor} {w tail tail' : List Char} (alike : c.Alike c')
    (here : c.rest = w ++ tail) (here' : c'.rest = w ++ tail') :
    (c.advance w.length).Alike (c'.advance w.length) where
  offset := by
    rw [advance_offset, advance_offset, here, here', List.take_left, List.take_left, alike.offset]
  dot := by
    rw [advance_prev, advance_prev, here, here', List.take_left, List.take_left]
    cases w.getLast? with
    | none => exact alike.dot
    | some last => exact Iff.rfl

/-- Over matching gaps the cursors stay alike. -/
theorem Cursor.Alike.advance_gap {c c' : Cursor} {gap gap' tail tail' : List Char}
    (alike : c.Alike c') (gaps : Comment.MatchingGaps gap gap') (here : c.rest = gap ++ tail)
    (here' : c'.rest = gap' ++ tail') :
    (c.advance gap.length).Alike (c'.advance gap'.length) := by
  rcases gaps.same with rfl | ⟨nonempty, nonempty'⟩
  · exact alike.advance here here'
  refine ⟨?_, ?_⟩
  · rw [advance_offset, advance_offset, here, here', List.take_left, List.take_left, gaps.width,
      alike.offset]
  · rw [advance_prev, advance_prev, here, here', List.take_left, List.take_left]
    have stops {gap : List Char} (trivia : Comment.Trivia gap) (nonempty : gap ≠ [])
        (prev : Option Char) : gap.getLast?.or prev ≠ some '.' := by
      obtain ⟨e, last⟩ := Option.isSome_iff_exists.mp (List.getLast?_isSome.mpr nonempty)
      have other := trivia.getLast?_ne_dot
      rwa [last] at other ⊢
    exact iff_of_false (stops gaps.right nonempty' _) (stops gaps.left nonempty _)

theorem Piece.tokenAt_congr {c c' : Cursor} {w tail tail' : List Char} (alike : c.Alike c')
    (here : c.rest = w ++ tail) (here' : c'.rest = w ++ tail') (newlines : Nat)
    (kind : Token.Kind) : tokenAt c' newlines kind w.length = tokenAt c newlines kind w.length := by
  unfold tokenAt Cursor.lexeme Cursor.span
  rw [(alike.advance here here').offset, alike.offset, here, here', List.take_left, List.take_left]

/-! ## One token -/

/-- What the reader decides by the text around a token is decided for the token: an annotation is
found where it was, and any other token is kept. -/
def Retains (d : Dialect) (ctx : Context) (c : Cursor) (t : Token) : Prop :=
  if t.isNote = true then ∃ a length, Note.scan d ctx.atMemberStart c = .found a length
  else Keeps d ctx c t

theorem retains_note {d : Dialect} {ctx : Context} {c : Cursor} {t : Token}
    (note : t.isNote = true) :
    Retains d ctx c t ↔ ∃ a length, Note.scan d ctx.atMemberStart c = .found a length := by
  rw [Retains, if_pos note]

theorem retains_host {d : Dialect} {ctx : Context} {c : Cursor} {t : Token}
    (host : t.isNote = false) : Retains d ctx c t ↔ Keeps d ctx c t := by
  rw [Retains, if_neg (by rw [host]; decide)]

/-- The second piece is the first one read again. -/
structure Piece.Repeats (p p' : Piece) : Prop where
  token : p'.token = p.token
  note : p'.note? = p.note?
  length : p'.length = p.length
  whole : p'.isTorn = false

section Step

variable {d : Dialect} {ctx ctx' : Context} {c c' : Cursor} {newlines : Nat} {ch : Char}
  {w tail tail' : List Char}

/-- A host token leaves its context to the next one but for brackets and class heads. -/
theorem Piece.alike_of_host {rest rest' : List Char} (alike : ctx.Alike ctx')
    (host : (read d ctx c newlines ch rest).1.note? = none)
    (host' : (read d ctx' c' newlines ch rest').1.note? = none)
    (token : (read d ctx' c' newlines ch rest').1.token = (read d ctx c newlines ch rest).1.token) :
    (read d ctx c newlines ch rest).2.Alike (read d ctx' c' newlines ch rest').2 := by
  have count {ctx : Context} {c : Cursor} {rest : List Char}
      (host : (read d ctx c newlines ch rest).1.note? = none) :
      (read d ctx c newlines ch rest).2.notes = ctx.notes := by
    rcases read_cases d ctx c newlines ch rest with ⟨a, length, step, -⟩ | ⟨-, -, -, notes⟩
    · rw [step] at host
      cases host
    · exact notes
  refine ⟨?_, ?_, ?_⟩
  · rw [last_read host', last_read host, token]
  · rw [newlines_read host', newlines_read host]
  · rw [count host', count host, alike.notes]

/-- The tokens of annotations are those of the pieces that have one. -/
theorem Piece.isNote_read (d : Dialect) (ctx : Context) (c : Cursor) (newlines : Nat) (ch : Char)
    (rest : List Char) :
    (read d ctx c newlines ch rest).1.token.isNote =
      (read d ctx c newlines ch rest).1.note?.isSome := by
  rcases read_cases d ctx c newlines ch rest with ⟨a, length, step, -⟩ | ⟨none, isNote, -⟩
  · rw [step]
    rfl
  · rw [none, isNote]
    rfl

/-- A piece has an annotation when its introducer starts one. -/
theorem Piece.scan_of_note {rest : List Char} {a : Note}
    (note : (read d ctx c newlines ch rest).1.note? = some a) :
    ch = d.introducer ∧
      ∃ length, Note.scan d (ctx.afterGap newlines).atMemberStart c = .found a length := by
  have stands := read_scan d ctx c newlines ch rest
  unfold note? at note
  split at note
  · next b length found =>
    obtain rfl := Option.some.inj note
    rw [found] at stands
    split at stands
    · next intro => exact ⟨intro, length, (Option.some.inj stands).symm⟩
    · cases stands
  · cases note

variable (alike : ctx.Alike ctx') (place : c.Alike c')
  (length : (Piece.read d ctx c newlines ch (w ++ tail)).1.length = w.length + 1)
  (here : c.rest = ch :: (w ++ tail)) (here' : c'.rest = ch :: (w ++ tail'))
  (starts : Comment.StartsToken (ch :: (w ++ tail))) (part : PartAtSlash tail tail')

include alike place length here here' starts part

/-- A token that is retained is read again. -/
theorem Piece.repeats_of_retains
    (retains : Retains d (ctx'.afterGap newlines) c'
      (read d ctx c newlines ch (w ++ tail)).1.token) :
    (read d ctx c newlines ch (w ++ tail)).1.Repeats
        (read d ctx' c' newlines ch (w ++ tail')).1 ∧
      (read d ctx c newlines ch (w ++ tail)).2.Alike
        (read d ctx' c' newlines ch (w ++ tail')).2 := by
  have same (kind : Token.Kind) := tokenAt_congr (w := ch :: w) place here here' newlines kind
  rw [List.length_cons] at same
  cases note : (read d ctx c newlines ch (w ++ tail)).1.note? with
  | some a =>
    obtain ⟨b, m, found'⟩ := (retains_note (by rw [isNote_read, note]; rfl)).mp retains
    obtain ⟨intro, n, found⟩ := scan_of_note note
    rw [read_note intro found] at length
    obtain rfl : n = w.length + 1 := length
    obtain ⟨rfl, rfl⟩ := Note.scan_found_unique
      (Note.scan_append part place.offset place.dot here here' found) found'
    rw [read_note intro found, read_note intro found']
    refine ⟨⟨?_, rfl, rfl, rfl⟩, ⟨alike.last, ?_, ?_⟩⟩
    · dsimp only
      rw [same, alike.notes]
    · exact (alike.afterGap newlines).newlines
    · exact congrArg (· + 1) alike.notes
  | none =>
    rw [retains_host (by rw [isNote_read, note]; rfl)] at retains
    have last : ctx'.last.map (·.text) = ctx.last.map (·.text) := by rw [alike.last]
    have apart := part.keepsApart (ch :: w)
    obtain ⟨host', whole, -⟩ :=
      (keeps_iff note length here here' last starts apart part.eq_nil).mp retains
    have shape := hostShape_of_keeps note length here here' last starts apart part.eq_nil retains
    have length' := (read_of_hostShape note host' length here here' shape).1
    obtain ⟨token, size⟩ := read_hostShape note
    have size' := size.symm.trans length
    have token' : (read d ctx' c' newlines ch (w ++ tail')).1.token =
        (read d ctx c newlines ch (w ++ tail)).1.token := by
      rw [(read_hostShape host').1, token, shape, size']
      exact same _
    exact ⟨⟨token', by rw [note, host'], by rw [length, length'], whole⟩,
      alike_of_host alike note host' token'⟩

omit place in
/-- A token that is read again is retained. -/
theorem Piece.retains_of_token
    (token : (read d ctx' c' newlines ch (w ++ tail')).1.token =
      (read d ctx c newlines ch (w ++ tail)).1.token)
    (whole : (read d ctx' c' newlines ch (w ++ tail')).1.isTorn = false) :
    Retains d (ctx'.afterGap newlines) c' (read d ctx c newlines ch (w ++ tail)).1.token := by
  have notes : (read d ctx' c' newlines ch (w ++ tail')).1.note?.isSome =
      (read d ctx c newlines ch (w ++ tail)).1.note?.isSome := by
    rw [← isNote_read, ← isNote_read, token]
  cases note : (read d ctx c newlines ch (w ++ tail)).1.note? with
  | some a =>
    rw [note] at notes
    obtain ⟨b, note'⟩ := Option.isSome_iff_exists.mp notes
    obtain ⟨-, m, found'⟩ := scan_of_note note'
    exact (retains_note (by rw [isNote_read, note]; rfl)).mpr ⟨b, m, found'⟩
  | none =>
    rw [note] at notes
    have host' := Option.isSome_eq_false_iff.mp notes
    rw [Option.isNone_iff_eq_none] at host'
    have last : ctx'.last.map (·.text) = ctx.last.map (·.text) := by rw [alike.last]
    rw [retains_host (by rw [isNote_read, note]; rfl)]
    exact (keeps_iff note length here here' last starts (part.keepsApart _) part.eq_nil).mpr
      ⟨host', whole, congrArg Token.brief token⟩

end Step

/-! ## One token in one context -/

/-- A hashbang line is torn at the start of a text alone, when nothing stands on it. -/
theorem Note.scan_eq_torn {d : Dialect} {memberStart : Bool} {c : Cursor} :
    scan d memberStart c = .torn ↔
      c.offset = 0 ∧ d.hashbang = some '\r' ∧ ∃ line, c.rest = d.introducer :: '\r' :: line ∧
        line.takeWhile (· ≠ '\n') = [] := by
  constructor
  · intro torn
    unfold scan at torn
    split at torn
    · cases torn
    next first rest text =>
    split at torn
    · cases torn
    next intro =>
    split at torn
    · exact (scanWord_ne_torn _ _ _ torn).elim
    next ch follows =>
    obtain ⟨line, rfl⟩ := List.head?_eq_some_iff.mp follows
    split at torn
    · next mark =>
      unfold scanHashbang at torn
      split at torn
      · next bare =>
        obtain ⟨rfl, empty⟩ := bare
        rw [text] at empty
        exact ⟨mark.1, mark.2, line, by rw [text, not_not.mp intro], empty⟩
      · cases torn
    split at torn
    · unfold scanBlock at torn
      repeat' split at torn
      all_goals cases torn
    split at torn
    · unfold scanQuoted at torn
      split at torn <;> cases torn
    · exact (scanWord_ne_torn _ _ _ torn).elim
  · rintro ⟨start, mark, line, text, empty⟩
    have bare : (c.rest.drop 2).takeWhile (· ≠ '\n') = [] := by rw [text]; exact empty
    unfold scan
    rw [text]
    dsimp only [List.head?_cons]
    rw [if_neg (by simp), if_pos ⟨start, mark⟩, scanHashbang, if_pos ⟨rfl, bare⟩]

/-- An annotation is found again in the same text. -/
theorem Note.scan_found_of_alike {d : Dialect} {memberStart : Bool} {c c' : Cursor} {a : Note}
    {length : Nat} (place : c.Alike c') (same : c'.rest = c.rest)
    (found : scan d memberStart c = .found a length) :
    scan d memberStart c' = .found a length := by
  have pos := length_pos_of_scan found
  have bound := length_le_of_scan found
  obtain ⟨ch, rest, here⟩ := List.exists_cons_of_length_pos (Nat.lt_of_lt_of_le pos bound)
  rw [here, List.length_cons] at bound
  obtain ⟨u, more, rfl, rfl⟩ : ∃ u more, rest = u ++ more ∧ length = u.length + 1 := by
    refine ⟨_, _, (List.take_append_drop (length - 1) rest).symm, ?_⟩
    rw [List.length_take]
    omega
  exact scan_append (.inl rfl) place.offset place.dot here (same.trans here) found

section Same

variable {d : Dialect} {ctx : Context} {c c' : Cursor} {newlines : Nat} {ch : Char}

/-- In the same context an annotation is found again, so all tokens are retained when the host
tokens are kept. -/
theorem Piece.retains_of_kept {w tail tail' : List Char} (place : c.Alike c')
    (length : (read d ctx c newlines ch (w ++ tail)).1.length = w.length + 1)
    (here : c.rest = ch :: (w ++ tail)) (here' : c'.rest = ch :: (w ++ tail'))
    (part : PartAtSlash tail tail')
    (kept : (read d ctx c newlines ch (w ++ tail)).1.token.isNote = false →
      Keeps d (ctx.afterGap newlines) c' (read d ctx c newlines ch (w ++ tail)).1.token) :
    Retains d (ctx.afterGap newlines) c' (read d ctx c newlines ch (w ++ tail)).1.token := by
  cases note : (read d ctx c newlines ch (w ++ tail)).1.note? with
  | some a =>
    obtain ⟨intro, n, found⟩ := scan_of_note note
    rw [read_note intro found] at length
    obtain rfl : n = w.length + 1 := length
    have found' := Note.scan_append part place.offset place.dot here here' found
    exact (retains_note (by rw [isNote_read, note]; rfl)).mpr ⟨a, w.length + 1, found'⟩
  | none =>
    have host : (read d ctx c newlines ch (w ++ tail)).1.token.isNote = false := by
      rw [isNote_read, note]
      rfl
    exact (retains_host host).mpr (kept host)

/-- In the same text host tokens are kept. -/
theorem Piece.keeps_of_same {rest : List Char} (place : c.Alike c') (here : c.rest = ch :: rest)
    (here' : c'.rest = ch :: rest) (host : (read d ctx c newlines ch rest).1.note? = none)
    (whole : (read d ctx c newlines ch rest).1.isTorn = false) :
    Keeps d (ctx.afterGap newlines) c' (read d ctx c newlines ch rest).1.token := by
  obtain ⟨w, tail, rfl, length⟩ := exists_append_of_host host
  have text := text_read here host length
  constructor
  · intro head
    rw [text, String.toList_ofList] at head
    have intro : ch = d.introducer := Option.some.inj head
    have stands := isHost_iff.mp ⟨host, whole⟩ _ (by rw [read_scan, if_pos intro])
    cases stands' : Note.scan d (ctx.afterGap newlines).atMemberStart c' with
    | plain | malformed m => rfl
    | torn =>
      obtain ⟨start, mark, torn⟩ := Note.scan_eq_torn.mp stands'
      rw [here', ← here, place.offset] at *
      rw [Note.scan_eq_torn.mpr ⟨start, mark, torn⟩] at stands
      cases stands
    | found a n =>
      rw [Note.scan_found_of_alike place.symm (here.trans here'.symm) stands'] at stands
      cases stands
  · intro slash other n
    have alone : ch :: w = ['/'] := by
      rw [← String.toList_ofList (l := ch :: w), ← text, slash]
      rfl
    obtain ⟨rfl, rfl⟩ := List.cons.inj alone
    have size := (read_hostShape host).2.symm.trans length
    rw [Token.hostShape, if_neg other.symm] at size
    rw [here']
    exact Token.extent?_of_shape_alone size n

/-- A blank or a slash does not make a property name of the word before it. -/
theorem Context.namesProperty_of_partAtSlash {tail tail' : List Char}
    (part : PartAtSlash tail tail') (names : ctx.namesProperty tail = true) :
    ctx.namesProperty tail' = true := by
  rcases part with rfl | ⟨shared, more, more', rfl, rfl⟩
  · exact names
  rw [namesProperty, List.find?_append] at names ⊢
  cases visible : shared.find? fun c => !Text.isBlank c with
  | some c => rwa [visible] at names
  | none =>
    rw [visible] at names
    have slash : ('/' :: more).find? (fun c => !Text.isBlank c) = some '/' := by
      rw [List.find?_cons, show (!Text.isBlank '/') = true by decide]
    rw [slash] at names
    have dot : ctx.last.any (·.isPunct ".") = true := by simpa using names
    rw [dot, Bool.true_or]

/-- The next visible character decides whether a word names a property. -/
theorem Context.namesProperty_of_visible {gap rest rest' : List Char}
    (visible : Text.isBlank ch = false) :
    ctx.namesProperty (gap ++ ch :: rest') = ctx.namesProperty (gap ++ ch :: rest) := by
  have first (rest : List Char) : (gap ++ ch :: rest).find? (fun c => !Text.isBlank c) =
      (gap ++ [ch]).find? fun c => !Text.isBlank c := by
    rw [List.find?_append, List.find?_append, List.find?_cons, List.find?_cons, visible]
    rfl
  rw [namesProperty, namesProperty, first rest', first rest]

/-- The context after a host token that starts with the given character, and that names a property
if it is the word `class`. -/
def Context.afterToken (ctx : Context) (t : Token) (ch : Char) (names : Bool) : Context :=
  (if t.text = "class" ∧ names = false then ctx.awaitClass
    else if t.kind = .punct then (ctx.punctuate ch).1
    else ctx).afterHost t

theorem Piece.context_readHost {rest : List Char} :
    (readHost ctx c newlines ch rest).2 =
      ctx.afterToken (readHost ctx c newlines ch rest).1.token ch
        (ctx.namesProperty (c.rest.drop (readHost ctx c newlines ch rest).1.length)) := by
  unfold readHost
  dsimp only
  rw [Context.afterToken]
  split
  · rfl
  split
  · next punct => exact congrArg (Context.afterHost · _) (if_pos punct).symm
  · next plain => exact congrArg (Context.afterHost · _) (if_neg plain).symm

/-- A piece that is read again leaves the same context, or its word heads a class only before the
first text. -/
theorem Piece.context_of_repeats {w tail tail' : List Char}
    (length : (read d ctx c newlines ch (w ++ tail)).1.length = w.length + 1)
    (here : c.rest = ch :: (w ++ tail)) (here' : c'.rest = ch :: (w ++ tail'))
    (part : PartAtSlash tail tail')
    (repeats : (read d ctx c newlines ch (w ++ tail)).1.Repeats
      (read d ctx c' newlines ch (w ++ tail')).1) :
    (read d ctx c' newlines ch (w ++ tail')).2 = (read d ctx c newlines ch (w ++ tail)).2 ∨
      ch ≠ d.introducer ∧ (read d ctx c newlines ch (w ++ tail)).1.token.text = "class" ∧
        ctx.namesProperty tail = false ∧ ctx.namesProperty tail' = true := by
  by_cases intro : ch = d.introducer
  · left
    cases note : (read d ctx c newlines ch (w ++ tail)).1.note? with
    | some a =>
      obtain ⟨-, n, found⟩ := scan_of_note note
      obtain ⟨-, m, found'⟩ := scan_of_note (repeats.note.trans note)
      rw [read_note intro found, read_note intro found']
    | none =>
      have plain {c : Cursor} {rest : List Char}
          (none : (read d ctx c newlines ch rest).1.note? = none) :
          (read d ctx c newlines ch rest).2 =
            (ctx.afterGap newlines).afterHost (read d ctx c newlines ch rest).1.token := by
        cases stands : Note.scan d (ctx.afterGap newlines).atMemberStart c with
        | found a n =>
          rw [read_note intro stands] at none
          cases none
        | plain | malformed | torn => rw [read_plain intro stands (by simp)]
      rw [plain note, plain (repeats.note.trans note), repeats.token]
  · have token := repeats.token
    have length' := repeats.length.trans length
    rw [read_host intro] at token length length' ⊢
    rw [read_host intro] at token ⊢
    have rest : c.rest.drop (w.length + 1) = tail := by
      rw [here]
      exact @List.drop_left _ (ch :: w) _
    have rest' : c'.rest.drop (w.length + 1) = tail' := by
      rw [here']
      exact @List.drop_left _ (ch :: w) _
    have same (more : List Char) :
        (ctx.afterGap newlines).namesProperty more = ctx.namesProperty more := rfl
    rw [context_readHost, context_readHost, token, length, length', rest, rest', same, same]
    generalize (readHost (ctx.afterGap newlines) c newlines ch (w ++ tail)).1.token = t
    by_cases hidden : t.text = "class" ∧ ctx.namesProperty tail = false ∧
        ctx.namesProperty tail' = true
    · exact .inr ⟨intro, hidden⟩
    · have heads : (t.text = "class" ∧ ctx.namesProperty tail' = false) ↔
          (t.text = "class" ∧ ctx.namesProperty tail = false) := by
        refine and_congr_right fun text => ⟨fun heads' => ?_, fun heads => ?_⟩
        · rw [← Bool.not_eq_true] at heads' ⊢
          exact fun names => heads' (Context.namesProperty_of_partAtSlash part names)
        · rw [← Bool.not_eq_true]
          exact fun names' => hidden ⟨text, heads, names'⟩
      left
      simp only [Context.afterToken, heads]

end Same

end Gloss

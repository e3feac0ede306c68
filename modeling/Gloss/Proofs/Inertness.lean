import Gloss.Proofs.Deletion

/-!
# When the removal of annotations changes no token

The host tokens of a file are the tokens of its text without the annotations,
if nothing that was host text is an annotation there, and no slash that divided
opens a regular expression there. `Undisturbed` says this of a text, token by
token, and `Removal.ofNotes?_inert_iff` says that nothing else can go wrong.
-/

namespace Gloss

open Host

/-- What is compared of two tokens: all but their places. -/
def Token.brief (t : Token) : Token.Kind × String := (t.kind, t.text)

/-- What stands at an introducer is host text, be it flawed. -/
def Scan.isHost : Scan → Bool
  | .plain => true
  | .malformed _ => true
  | _ => false

/-- What the reader decides by the text around the token is decided for the token: an introducer
starts no annotation, and a slash alone opens no regular expression. -/
def Keeps (d : Dialect) (ctx : Context) (c : Cursor) (t : Token) : Prop :=
  (t.text.toList.head? = some d.introducer → (Note.scan d ctx.atMemberStart c).isHost = true) ∧
  (t.text = "/" → d.introducer ≠ '/' →
    ∀ length, Regex.extent? (ctx.last.map (·.text)) c.rest ≠ some (.closed length))

/-- Every one of the tokens is kept where the reader comes to it. -/
def Undisturbed (d : Dialect) (ctx : Context) (c : Cursor) : List Token → Prop
  | [] => True
  | t :: ts =>
    let gap := c.rest.take (Comment.gap c.rest)
    let c' := c.advance gap.length
    match c'.rest with
    | [] => True
    | ch :: rest =>
      Keeps d (ctx.afterGap (gap.count '\n')) c' t ∧
        Undisturbed d (Piece.readAfter d ctx c gap ch rest).2 (c'.advance t.text.length) ts

/-- Host text without introducers and without slashes that stand alone is never disturbed. -/
theorem undisturbed_of_plain {d : Dialect} {ts : List Token}
    (plain : ∀ t ∈ ts, t.text.toList.head? ≠ some d.introducer ∧ t.text ≠ "/") (ctx : Context)
    (c : Cursor) : Undisturbed d ctx c ts := by
  induction ts generalizing ctx c with
  | nil => trivial
  | cons t ts ih =>
    obtain ⟨⟨introducer, slash⟩, others⟩ := List.forall_mem_cons.1 plain
    rw [Undisturbed]
    split
    · trivial
    · exact ⟨⟨fun head => absurd head introducer, fun alone => absurd alone slash⟩, ih others ..⟩

/-! ## One token -/

theorem Piece.isHost_iff {p : Piece} :
    (p.note? = none ∧ p.isTorn = false) ↔ ∀ scan, p.scan = some scan → scan.isHost = true := by
  unfold note? isTorn
  cases p.scan with
  | none => simp
  | some scan => cases scan <;> simp [Scan.isHost]

/-! The host token `ch :: w` of one text is compared with what is read at the same characters of
another text, where `tail'` follows them in the place of `tail`. -/

section Step

variable {d : Dialect} {ctx ctx' : Context} {c c' : Cursor} {newlines newlines' : Nat} {ch : Char}
  {w tail tail' : List Char}
  (host : (Piece.read d ctx c newlines ch (w ++ tail)).1.note? = none)
  (length : (Piece.read d ctx c newlines ch (w ++ tail)).1.length = w.length + 1)
  (here : c.rest = ch :: (w ++ tail)) (here' : c'.rest = ch :: (w ++ tail'))
  (same : ctx'.last.map (·.text) = ctx.last.map (·.text))
  (starts : Comment.StartsToken (ch :: (w ++ tail))) (apart : KeepsApart (ch :: w) tail tail')
  (end_ : tail = [] → tail' = [])

include host length here here' same starts apart end_

/-- A token that is kept has its shape. -/
theorem Piece.hostShape_of_keeps
    (keeps : Keeps d (ctx'.afterGap newlines') c' (read d ctx c newlines ch (w ++ tail)).1.token) :
    Token.hostShape d ctx'.last ch (w ++ tail') = Token.hostShape d ctx.last ch (w ++ tail) := by
  have text := text_read here host length
  obtain ⟨token, length'⟩ := read_hostShape host
  have shape : Token.hostShape d ctx.last ch (w ++ tail) =
      ((Token.hostShape d ctx.last ch (w ++ tail)).1, w.length + 1) := by
    rw [← length, length']
  rw [shape]
  refine Token.hostShape_append shape (congrArg (·.any Regex.endsOperand) same) starts.visible
    apart (fun _ => end_) ?_
  rintro rfl rfl other n
  rw [← same]
  have regex := keeps.2 text other n
  rw [here'] at regex
  exact regex

theorem Piece.length_of_keeps
    (keeps : Keeps d (ctx'.afterGap newlines') c' (read d ctx c newlines ch (w ++ tail)).1.token)
    (host' : (read d ctx' c' newlines' ch (w ++ tail')).1.note? = none) :
    (read d ctx' c' newlines' ch (w ++ tail')).1.length = w.length + 1 :=
  (read_of_hostShape host host' length here here'
    (hostShape_of_keeps host length here here' same starts apart end_ keeps)).1

/-- The kept tokens are those that are read again as they were. -/
theorem Piece.keeps_iff :
    Keeps d (ctx'.afterGap newlines') c' (read d ctx c newlines ch (w ++ tail)).1.token ↔
      (read d ctx' c' newlines' ch (w ++ tail')).1.note? = none ∧
      (read d ctx' c' newlines' ch (w ++ tail')).1.isTorn = false ∧
      (read d ctx' c' newlines' ch (w ++ tail')).1.token.brief =
        (read d ctx c newlines ch (w ++ tail)).1.token.brief := by
  have text := text_read here host length
  constructor
  · intro keeps
    have stands : ∀ scan, (read d ctx' c' newlines' ch (w ++ tail')).1.scan = some scan →
        scan.isHost = true := by
      intro scan found
      rw [read_scan] at found
      split at found
      · next intro =>
        obtain rfl := Option.some.inj found
        exact keeps.1 (by rw [text, intro, String.toList_ofList]; rfl)
      · cases found
    obtain ⟨host', whole⟩ := isHost_iff.2 stands
    have shape := hostShape_of_keeps host length here here' same starts apart end_ keeps
    obtain ⟨-, kind, text'⟩ := read_of_hostShape host host' length here here' shape
    exact ⟨host', whole, Prod.ext kind text'⟩
  · intro restored
    rcases restored with ⟨host', whole, brief⟩
    refine ⟨fun head => ?_, fun slash other n closed => ?_⟩
    · have stands := isHost_iff.1 ⟨host', whole⟩
      rw [text, String.toList_ofList] at head
      rw [read_scan, if_pos (Option.some.inj head)] at stands
      exact stands _ rfl
    · have alone : ch :: w = ['/'] := by
        rw [← String.toList_ofList (l := ch :: w), ← text, slash]
        rfl
      obtain ⟨rfl, rfl⟩ := List.cons.inj alone
      rw [here'] at closed
      have shape (last : Option Token) (rest : List Char) :
          Token.hostShape d last '/' rest = Token.shape last '/' rest := if_neg other.symm
      have kinds := congrArg Prod.fst brief
      rw [Token.brief, Token.brief, (read_hostShape host').1, (read_hostShape host).1] at kinds
      have alone' := (read_hostShape host).2.symm.trans length
      simp only [List.nil_append, shape, Piece.tokenAt] at kinds alone'
      -- the slash alone was no regular expression, and it is one now
      refine Token.shape_alone_ne_regex alone' ?_
      rw [← kinds]
      exact congrArg Prod.fst (Token.shape_of_regex closed)

end Step

/-! ## The whole text -/

/-- The pieces hold no annotation, and their tokens are the given ones but for their places. -/
def Restores (ps : List Piece) (ts : List Token) : Prop :=
  (∀ p ∈ ps, p.note? = none ∧ p.isTorn = false) ∧
    ps.map (·.token.brief) = ts.map (·.brief)

theorem restores_cons {p : Piece} {ps : List Piece} {t : Token} {ts : List Token} :
    Restores (p :: ps) (t :: ts) ↔
      (p.note? = none ∧ p.isTorn = false ∧ p.token.brief = t.brief) ∧ Restores ps ts := by
  unfold Restores
  rw [List.forall_mem_cons, List.map_cons, List.map_cons, List.cons.injEq]
  constructor
  · intro restores
    rcases restores with ⟨⟨⟨host, whole⟩, others⟩, brief, same⟩
    exact ⟨⟨host, whole, brief⟩, others, same⟩
  · intro restores
    rcases restores with ⟨⟨host, whole, brief⟩, others, same⟩
    exact ⟨⟨⟨host, whole⟩, others⟩, brief, same⟩

theorem restores_iff {d : Dialect} {source : String} {ts : List Token} :
    Restores (Reading.piecesOf d source) ts ↔
      ∃ r, Reading.ofSource? d source = some r ∧ r.notes = [] ∧
        r.tokens.map (·.brief) = ts.map (·.brief) := by
  have notes : (Reading.ofSource d source).notes = [] ↔
      ∀ p ∈ Reading.piecesOf d source, p.note? = none := List.filterMap_eq_nil_iff
  have tokens : (Reading.ofSource d source).tokens.map (·.brief) =
      (Reading.piecesOf d source).map (·.token.brief) := List.map_map
  unfold Restores Reading.ofSource?
  constructor
  · intro restores
    rcases restores with ⟨plain, same⟩
    have whole : ¬ (Reading.piecesOf d source).any (·.isTorn) = true := by
      rw [List.any_eq_true]
      intro some_torn
      rcases some_torn with ⟨p, held, torn⟩
      rw [(plain p held).2] at torn
      cases torn
    exact ⟨_, if_neg whole, notes.2 fun p held => (plain p held).1, tokens.trans same⟩
  · intro inert
    rcases inert with ⟨r, found, none, same⟩
    split at found
    · cases found
    next whole =>
    obtain rfl := Option.some.inj found
    refine ⟨fun p held => ⟨notes.1 none p held, ?_⟩, tokens.symm.trans same⟩
    cases torn : p.isTorn with
    | false => rfl
    | true => exact absurd (List.any_eq_true.2 ⟨p, held, torn⟩) whole

theorem undisturbed_cons {d : Dialect} {ctx : Context} {c : Cursor} {gap rest : List Char}
    {ch : Char} {t : Token} {ts : List Token} (text : c.rest = gap ++ ch :: rest)
    (trivia : Comment.Trivia gap) (starts : Comment.StartsToken (ch :: rest)) :
    Undisturbed d ctx c (t :: ts) ↔
      Keeps d (ctx.afterGap (gap.count '\n')) (c.advance gap.length) t ∧
        Undisturbed d (Piece.readAfter d ctx c gap ch rest).2
          ((c.advance gap.length).advance t.text.length) ts := by
  have length : Comment.gap c.rest = gap.length := by
    rw [text, Comment.gap_append trivia starts]
  have taken : c.rest.take gap.length = gap := by
    rw [text, List.take_left]
  have rest' := Cursor.rest_advance_append text
  rw [Undisturbed]
  simp only [length, taken]
  split
  · next done => exact absurd (rest'.symm.trans done) (by simp)
  · next ch' more next_ =>
    obtain ⟨rfl, rfl⟩ := List.cons.inj (rest'.symm.trans next_)
    exact Iff.rfl

/-- Wherever the text is read after the last token with the given text, the tokens are restored
exactly when they are undisturbed. -/
def RestoredBy (d : Dialect) (last : Option String) (left : List Char) (ts : List Token) : Prop :=
  ∀ (ctx : Context) (c : Cursor) (gap : List Char), ctx.last.map (·.text) = last →
    c.rest = gap ++ left → Comment.Trivia gap →
    (Restores (Reading.pieces d ctx c) ts ↔ Undisturbed d ctx c ts)

section RestoredBy

variable {d : Dialect} {left : List Char} {ts : List Token}

theorem RestoredBy.of_last (end_ : Comment.LastTrivia left) (last : Option String) :
    RestoredBy d last left [] := by
  intro ctx c gap same text trivia
  have end' : Comment.LastTrivia c.rest := text ▸ end_.prepend trivia
  rw [Reading.pieces_last end']
  exact iff_of_true ⟨fun p held => absurd held List.not_mem_nil, rfl⟩ trivial

theorem RestoredBy.prepend {last : Option String} {gap : List Char}
    (restored : RestoredBy d last left ts) (trivia : Comment.Trivia gap) :
    RestoredBy d last (gap ++ left) ts := by
  intro ctx c gap' same text trivia'
  rw [← List.append_assoc] at text
  exact restored ctx c (gap' ++ gap) same text (trivia'.append trivia)

/-- The next host token is restored together with all that follow it. -/
theorem RestoredBy.cons {ctx : Context} {c : Cursor} {newlines : Nat} {ch : Char}
    {w tail : List Char} (host : (Piece.read d ctx c newlines ch (w ++ tail)).1.note? = none)
    (length : (Piece.read d ctx c newlines ch (w ++ tail)).1.length = w.length + 1)
    (here : c.rest = ch :: (w ++ tail)) (starts : Comment.StartsToken (ch :: (w ++ tail)))
    (apart : KeepsApart (ch :: w) tail left) (end_ : tail = [] → left = [])
    (restored : RestoredBy d ((Piece.read d ctx c newlines ch (w ++ tail)).2.last.map (·.text))
      left ts) :
    RestoredBy d (ctx.last.map (·.text)) (ch :: (w ++ left))
      ((Piece.read d ctx c newlines ch (w ++ tail)).1.token :: ts) := by
  intro ctx' c' gap' same text trivia
  have starts' := starts.append apart
  have here' := Cursor.rest_advance_append text
  have text₁ : (Piece.read d ctx c newlines ch (w ++ tail)).1.token.text.length = w.length + 1 := by
    rw [Piece.text_read here host length, String.length_ofList, List.length_cons]
  have rest₁ : ((c'.advance gap'.length).advance (w.length + 1)).rest = left :=
    Cursor.rest_advance_append (w := ch :: w) here'
  have keeps_iff : Keeps d (ctx'.afterGap (gap'.count '\n')) (c'.advance gap'.length)
      (Piece.read d ctx c newlines ch (w ++ tail)).1.token ↔ _ :=
    Piece.keeps_iff host length here here' same starts apart end_
  rw [Reading.pieces_cons text trivia starts', restores_cons, undisturbed_cons text trivia starts',
    text₁, Piece.readAfter, keeps_iff]
  refine and_congr_right fun kept => ?_
  have length' := Piece.length_of_keeps host length here here' same starts apart end_
    (keeps_iff.2 kept) kept.1
  rw [length']
  refine restored _ _ [] ?_ rest₁ .nil
  rw [Piece.last_read kept.1, Piece.last_read host]
  exact congrArg some (congrArg Prod.snd kept.2.2)

end RestoredBy

/-- The host tokens among the tokens of pieces. -/
def Reading.hosts (ps : List Piece) : List Token := (ps.map (·.token)).filter fun t => !t.isNote

theorem Reading.hosts_cons {p : Piece} (host : p.token.isNote = false) (ps : List Piece) :
    hosts (p :: ps) = p.token :: hosts ps := by
  simp [hosts, host]

namespace Removal

open Reading

/-- The spans of a reading can be deleted, and the rest of the text is restored when it is
undisturbed. -/
theorem removeFrom_spans (d : Dialect) (ctx : Context) (c : Cursor) (last : Option Char) :
    ∃ left, removeFrom c.offset last c.rest (spans d ctx c) = some left ∧
      RestoredBy d (ctx.last.map (·.text)) left (hosts (pieces d ctx c)) := by
  unfold spans
  induction ctx, c using Reading.note_or_host_induction generalizing last with
  | last ctx c end_ => exact ⟨c.rest, rfl, .of_last end_ _⟩
  | note ctx c gap ch rest a length text trivia starts span pos ih =>
    have taken : c.rest.take gap.length = gap := by
      rw [text, List.take_left]
    generalize here : c.advance gap.length = c₁ at span ih ⊢
    obtain ⟨left, removed, restored⟩ := ih ((separator (gap.getLast?.or last)
      (c₁.advance length).rest.head?).getLast?.or (gap.getLast?.or last))
    generalize context : (ctx.afterGap (gap.count '\n')).afterNote = ctx₁ at removed restored ⊢
    have later : ∀ s ∈ c₁.span length :: spans d ctx₁ (c₁.advance length), c₁.offset ≤ s.start := by
      intro s held
      rcases List.mem_cons.1 held with rfl | held
      · exact Nat.le_refl _
      · exact Nat.le_trans (Cursor.offset_le_advance ..) (le_start_of_mem_spans d _ _ s held)
    subst here
    have kept := removeFrom_kept c gap.length later
      (by rw [taken]; exact removeFrom_deleted removed)
    rw [taken] at kept
    refine ⟨_, by rw [← kept, ← span]; rfl, ?_⟩
    have same : ctx₁.last = ctx.last := by
      rw [← context]
      rfl
    rw [same] at restored
    exact (restored.prepend (trivia_separator ..)).prepend trivia
  | host ctx c gap ch rest text trivia starts note isNote after ih =>
    obtain ⟨w, tail, rfl, length⟩ := Piece.exists_append_of_host note
    unfold Piece.readAfter at note isNote ih ⊢
    rw [length, Cursor.advance_advance] at ih ⊢
    have here := Cursor.rest_advance_append text
    have taken : c.rest.take (gap.length + (w.length + 1)) = gap ++ ch :: w := by
      rw [text, List.take_length_add_append, List.take_succ_cons, List.take_left]
    have rest₁ : (c.advance (gap.length + (w.length + 1))).rest = tail := by
      rw [← Cursor.advance_advance]
      exact Cursor.rest_advance_append (w := ch :: w) here
    obtain ⟨left, removed, restored⟩ := ih ((gap ++ ch :: w).getLast?.or last)
    have kept := removeFrom_kept c (gap.length + (w.length + 1))
      (le_start_of_mem_spans d _ _) (by rw [taken]; exact removed)
    have apart : KeepsApart (ch :: w) tail left := by
      intro b e before visible head
      rw [← rest₁]
      exact removeFrom_keepsApart removed (by rw [List.getLast?_append, before]; rfl) visible head
    have end_ : tail = [] → left = [] := by
      intro done
      rw [rest₁, done, pieces_last (by rw [rest₁, done]; exact .inl .nil)] at removed
      exact (Option.some.inj removed).symm
    refine ⟨gap ++ (ch :: (w ++ left)), ?_, ?_⟩
    · rw [taken, List.append_assoc] at kept
      rw [List.filterMap_cons, note]
      exact kept
    · rw [hosts_cons isNote]
      exact (RestoredBy.cons note length here starts apart end_ restored).prepend trivia

/-- Removing the annotations of a file leaves a text. It has no annotation, and the host tokens of
the file are its tokens, exactly when they are undisturbed in it. -/
theorem ofNotes?_inert_iff {d : Dialect} {source : String} {r : Reading}
    (read : Reading.ofSource? d source = some r) :
    ∃ stripped, ofNotes? source r.notes = some stripped ∧
      ((∃ r', Reading.ofSource? d stripped = some r' ∧ r'.notes = [] ∧
          r'.tokens.map (·.brief) = (r.tokens.filter fun t => !t.isNote).map (·.brief)) ↔
        Undisturbed d .initial (.start stripped.toList) (r.tokens.filter fun t => !t.isNote)) := by
  unfold Reading.ofSource? at read
  split at read
  · cases read
  obtain rfl := Option.some.inj read
  obtain ⟨left, removed, restored⟩ :=
    removeFrom_spans d .initial (.start source.toList) none
  refine ⟨String.ofList left, ?_, ?_⟩
  · have sorted := Reading.mergeSort_spans d .initial (.start source.toList)
    show (removeFrom 0 none source.toList
      ((spans d .initial (.start source.toList)).mergeSort Span.le)).map String.ofList = _
    rw [sorted]
    exact congrArg (Option.map String.ofList) removed
  · rw [← restores_iff, Reading.piecesOf, String.toList_ofList]
    exact restored .initial (.start left) [] rfl rfl .nil

theorem ofNotes?_inert_iff_let :
    Reading.ofSource? .hash "let #T a" = some (Reading.ofSource .hash "let #T a") ∧
      ∃ stripped, ofNotes? "let #T a" (Reading.ofSource .hash "let #T a").notes = some stripped ∧
        ∃ r', Reading.ofSource? .hash stripped = some r' ∧ r'.notes = [] ∧
          r'.tokens.map (·.brief) =
            ((Reading.ofSource .hash "let #T a").tokens.filter fun t => !t.isNote).map
              (·.brief) := by
  have read := Reading.ofSource?_eq_some (show Dialect.hash.hashbang ≠ _ by decide) "let #T a"
  obtain ⟨stripped, removed, inert⟩ := ofNotes?_inert_iff read
  exact ⟨read, stripped, removed, inert.2 (undisturbed_of_plain (by decide +kernel) _ _)⟩

/-- The word `class` heads a class in front of an annotation, and names a property in front of the
parenthesis that comes after it. In the braces, `#x` is a private name of the class, and an
annotation in the body of the method. -/
theorem ofNotes?_disturbs_private_name :
    Dialect.hash.Valid ∧
      ∃ r r', Reading.ofSource? .hash "o = \x7b class #T () \x7b #x \x7d \x7d" = some r ∧
        r.malformed = [] ∧
        ofNotes? "o = \x7b class #T () \x7b #x \x7d \x7d" r.notes =
          some "o = \x7b class  () \x7b #x \x7d \x7d" ∧
        Reading.ofSource? .hash "o = \x7b class  () \x7b #x \x7d \x7d" = some r' ∧
        r.notes.map (·.payload) = ["T"] ∧ r'.notes.map (·.payload) = ["x"] := by
  refine ⟨by decide, _, _, Reading.ofSource?_eq_some (by decide) _, ?_, ?_,
    Reading.ofSource?_eq_some (by decide) _, ?_, ?_⟩
  all_goals decide +kernel

end Removal

end Gloss

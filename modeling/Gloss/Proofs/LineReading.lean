import Gloss.Proofs.NoteLines
import Gloss.Proofs.Transparency

/-!
# Reading a text with carriage returns

Token by token, a text with carriage returns is read as the text without them
(`Piece.read_withReturns`), unless a line goes on in a quoted literal or a regular
expression (`Context.Continued`).
-/

namespace Gloss

open Host
open Text (withReturns stretch)

/-! ## Words and carriage returns -/

namespace Text

/-- A string without its carriage returns. -/
def withoutReturns (s : String) : String := String.ofList (dropReturns s.toList)

theorem returned_injective : Function.Injective returned := by
  intro s t same
  have lists := String.ofList_inj.mp same
  exact String.toList_inj.mp (withReturns_injective lists)

theorem returned_of_oneLine {s : String} (oneLine : '\n' ∉ s.toList) : returned s = s := by
  rw [returned, withReturns_of_oneLine oneLine, String.ofList_toList]

/-- A word of one line is kept, and only the word itself becomes it. -/
theorem returned_eq_iff {word : String} (oneLine : '\n' ∉ word.toList) {s : String} :
    returned s = word ↔ s = word := by
  constructor
  · exact fun same => returned_injective (same.trans (returned_of_oneLine oneLine).symm)
  · rintro rfl
    exact returned_of_oneLine oneLine

theorem returned_beq {word : String} (oneLine : '\n' ∉ word.toList) (s : String) :
    (returned s == word) = (s == word) := by
  rw [Bool.eq_iff_iff, beq_iff_eq, beq_iff_eq, returned_eq_iff oneLine]

theorem contains_returned {words : List String} (oneLine : ∀ w ∈ words, '\n' ∉ w.toList)
    (s : String) : words.contains (returned s) = words.contains s := by
  induction words with
  | nil => rfl
  | cons w words ih =>
    obtain ⟨first, others⟩ := List.forall_mem_cons.mp oneLine
    rw [List.contains_cons, List.contains_cons, returned_beq first, ih others]

theorem find?_withReturns {p : Char → Bool} (feed : p '\n' = false) (ret : p '\r' = false)
    (cs : List Char) : (withReturns cs).find? p = cs.find? p := by
  induction cs with
  | nil => rfl
  | cons c cs ih =>
    by_cases same : c = '\n'
    · subst same
      rw [withReturns_lineFeed, List.find?_cons_of_neg (by simp [ret]),
        List.find?_cons_of_neg (by simp [feed]), List.find?_cons_of_neg (by simp [feed]), ih]
    · rw [withReturns_cons same, List.find?_cons, List.find?_cons, ih]

/-- Within a line both texts are the same. -/
theorem take_withReturns_of_oneLine {cs : List Char} {n : Nat} (oneLine : '\n' ∉ cs.take n)
    (held : n ≤ cs.length) : (withReturns cs).take n = cs.take n := by
  have taken := take_withReturns cs n
  rwa [stretch_of_oneLine oneLine held, withReturns_of_oneLine oneLine] at taken

end Text

/-! ## Tokens -/

namespace Token

/-- The token in a text with carriage returns. -/
def returned (shift : Nat → Nat) (t : Token) : Token where
  kind := t.kind
  text := Text.returned t.text
  span := t.span.mapOffset shift
  newlinesBefore := t.newlinesBefore

variable (shift : Nat → Nat) (t : Token)

theorem isPunct_returned {word : String} (oneLine : '\n' ∉ word.toList) :
    (t.returned shift).isPunct word = t.isPunct word := by
  rw [isPunct, isPunct, returned, Text.returned_beq oneLine]

theorem isMemberModifier_returned :
    (t.returned shift).isMemberModifier = t.isMemberModifier := by
  rw [isMemberModifier, isMemberModifier, returned,
    Text.contains_returned (by decide)]

theorem isNote_returned : (t.returned shift).isNote = t.isNote := rfl

end Token

theorem Host.Regex.endsOperand_returned (token : String) :
    endsOperand (Text.returned token) = endsOperand token := by
  rw [endsOperand, endsOperand, Text.returned, String.toList_ofList, Text.getLast?_withReturns,
    ← Text.returned, Text.contains_returned (by decide)]

namespace Token

variable {last : Option Token} {ch : Char} {rest : List Char}

/-- A line goes on in the literal or the regular expression that starts here, and the text does so
after it. -/
def Continued (last : Option Token) (cs : List Char) : Prop :=
  (Literal.Continued cs ∧ Literal.extent? cs ≠ some (.closed cs.length)) ∨
    ∃ length, Regex.extent? (last.map (·.text)) cs = some (.closed length) ∧
      '\n' ∈ cs.take length

/-- A word, a number or a punctuator lies within a line. -/
theorem not_mem_take_plainShape (other : ch ≠ '\n') :
    '\n' ∉ (ch :: rest).take (plainShape ch rest).2 := by
  unfold plainShape
  split
  · dsimp only
    split <;> exact Text.not_mem_take_run (by decide) other rest
  split
  · exact Text.not_mem_take_run (by decide) other rest
  split
  · next arrow =>
    obtain ⟨more, rfl⟩ := List.head?_eq_some_iff.mp arrow.2
    simpa using Ne.symm other
  · simpa using Ne.symm other

theorem plainShape_withReturns (other : ch ≠ '\n') :
    plainShape ch (withReturns rest) = plainShape ch rest := by
  have word := Text.takeWhile_withReturns (p := isIdentifierPart) (by decide) (by decide) rest
  have number := Text.takeWhile_withReturns (p := isNumberPart) (by decide) (by decide) rest
  have taken : (ch :: withReturns rest).take (1 + identifierRun rest) =
      (ch :: rest).take (1 + identifierRun rest) := by
    have bound : identifierRun rest ≤ rest.length :=
      (List.takeWhile_sublist isIdentifierPart).length_le
    rw [← Text.withReturns_cons other]
    refine Text.take_withReturns_of_oneLine (Text.not_mem_take_run (by decide) other rest) ?_
    rw [List.length_cons]
    omega
  have run : identifierRun (withReturns rest) = identifierRun rest := congrArg List.length word
  simp only [plainShape, run, taken, number,
    Text.head?_withReturns_eq_some (c := '>') (by decide) (by decide)]

theorem introducerShape_withReturns :
    introducerShape (withReturns rest) = introducerShape rest := by
  have word := Text.takeWhile_withReturns (p := isIdentifierPart) (by decide) (by decide) rest
  have run : identifierRun (withReturns rest) = identifierRun rest := congrArg List.length word
  simp only [introducerShape, run, Text.any_head?_withReturns (p := isIdentifierStart)
    (by decide) (by decide)]

theorem stretch_introducerShape (other : ch ≠ '\n') :
    stretch (ch :: rest) (introducerShape rest).2 = (introducerShape rest).2 := by
  refine Text.stretch_of_oneLine ?_ (introducerShape_le rest)
  unfold introducerShape
  split
  · exact Text.not_mem_take_run (by decide) other rest
  · simpa using Ne.symm other

theorem endsOperand_returned (last : Option Token) (shift : Nat → Nat) :
    ((last.map (·.returned shift)).map (·.text)).any Regex.endsOperand =
      (last.map (·.text)).any Regex.endsOperand := by
  cases last with
  | none => rfl
  | some t => exact Regex.endsOperand_returned t.text

/-- A host token has the same kind with carriage returns, and reaches as far. -/
theorem shape_withReturns (other : ch ≠ '\n') (whole : ¬ Continued last (ch :: rest))
    (shift : Nat → Nat) :
    shape (last.map (·.returned shift)) ch (withReturns rest) =
      ((shape last ch rest).1, stretch (ch :: rest) (shape last ch rest).2) := by
  rw [Continued, not_or, not_and_not_right, not_exists] at whole
  have literal := Literal.extent?_withReturns (ch :: rest)
  have regex := Regex.extent?_closed_withReturns (endsOperand_returned last shift) (ch :: rest)
  rw [Text.withReturns_cons other] at literal regex
  rw [shape, shape, literal]
  have total := Text.stretch_length (ch :: rest)
  rw [Text.withReturns_cons other] at total
  cases opens : Literal.extent? (ch :: rest) with
  | some extent =>
    cases extent with
    | unclosed =>
      rw [Option.map_some, Extent.stretched, ite_self]
      exact Prod.ext rfl total.symm
    | closed length =>
      rw [Option.map_some]
      cases goes : Literal.continuesFrom (ch :: rest) with
      | false => rfl
      | true =>
        -- the literal takes up the whole text, closed or not
        have all := whole.1 ⟨⟨length, opens⟩, goes⟩
        obtain rfl := Extent.closed.inj (Option.some.inj (opens.symm.trans all))
        exact Prod.ext rfl total.symm
  | none =>
    rw [Option.map_none]
    dsimp only
    have plain : plainShape ch (withReturns rest) =
        ((plainShape ch rest).1, stretch (ch :: rest) (plainShape ch rest).2) := by
      rw [plainShape_withReturns other, Text.stretch_of_oneLine (not_mem_take_plainShape other)
        (plainShape_le ch rest)]
    split
    · next length closed =>
      obtain ⟨closed, oneLine⟩ := (regex length).mp closed
      rw [closed, Text.stretch_of_oneLine oneLine (Regex.extent?_closed_le closed).2]
    · next unclosed =>
      split
      · next length closed =>
        have oneLine : '\n' ∉ (ch :: rest).take length := fun held => whole.2 length ⟨closed, held⟩
        exact absurd ((regex length).mpr ⟨closed, oneLine⟩) (unclosed length)
      · exact plain

/-- A host token in which a line goes on is of another kind with carriage returns, or takes up all
the rest of the text. -/
theorem shape_of_continued (other : ch ≠ '\n') (continued : Continued last (ch :: rest))
    (shift : Nat → Nat) :
    (shape (last.map (·.returned shift)) ch (withReturns rest)).1 ≠ (shape last ch rest).1 ∨
      (shape last ch rest).2 < (ch :: rest).length ∧
        (shape (last.map (·.returned shift)) ch (withReturns rest)).2 =
          (withReturns (ch :: rest)).length := by
  rcases continued with ⟨continued, more⟩ | ⟨length, closed, goes⟩
  · obtain ⟨⟨length, opens⟩, -⟩ := id continued
    have unclosed := continued.extent?
    rw [Text.withReturns_cons other] at unclosed ⊢
    have bound := (Literal.extent?_closed_le opens).2
    rw [shape, shape, opens, unclosed]
    refine .inr ⟨Nat.lt_of_le_of_ne bound fun all => more ?_, rfl⟩
    have all : length = (ch :: rest).length := all
    rw [opens, all]
  · have slash : ch = '/' := by
      by_contra slash
      rw [Regex.extent?_of_ne_slash slash] at closed
      cases closed
    subst slash
    have regex := Regex.extent?_closed_withReturns (endsOperand_returned last shift) ('/' :: rest)
    rw [Text.withReturns_cons other] at regex
    have literal : Literal.extent? ('/' :: withReturns rest) = none := rfl
    rw [shape_of_regex closed]
    unfold shape
    rw [literal]
    dsimp only
    refine .inl ?_
    split
    · next length' closed' =>
      obtain ⟨again, oneLine⟩ := (regex length').mp closed'
      obtain rfl := Extent.closed.inj (Option.some.inj (again.symm.trans closed))
      exact absurd goes oneLine
    · rw [plainShape_slash]
      decide

end Token

/-! ## One token -/

/-- What the reader knows, with carriage returns in the last token. -/
def Context.returned (shift : Nat → Nat) (ctx : Context) : Context :=
  { ctx with last := ctx.last.map (·.returned shift) }

/-- A line goes on in quotes, or in a regular expression, in what starts at the cursor. -/
def Context.Continued (d : Dialect) (ctx : Context) (c : Cursor) : Prop :=
  if c.rest.head? = some d.introducer then Note.Continued d c else Token.Continued ctx.last c.rest

/-- The piece of a text that becomes this one with carriage returns. -/
def Piece.returned (shift : Nat → Nat) (cs : List Char) (p : Piece) : Piece where
  token := p.token.returned shift
  length := stretch cs p.length
  scan := p.scan.map (·.returned shift cs)
  opened := p.opened

namespace Context

variable (shift : Nat → Nat) (ctx : Context)

theorem atMemberStart_returned : (ctx.returned shift).atMemberStart = ctx.atMemberStart := by
  unfold atMemberStart returned
  cases ctx.last with
  | none => rfl
  | some t =>
    have text (word : String) (oneLine : '\n' ∉ word.toList) :
        ((t.returned shift).text == word) = (t.text == word) := Text.returned_beq oneLine t.text
    simp only [Option.map_some, Token.isMemberModifier_returned, text "\x7b" (by decide),
      text "\x7d" (by decide), text ";" (by decide)]

theorem namesProperty_returned (after : List Char) :
    (ctx.returned shift).namesProperty (withReturns after) = ctx.namesProperty after := by
  have dot : (ctx.returned shift).last.any (·.isPunct ".") = ctx.last.any (·.isPunct ".") := by
    unfold returned
    cases ctx.last with
    | none => rfl
    | some t => exact t.isPunct_returned shift (by decide)
  rw [namesProperty, namesProperty, dot, Text.find?_withReturns (by decide) (by decide)]

theorem punctuate_returned (ch : Char) :
    (ctx.returned shift).punctuate ch =
      ((ctx.punctuate ch).1.returned shift, (ctx.punctuate ch).2) := by
  unfold punctuate
  split
  case h_3 =>
    by_cases waits : ctx.awaiting = some ctx.scopes.length <;>
      simp [enterBrace, returned, enter, braceScope, waits]
  case h_7 =>
    by_cases waits : ctx.awaiting = some ctx.scopes.length <;> simp [endStatement, returned, waits]
  all_goals rfl

theorem afterGap_returned (n : Nat) :
    (ctx.returned shift).afterGap n = (ctx.afterGap n).returned shift := rfl

end Context

namespace Piece

variable {d : Dialect} {ctx : Context} {c c' : Cursor} {shift : Nat → Nat} {ch : Char}
  {rest : List Char} {n : Nat}

theorem tokenAt_withReturns (at_ : c.Returned shift c') (n : Nat) (kind : Token.Kind)
    (length : Nat) :
    tokenAt c' n kind (stretch c.rest length) = (tokenAt c n kind length).returned shift := by
  rw [tokenAt, at_.lexeme, at_.span]
  rfl

theorem readHost_withReturns (at_ : c.Returned shift c') (text : c.rest = ch :: rest)
    (feed : ch ≠ '\n') (whole : ¬ Token.Continued ctx.last (ch :: rest)) (n : Nat) :
    readHost (ctx.returned shift) c' n ch (withReturns rest) =
      ((readHost ctx c n ch rest).1.returned shift c.rest,
        (readHost ctx c n ch rest).2.returned shift) := by
  have shape : Token.shape (ctx.returned shift).last ch (withReturns rest) =
      ((Token.shape ctx.last ch rest).1, stretch c.rest (Token.shape ctx.last ch rest).2) := by
    rw [text]
    exact Token.shape_withReturns feed whole shift
  have after : c'.rest.drop (stretch c.rest (Token.shape ctx.last ch rest).2) =
      withReturns (c.rest.drop (Token.shape ctx.last ch rest).2) := by
    rw [at_.rest, Text.drop_withReturns]
  have word (t : Token) : (t.returned shift).text = "class" ↔ t.text = "class" :=
    Text.returned_eq_iff (by decide)
  unfold readHost
  simp only [shape, tokenAt_withReturns at_, after, word, Context.namesProperty_returned,
    Context.punctuate_returned]
  split
  · rfl
  · split <;> rfl

/-- What is read at an introducer depends only on what stands there. -/
theorem readIntroducer_withReturns (at_ : c.Returned shift c') (text : c.rest = ch :: rest)
    (feed : ch ≠ '\n') (n : Nat)
    (found : Note.scan d (ctx.returned shift).atMemberStart c' =
      (Note.scan d ctx.atMemberStart c).returned shift c.rest) :
    readIntroducer d (ctx.returned shift) c' n (withReturns rest) =
      ((readIntroducer d ctx c n rest).1.returned shift c.rest,
        (readIntroducer d ctx c n rest).2.returned shift) := by
  have length : stretch c.rest (Token.introducerShape rest).2 =
      (Token.introducerShape rest).2 := by
    rw [text]
    exact Token.stretch_introducerShape feed
  have token := tokenAt_withReturns at_ n (Token.introducerShape rest).1
    (Token.introducerShape rest).2
  rw [length] at token
  unfold readIntroducer
  rw [found]
  cases Note.scan d ctx.atMemberStart c with
  | found a size =>
    simp only [Scan.returned, tokenAt_withReturns at_]
    rfl
  | plain | malformed | torn =>
    simp only [Scan.returned, Token.introducerShape_withReturns, token, returned, length,
      Option.map_some]
    rfl

/-- A token is the same in a text with carriage returns, unless a line goes on in it. -/
theorem read_withReturns (inline : d.Inline) (zero : ∀ n, shift n = 0 ↔ n = 0)
    (at_ : c.Returned shift c') (text : c.rest = ch :: rest) (feed : ch ≠ '\n')
    (whole : ¬ ctx.Continued d c) (n : Nat) :
    read d (ctx.returned shift) c' n ch (withReturns rest) =
      ((read d ctx c n ch rest).1.returned shift c.rest,
        (read d ctx c n ch rest).2.returned shift) := by
  simp only [Context.Continued, text, List.head?_cons, Option.some.injEq] at whole
  by_cases intro : ch = d.introducer
  · rw [if_pos intro] at whole
    have step (ctx : Context) (c : Cursor) (rest : List Char) :
        read d ctx c n ch rest = readIntroducer d (ctx.afterGap n) c n rest := if_pos intro
    rw [step, step, Context.afterGap_returned]
    refine readIntroducer_withReturns at_ text feed n ?_
    rw [Context.atMemberStart_returned]
    exact Note.scan_withReturns _ inline zero (intro ▸ text) (intro ▸ feed) whole at_
  · rw [if_neg intro] at whole
    have whole : ¬ Token.Continued (ctx.afterGap n).last (ch :: rest) := whole
    rw [read_host intro, read_host intro, Context.afterGap_returned]
    exact readHost_withReturns at_ text feed whole n

/-- Two pieces differ in more than carriage returns and offsets. -/
inductive Differ (p p' : Piece) : Prop
  | kind : p'.token.kind ≠ p.token.kind → Differ p p'
  | text : Text.withoutReturns p'.token.text ≠ p.token.text → Differ p p'
  | flaw {m m' : Malformed} : p.malformed? = some m → p'.malformed? = some m' →
    ¬ (m'.position.line = m.position.line ∧ m'.position.column = m.position.column) → Differ p p'

/-- A token in which a line goes on is not the same in a text with carriage returns. -/
theorem differ_of_continued (deep : d.depthLimit ≠ 0) (zero : ∀ n, shift n = 0 ↔ n = 0)
    (at_ : c.Returned shift c') (text : c.rest = ch :: rest) (feed : ch ≠ '\n')
    (continued : ctx.Continued d c) (n : Nat) :
    Differ (read d ctx c n ch rest).1
      (read d (ctx.returned shift) c' n ch (withReturns rest)).1 := by
  simp only [Context.Continued, text, List.head?_cons, Option.some.injEq] at continued
  by_cases intro : ch = d.introducer
  · rw [if_pos intro] at continued
    obtain ⟨m', found, goes⟩ := Note.scan_of_continued (ctx.afterGap n).atMemberStart deep zero
      (intro ▸ text) (intro ▸ feed) continued at_
    rw [← Context.atMemberStart_returned shift, ← Context.afterGap_returned] at found
    rw [read_plain intro found (by simp)]
    rcases goes with ⟨a, length, here⟩ | ⟨m, here, other⟩
    · rw [read_note intro here]
      refine .kind ?_
      dsimp only [tokenAt, Token.introducerShape]
      split <;> simp
    · rw [read_plain intro here (by simp)]
      exact .flaw rfl rfl other
  · rw [if_neg intro] at continued
    have continued : Token.Continued (ctx.afterGap n).last (ch :: rest) := continued
    rw [read_host intro, read_host intro]
    rcases Token.shape_of_continued feed continued shift with kind | ⟨less, all⟩
    · exact .kind kind
    · refine .text fun same => ?_
      have here : Text.withoutReturns (c'.lexeme (Token.shape (ctx.last.map (·.returned shift)) ch
          (withReturns rest)).2) = c.lexeme (Token.shape ctx.last ch rest).2 := same
      have plain : '\r' ∉ ch :: rest := text ▸ at_.plain
      have all : (Token.shape (ctx.last.map (·.returned shift)) ch (withReturns rest)).2 =
          (withReturns (ch :: rest)).length := all
      rw [all, Cursor.lexeme, Cursor.lexeme, at_.rest, text, List.take_length, Text.withoutReturns,
        String.toList_ofList, Text.dropReturns_withReturns plain, String.ofList_inj] at here
      have shorter := congrArg List.length here
      rw [List.length_take] at shorter
      have less : (Token.shape ctx.last ch rest).2 < (ch :: rest).length := less
      omega

end Piece

/-! ## The whole text -/

/-- The reader comes to a token in which a line goes on. -/
inductive Reading.GoesOn (d : Dialect) : Context → Cursor → Prop
  | here {ctx : Context} {c : Cursor} {gap rest : List Char} {ch : Char} :
    c.rest = gap ++ ch :: rest → Comment.Trivia gap → Comment.StartsToken (ch :: rest) →
    ctx.Continued d (c.advance gap.length) → GoesOn d ctx c
  | later {ctx : Context} {c : Cursor} {gap rest : List Char} {ch : Char} :
    c.rest = gap ++ ch :: rest → Comment.Trivia gap → Comment.StartsToken (ch :: rest) →
    GoesOn d (Piece.readAfter d ctx c gap ch rest).2
      ((c.advance gap.length).advance (Piece.readAfter d ctx c gap ch rest).1.length) →
    GoesOn d ctx c

/-- The reading of a text with carriage returns. -/
def Reading.returned (shift : Nat → Nat) (r : Reading) : Reading where
  tokens := r.tokens.map (·.returned shift)
  notes := r.notes.map (·.returned shift)
  malformed := r.malformed.map (·.mapOffset shift)

/-- Two readings are the same but for carriage returns and offsets. -/
structure Reading.SameLines (r r' : Reading) : Prop where
  kinds : r'.tokens.map (fun t => (t.kind, t.newlinesBefore)) =
    r.tokens.map fun t => (t.kind, t.newlinesBefore)
  texts : r'.tokens.map (fun t => Text.withoutReturns t.text) = r.tokens.map (·.text)
  payloads : r'.notes.map (fun a => Text.withoutReturns a.payload) = r.notes.map (·.payload)
  flaws : r'.malformed.map (fun m => (m.flaw, m.position.line, m.position.column)) =
    r.malformed.map fun m => (m.flaw, m.position.line, m.position.column)

/-- No carriage return stands in what was read. -/
structure Reading.Plain (r : Reading) : Prop where
  texts : ∀ t ∈ r.tokens, '\r' ∉ t.text.toList
  payloads : ∀ a ∈ r.notes, '\r' ∉ a.payload.toList

namespace Piece

variable (shift : Nat → Nat) (cs : List Char) (p : Piece)

theorem note?_returned : (p.returned shift cs).note? = p.note?.map (·.returned shift) := by
  unfold note? returned
  rcases p.scan with _ | (_ | _ | _ | _) <;> rfl

theorem malformed?_returned :
    (p.returned shift cs).malformed? = p.malformed?.map (·.mapOffset shift) := by
  unfold malformed? returned
  rcases p.scan with _ | (_ | _ | _ | _) <;> rfl

end Piece

namespace Reading

variable {d : Dialect} {ctx : Context} {c c' : Cursor} {shift : Nat → Nat} {r : Reading}

theorem Plain.sameLines (plain : r.Plain) (shift : Nat → Nat) : r.SameLines (r.returned shift) := by
  have back {s : String} (plain : '\r' ∉ s.toList) :
      Text.withoutReturns (Text.returned s) = s := by
    rw [Text.withoutReturns, Text.returned, String.toList_ofList,
      Text.dropReturns_withReturns plain, String.ofList_toList]
  refine ⟨?_, ?_, ?_, ?_⟩
  · rw [returned, List.map_map]
    rfl
  · rw [returned, List.map_map]
    exact List.map_congr_left fun t held => back (plain.texts t held)
  · rw [returned, List.map_map]
    exact List.map_congr_left fun a held => back (plain.payloads a held)
  · rw [returned, List.map_map]
    rfl

/-- Without carriage returns in the text there are none in what is read. -/
theorem plain_pieces (d : Dialect) (ctx : Context) (c : Cursor) (plain : '\r' ∉ c.rest) :
    (ofPieces (pieces d ctx c)).Plain := by
  induction ctx, c using pieces_induction with
  | last => exact ⟨List.forall_mem_nil _, List.forall_mem_nil _⟩
  | cons ctx c gap ch rest text trivia starts ih =>
    have here : '\r' ∉ (c.advance gap.length).rest := fun held => by
      rw [Cursor.advance_rest] at held
      exact plain (List.mem_of_mem_drop held)
    have later := ih fun held => by
      rw [Cursor.advance_rest] at held
      exact here (List.mem_of_mem_drop held)
    have part (n m : Nat) : '\r' ∉ (((c.advance gap.length).advance n).lexeme m).toList := by
      rw [Cursor.lexeme, String.toList_ofList, Cursor.advance_rest]
      exact fun held => here (List.mem_of_mem_drop (List.mem_of_mem_take held))
    refine ⟨List.forall_mem_cons.mpr ⟨?_, later.texts⟩, fun a held => ?_⟩
    · obtain ⟨kind, token⟩ := Piece.exists_token_read d ctx (c.advance gap.length)
        (gap.count '\n') ch rest
      show '\r' ∉ (Piece.readAfter d ctx c gap ch rest).1.token.text.toList
      rw [Piece.readAfter, token]
      exact part 0 _
    · obtain ⟨p, member, note⟩ := List.mem_filterMap.mp held
      rcases List.mem_cons.mp member with rfl | member
      · obtain ⟨-, length, found⟩ := Piece.scan_of_note note
        obtain ⟨form, opening, payload, closing, marker, rfl, -⟩ := Note.isCut_of_scan found
        exact part opening payload
      · exact later.payloads a (List.mem_filterMap.mpr ⟨p, member, note⟩)

/-- The gap and the token after it in both texts. -/
theorem rest_withReturns {gap rest : List Char} {ch : Char} (at_ : c.Returned shift c')
    (text : c.rest = gap ++ ch :: rest) (starts : Comment.StartsToken (ch :: rest)) :
    c'.rest = withReturns gap ++ ch :: withReturns rest := by
  rw [at_.rest, text, Text.withReturns_append, Text.withReturns_cons starts.ne_lineFeed]

/-- After a gap the same token is read in both texts, unless a line goes on in it. -/
theorem readAfter_withReturns (inline : d.Inline) (zero : ∀ n, shift n = 0 ↔ n = 0)
    {gap rest : List Char} {ch : Char} (at_ : c.Returned shift c')
    (text : c.rest = gap ++ ch :: rest) (starts : Comment.StartsToken (ch :: rest))
    (whole : ¬ ctx.Continued d (c.advance gap.length)) :
    Piece.readAfter d (ctx.returned shift) c' (withReturns gap) ch (withReturns rest) =
      ((Piece.readAfter d ctx c gap ch rest).1.returned shift (c.advance gap.length).rest,
        (Piece.readAfter d ctx c gap ch rest).2.returned shift) := by
  rw [Piece.readAfter, Piece.readAfter, Text.count_withReturns]
  exact Piece.read_withReturns inline zero (at_.advance_append text)
    (Cursor.rest_advance_append text) starts.ne_lineFeed whole _

theorem ofPieces_cons (p : Piece) (ps : List Piece) :
    ofPieces (p :: ps) = ⟨p.token :: (ofPieces ps).tokens,
      p.note?.toList ++ (ofPieces ps).notes,
      p.malformed?.toList ++ (ofPieces ps).malformed⟩ := by
  rw [ofPieces, List.filterMap_cons, List.filterMap_cons]
  cases p.note? <;> cases p.malformed? <;> rfl

/-- A text with carriage returns is read as the text without them, as long as no line goes on. -/
theorem pieces_withReturns (inline : d.Inline) (zero : ∀ n, shift n = 0 ↔ n = 0)
    (at_ : c.Returned shift c') (whole : ¬ GoesOn d ctx c) :
    ofPieces (pieces d (ctx.returned shift) c') = (ofPieces (pieces d ctx c)).returned shift := by
  induction ctx, c using pieces_induction generalizing c' with
  | last ctx c last =>
    have last' := last.withReturns
    rw [← at_.rest] at last'
    rw [pieces_last last']
    rfl
  | cons ctx c gap ch rest text trivia starts ih =>
    have read := readAfter_withReturns inline zero at_ text starts
      fun goes => whole (.here text trivia starts goes)
    have text' := rest_withReturns at_ text starts
    rw [pieces_cons text' trivia.withReturns starts.withReturns, read, ofPieces_cons, ofPieces_cons,
      Piece.note?_returned, Piece.malformed?_returned]
    have later := ih ((at_.advance_append text).advance _)
      fun goes => whole (.later text trivia starts goes)
    dsimp only [Piece.returned]
    rw [later]
    simp only [returned, List.map_append, List.map_cons, Option.toList_map]

theorem not_sameLines_of_differ {p p' : Piece} (differ : p.Differ p') (ps ps' : List Piece) :
    ¬ SameLines (ofPieces (p :: ps)) (ofPieces (p' :: ps')) := by
  rintro ⟨kinds, texts, -, flaws⟩
  cases differ with
  | kind other => exact other (Prod.mk.inj (List.cons.inj kinds).1).1
  | text other => exact other (List.cons.inj texts).1
  | flaw here here' other =>
    rw [ofPieces_cons, ofPieces_cons, here, here'] at flaws
    have same := Prod.mk.inj (Prod.mk.inj (List.cons.inj flaws).1).2
    exact other same

/-- The tokens after the first ones are read alike when all are. -/
theorem SameLines.tail {p : Piece} {ps ps' : List Piece} {shift : Nat → Nat} {cs : List Char}
    (same : SameLines (ofPieces (p :: ps)) (ofPieces (p.returned shift cs :: ps'))) :
    SameLines (ofPieces ps) (ofPieces ps') := by
  obtain ⟨kinds, texts, payloads, flaws⟩ := same
  rw [ofPieces_cons, ofPieces_cons] at payloads flaws
  refine ⟨(List.cons.inj kinds).2, (List.cons.inj texts).2, ?_, ?_⟩
  · rw [Piece.note?_returned] at payloads
    cases note : p.note? with
    | none =>
      rw [note] at payloads
      exact payloads
    | some a =>
      rw [note] at payloads
      exact (List.cons.inj payloads).2
  · rw [Piece.malformed?_returned] at flaws
    cases flaw : p.malformed? with
    | none =>
      rw [flaw] at flaws
      exact flaws
    | some m =>
      rw [flaw] at flaws
      exact (List.cons.inj flaws).2

/-- Where a line goes on, the texts are not read alike. -/
theorem not_sameLines_of_goesOn (deep : d.depthLimit ≠ 0) (inline : d.Inline)
    (zero : ∀ n, shift n = 0 ↔ n = 0) (at_ : c.Returned shift c') (goes : GoesOn d ctx c) :
    ¬ SameLines (ofPieces (pieces d ctx c)) (ofPieces (pieces d (ctx.returned shift) c')) := by
  have differ {ctx : Context} {c c' : Cursor} {gap rest : List Char} {ch : Char}
      (at_ : c.Returned shift c') (text : c.rest = gap ++ ch :: rest)
      (trivia : Comment.Trivia gap) (starts : Comment.StartsToken (ch :: rest))
      (continued : ctx.Continued d (c.advance gap.length)) :
      ¬ SameLines (ofPieces (pieces d ctx c)) (ofPieces (pieces d (ctx.returned shift) c')) := by
    rw [pieces_cons text trivia starts,
      pieces_cons (rest_withReturns at_ text starts) trivia.withReturns starts.withReturns]
    refine not_sameLines_of_differ ?_ _ _
    rw [Piece.readAfter, Piece.readAfter, Text.count_withReturns]
    exact Piece.differ_of_continued deep zero (at_.advance_append text)
      (Cursor.rest_advance_append text) starts.ne_lineFeed continued _
  induction goes generalizing c' with
  | here text trivia starts continued => exact differ at_ text trivia starts continued
  | @later ctx c gap rest ch text trivia starts goes ih =>
    by_cases continued : ctx.Continued d (c.advance gap.length)
    · exact differ at_ text trivia starts continued
    · have read := readAfter_withReturns inline zero at_ text starts continued
      rw [pieces_cons text trivia starts, pieces_cons (rest_withReturns at_ text starts)
        trivia.withReturns starts.withReturns, read]
      exact fun same => ih ((at_.advance_append text).advance _) same.tail

end Reading

end Gloss

import Gloss.Proofs.Settling

/-!
# What a malformed annotation does to the lines after it

The text of a malformed annotation is read again as host text. The annotations
of the lines after it are found unless that text leaves a literal or a block
comment open, which then takes up the rest of the file: `Settled` says that it
does not, and `Reading.ofSource?_isolated_iff` that the other lines are read as
they would be alone exactly in that case.
-/

namespace Gloss

open Host

/-- What comes after the introducer, as a file of its own, leaves nothing open. -/
def Settled (d : Dialect) (flawed : List Char) : Prop := Settles d .initial (.start flawed.tail)

/-! ## Lines with an annotation -/

namespace Declarations

/-- The decimal digits of a number. -/
def digits (n : Nat) : List Char := Nat.toDigits 10 n

/-- A line that declares the `n`th variable and says that its type is the `n`th. -/
def line (d : Dialect) (n : Nat) : List Char :=
  "let v".toList ++ (digits n ++ ' ' :: d.introducer :: 'T' :: digits n)

theorem line_eq (d : Dialect) (n : Nat) :
    line d n =
      'l' :: ("et".toList ++ ' ' :: 'v' :: (digits n ++ ' ' :: d.introducer :: 'T' :: digits n)) :=
  rfl

/-- The payload of the annotation of a line. -/
def label (n : Nat) : String := String.ofList ('T' :: digits n)

theorem isIdentifierPart_of_mem_digits {n : Nat} {c : Char} (held : c ∈ digits n) :
    isIdentifierPart c = true := by
  have digit : c.isDigit = true := Nat.isDigit_of_mem_toDigits (by decide) (by decide) held
  have parts : ∀ code ∈ List.range' 48 10, isIdentifierPart (Char.ofNat code) = true := by
    decide
  have code : c.toNat ∈ List.range' 48 10 := by
    have bounds : 48 ≤ c.toNat ∧ c.toNat ≤ 57 := by
      simpa [Char.isDigit, UInt32.le_iff_toNat_le] using digit
    rw [List.mem_range'_1]
    omega
  have part := parts _ code
  rwa [Char.ofNat_toNat] at part

end Declarations

open Declarations

theorem isIdentifierPart_of_endsLine {more : List Char} (ends : EndsLine more) {c : Char}
    (head : more.head? = some c) : isIdentifierPart c = false := by
  obtain rfl := ends c head
  decide

namespace Reading

theorem rest_after_word {c : Cursor} {gap w more : List Char} {ch : Char}
    (text : c.rest = gap ++ ch :: (w ++ more)) :
    (c.advance (gap.length + (w.length + 1))).rest = more := by
  rw [← Cursor.advance_advance]
  exact Cursor.rest_advance_append (w := ch :: w) (Cursor.rest_advance_append text)

/-- A word is read to its end. -/
theorem outcome_word {d : Dialect} {c : Cursor} {gap w more : List Char} {ch : Char}
    (ctx : Context) (text : c.rest = gap ++ ch :: (w ++ more)) (trivia : Comment.Trivia gap)
    (other : ch ≠ d.introducer) (letter : isIdentifierStart ch = true)
    (parts : ∀ p ∈ w, isIdentifierPart p = true)
    (ends : ∀ p, more.head? = some p → isIdentifierPart p = false) :
    ∃ ctx', outcome (pieces d ctx c) =
        outcome (pieces d ctx' (c.advance (gap.length + (w.length + 1)))) ∧
      ctx'.newlines = 0 ∧ ctx'.last.map (·.text) = some (String.ofList (ch :: w)) := by
  have part := isIdentifierPart_of_start letter
  have slash : ch ≠ '/' := ne_of_isIdentifierPart part (by decide)
  have quote := isQuote_of_isIdentifierPart part
  have visible : Text.isBlank ch = false := by
    cases blank : Text.isBlank ch with
    | false => rfl
    | true =>
      rw [isIdentifierPart_of_isBlank blank] at part
      cases part
  have starts : Comment.StartsToken (ch :: (w ++ more)) :=
    ⟨ch, _, rfl, visible, fun opens => slash opens.1⟩
  have run : identifierRun (w ++ more) = w.length := by
    rw [identifierRun, takeWhile_append_eq_left.2 ⟨parts, ends⟩]
  have host := Piece.note?_of_ne other ctx c gap (w ++ more)
  have length : (Piece.readAfter d ctx c gap ch (w ++ more)).1.length = w.length + 1 := by
    rw [Piece.readAfter, (Piece.read_hostShape host).2, Token.hostShape, if_neg other, Token.shape,
      Literal.extent?_eq_none.2 quote, Regex.extent?_of_ne_slash slash]
    dsimp only
    rw [Token.plainShape, if_pos letter]
    dsimp only
    rw [run, Nat.add_comm]
    split <;> rfl
  have here := Cursor.rest_advance_append text
  refine ⟨(Piece.readAfter d ctx c gap ch (w ++ more)).2, ?_, ?_, ?_⟩
  · rw [pieces_cons text trivia starts, outcome_host (Piece.scan_of_ne other ..), length,
      Cursor.advance_advance]
  · rw [Piece.readAfter, Piece.read_host other]
    rfl
  · rw [Piece.readAfter, Piece.last_read host, Option.map_some, Piece.text_read here host length]

end Reading

/-- No member of a class is expected after a word that is no modifier. -/
theorem Context.atMemberStart_of_word {ctx : Context} {word : String} (newlines : ctx.newlines = 0)
    (last : ctx.last.map (·.text) = some word)
    (plain : word ∉ ["\x7b", "\x7d", ";"] ++ Token.memberModifiers) :
    ctx.atMemberStart = false := by
  obtain ⟨t, found, rfl⟩ := Option.map_eq_some_iff.1 last
  simp only [List.mem_append, List.mem_cons, List.not_mem_nil, or_false, not_or] at plain
  obtain ⟨⟨opening, closing, semicolon⟩, modifier⟩ := plain
  simp [atMemberStart, newlines, found, opening, closing, semicolon, Token.isMemberModifier,
    modifier]

/-- The two dialects that come with the program. -/
def Dialect.IsPreset (d : Dialect) : Prop := d = .hash ∨ d = .atSign

section Preset

variable {d : Dialect} (preset : d.IsPreset)

include preset

theorem Dialect.IsPreset.introducer : isIdentifierPart d.introducer = false ∧
    isHarmless d.introducer = true ∧ Text.isBlank d.introducer = false := by
  rcases preset with rfl | rfl <;> decide

theorem Note.scan_of_letter {c : Cursor} {rest : List Char}
    (text : c.rest = d.introducer :: 'T' :: rest) :
    scan d false c = scanWord d false c ∧ wordOpening d c = 1 := by
  have noMarker : d.hashbang ≠ some 'T' ∧ d.disambiguator = none := by
    rcases preset with rfl | rfl <;> decide
  have noBracket : Bracket.ofOpening? 'T' = none := by decide
  have noQuote : isQuote 'T' = false := by decide
  constructor
  · rw [scan, text]
    simp [noMarker.1, noBracket, noQuote]
  · rw [wordOpening, noMarker.2]

/-- The annotation of a line. -/
theorem Note.scan_label {c : Cursor} {n : Nat} {more : List Char}
    (text : c.rest = d.introducer :: 'T' :: (digits n ++ more)) (before : c.prev ≠ some '.')
    (ends : EndsLine more) :
    ∃ a, scan d false c = .found a ((digits n).length + 2) ∧ a.payload = label n := by
  obtain ⟨word, opening⟩ := scan_of_letter preset text
  have run : identifierRun (digits n ++ more) = (digits n).length := by
    rw [identifierRun, takeWhile_append_eq_left.2
      ⟨fun p => isIdentifierPart_of_mem_digits, fun p => isIdentifierPart_of_endsLine ends⟩]
  have letter : isIdentifierStart 'T' = true := by decide
  have flags : Marker.run more = (none, 0) := by
    cases more with
    | nil => rfl
    | cons p more =>
      obtain rfl := ends p rfl
      rfl
  have rest : c.rest.drop 1 = 'T' :: (digits n ++ more) := by
    rw [text]
    rfl
  have after : c.rest.drop (1 + (1 + (digits n).length)) = more := by
    rw [← List.drop_drop, rest, Nat.add_comm, List.drop_succ_cons, List.drop_left]
  rw [word, scanWord, opening, rest]
  dsimp only
  rw [if_pos letter, if_neg before, if_neg (by simp), run, flagged, after, flags]
  have total : 1 + (1 + (digits n).length) + 0 = (digits n).length + 2 := by omega
  refine ⟨cut c .word 1 (1 + (digits n).length) 0 none, by rw [← total], ?_⟩
  show String.ofList ((c.advance 1).rest.take (1 + (digits n).length)) = label n
  rw [Cursor.advance_rest, rest, Nat.add_comm, List.take_succ_cons, List.take_left, label]

namespace Reading

/-- The annotation of a line is read, and the reader goes on after the line. -/
theorem outcome_label {ctx : Context} {c : Cursor} {n : Nat} {w more : List Char}
    (text : c.rest = ' ' :: d.introducer :: 'T' :: (digits n ++ more))
    (newlines : ctx.newlines = 0)
    (last : ctx.last.map (·.text) = some (String.ofList ('v' :: w))) (ends : EndsLine more) :
    ∃ ctx', outcome (pieces d ctx c) =
      (label n :: (outcome (pieces d ctx' (c.advance ((digits n).length + 3)))).1,
        (outcome (pieces d ctx' (c.advance ((digits n).length + 3)))).2) := by
  have member : (ctx.afterGap 0).atMemberStart = false := by
    have others : ∀ word ∈ ["\x7b", "\x7d", ";"] ++ Token.memberModifiers,
        word.toList.head? ≠ some 'v' := by
      decide
    refine Context.atMemberStart_of_word newlines last fun held => others _ held ?_
    rw [String.toList_ofList]
    rfl
  have slash : d.introducer ≠ '/' := by
    rcases preset with rfl | rfl <;> decide
  have starts : Comment.StartsToken (d.introducer :: 'T' :: (digits n ++ more)) :=
    ⟨_, _, rfl, preset.introducer.2.2, fun opens => slash opens.1⟩
  have space : Comment.Trivia [' '] := .blank (by decide) .nil
  have before : (c.advance 1).prev ≠ some '.' := by
    rw [Cursor.advance_prev, text]
    show some ' ' ≠ some '.'
    decide
  obtain ⟨a, found, payload⟩ := Note.scan_label preset (c := c.advance 1)
    (by rw [Cursor.advance_rest, text]; rfl) before ends
  have found' : Note.scan d (ctx.afterGap ([' '].count '\n')).atMemberStart
      (c.advance [' '].length) = .found a ((digits n).length + 2) := by
    rw [show [' '].count '\n' = 0 from rfl, member]
    exact found
  have step : Piece.readAfter d ctx c [' '] d.introducer ('T' :: (digits n ++ more)) = _ :=
    Piece.read_note rfl found'
  have total : [' '].length + ((digits n).length + 2) = (digits n).length + 3 := by
    rw [List.length_singleton]
    omega
  refine ⟨(ctx.afterGap ([' '].count '\n')).afterNote, ?_⟩
  rw [pieces_cons (show c.rest = [' '] ++ _ from text) space starts, step, Cursor.advance_advance,
    total, ← payload]
  rfl

theorem outcome_line {c : Cursor} {gap : List Char} {n : Nat} {more : List Char}
    (ctx : Context) (text : c.rest = gap ++ (line d n ++ more)) (trivia : Comment.Trivia gap)
    (ends : EndsLine more) :
    ∃ ctx', outcome (pieces d ctx c) =
      (label n :: (outcome (pieces d ctx' (c.advance (gap.length + (line d n).length)))).1,
        (outcome (pieces d ctx' (c.advance (gap.length + (line d n).length)))).2) := by
  have others : d.introducer ≠ 'l' ∧ d.introducer ≠ 'v' := by
    rcases preset with rfl | rfl <;> decide
  have stops (rest : List Char) :
      ∀ p, (' ' :: rest).head? = some p → isIdentifierPart p = false := by
    intro p head
    obtain rfl := Option.some.inj head
    decide
  have space : Comment.Trivia [' '] := .blank (by decide) .nil
  have text₁ : c.rest = gap ++ 'l' :: ("et".toList ++ ' ' :: 'v' :: (digits n ++ ' ' ::
      d.introducer :: 'T' :: (digits n ++ more))) := by
    rw [text, line_eq]
    simp
  obtain ⟨ctx₁, read₁, -, -⟩ := outcome_word ctx text₁ trivia others.1.symm (by decide)
    (List.all_eq_true.1 (by decide)) (stops _)
  have text₂ : _ = [' '] ++ 'v' :: (digits n ++ ' ' :: d.introducer :: 'T' :: (digits n ++ more)) :=
    rest_after_word text₁
  generalize here₁ : c.advance (gap.length + ("et".toList.length + 1)) = c₁ at read₁ text₂
  obtain ⟨ctx₂, read₂, newlines, last⟩ := outcome_word ctx₁ text₂ space
    others.2.symm (by decide) (fun p => isIdentifierPart_of_mem_digits) (stops _)
  have text₃ := rest_after_word text₂
  generalize here₂ : c₁.advance ([' '].length + ((digits n).length + 1)) = c₂ at read₂ text₃
  obtain ⟨ctx₃, read₃⟩ := outcome_label preset text₃ newlines last ends
  have after : c₂.advance ((digits n).length + 3) = c.advance (gap.length + (line d n).length) := by
    rw [← here₂, ← here₁, Cursor.advance_advance, Cursor.advance_advance, line_eq]
    congr 1
    simp
    omega
  rw [after] at read₃
  exact ⟨ctx₃, read₁.trans (read₂.trans read₃)⟩

/-- Lines to the end of a file are all read. -/
theorem outcome_lines {ctx : Context} {c : Cursor} {gap : List Char} {n : Nat} {ns : List Nat}
    (text : c.rest = gap ++ (line d n ++ ns.flatMap fun n => '\n' :: line d n))
    (trivia : Comment.Trivia gap) :
    outcome (pieces d ctx c) = ((n :: ns).map label, []) := by
  induction ns generalizing n ctx c gap with
  | nil =>
    obtain ⟨ctx', read⟩ := outcome_line preset ctx text trivia (by rintro p ⟨⟩)
    have done : (c.advance (gap.length + (line d n).length)).rest = [] := by
      rw [Cursor.advance_rest, text]
      simp
    rw [read, pieces_last (by rw [done]; exact .inl .nil)]
    rfl
  | cons m ns ih =>
    rw [List.flatMap_cons] at text
    obtain ⟨ctx', read⟩ := outcome_line preset ctx text trivia (by rintro p ⟨⟩; rfl)
    have rest : (c.advance (gap.length + (line d n).length)).rest =
        ['\n'] ++ (line d m ++ ns.flatMap fun n => '\n' :: line d n) := by
      rw [Cursor.advance_rest, text]
      simp
    rw [read, ih rest (.blank (by decide) .nil)]
    rfl

/-- Lines before a text are read first, and the reader goes on where the text starts. -/
theorem outcome_lines_append {c : Cursor} {gap : List Char} {ns : List Nat} {more : List Char}
    (ctx : Context) (text : c.rest = gap ++ ((ns.flatMap fun n => line d n ++ ['\n']) ++ more))
    (trivia : Comment.Trivia gap) :
    ∃ (ctx' : Context) (c' : Cursor) (gap' : List Char),
      outcome (pieces d ctx c) = (ns.map label ++ (outcome (pieces d ctx' c')).1,
        (outcome (pieces d ctx' c')).2) ∧
      c'.rest = gap' ++ more ∧ Comment.Trivia gap' ∧ c'.advance gap'.length =
        c.advance (gap.length + (ns.flatMap fun n => line d n ++ ['\n']).length) := by
  induction ns generalizing ctx c gap with
  | nil => exact ⟨ctx, c, gap, rfl, by simpa using text, trivia, rfl⟩
  | cons n ns ih =>
    have text' : c.rest = gap ++ (line d n ++ '\n' ::
        ((ns.flatMap fun n => line d n ++ ['\n']) ++ more)) := by
      rw [text]
      simp
    obtain ⟨ctx₁, read⟩ := outcome_line preset ctx text' trivia (by rintro p ⟨⟩; rfl)
    have rest : (c.advance (gap.length + (line d n).length)).rest =
        ['\n'] ++ ((ns.flatMap fun n => line d n ++ ['\n']) ++ more) := by
      rw [Cursor.advance_rest, text']
      simp
    obtain ⟨ctx', c', gap', read', text'', trivia', here⟩ := ih ctx₁ rest (.blank (by decide) .nil)
    refine ⟨ctx', c', gap', by rw [read, read']; rfl, text'', trivia', ?_⟩
    rw [here, Cursor.advance_advance]
    congr 1
    simp
    omega

end Reading

theorem harmless_line (n : Nat) : Harmless (line d n) := by
  have number : Harmless (digits n) := fun c held =>
    isHarmless_of_isIdentifierPart (isIdentifierPart_of_mem_digits held)
  have word : Harmless "et".toList := List.all_eq_true.1 (by decide)
  simp only [line_eq, harmless_cons, harmless_append]
  exact ⟨by decide, word, by decide, by decide, number, by decide, preset.introducer.2.1,
    by decide, number⟩

theorem harmless_lines (n : Nat) (ns : List Nat) :
    Harmless (line d n ++ ns.flatMap fun n => '\n' :: line d n) := by
  refine harmless_append.2 ⟨harmless_line preset n, fun c held => ?_⟩
  obtain ⟨m, -, inLine⟩ := List.mem_flatMap.1 held
  rcases List.mem_cons.1 inLine with rfl | inLine
  · decide
  · exact harmless_line preset m c inLine

end Preset

/-! ## A flawed text between lines -/

namespace Declarations

/-- Lines with a flawed text between them, joined by line feeds. -/
def joined (d : Dialect) (before : List Nat) (flawed : List Char) (after : List Nat) : List Char :=
  ['\n'].intercalate (before.map (line d) ++ flawed :: after.map (line d))

/-- Where the flawed text starts. -/
def place (d : Dialect) (before : List Nat) (flawed : List Char) (after : List Nat) : Cursor :=
  (Cursor.start (joined d before flawed after)).advance
    (before.flatMap fun n => line d n ++ ['\n']).length

theorem intercalate_append (lines : List (List Char)) (first : List Char)
    (others : List (List Char)) :
    ['\n'].intercalate (lines ++ first :: others) =
      lines.flatMap (· ++ ['\n']) ++ (first ++ others.flatMap ('\n' :: ·)) := by
  induction lines with
  | nil =>
    induction others generalizing first with
    | nil => simp
    | cons second others ih =>
      have more := ih second
      rw [List.nil_append] at more
      rw [List.nil_append, List.intercalate_cons_cons, more]
      simp
  | cons next lines ih =>
    rw [List.cons_append, List.intercalate_cons_of_ne_nil (by simp), ih]
    simp

theorem joined_eq (d : Dialect) (before : List Nat) (flawed : List Char) (after : List Nat) :
    joined d before flawed after = (before.flatMap fun n => line d n ++ ['\n']) ++
      (flawed ++ after.flatMap fun n => '\n' :: line d n) := by
  rw [joined, intercalate_append, List.flatMap_map, List.flatMap_map]

end Declarations

namespace Note

theorem scanWord_ne_malformed {d : Dialect} {memberStart : Bool} {c : Cursor} {m : Malformed} :
    scanWord d memberStart c ≠ .malformed m := by
  unfold scanWord
  repeat' split
  all_goals simp [flagged]

/-- Blocks and quoted payloads alone are malformed, and they are so wherever they stand. -/
theorem scan_eq_malformed {d : Dialect} {memberStart : Bool} {c : Cursor} {m : Malformed}
    (malformed : scan d memberStart c = .malformed m) :
    (∀ memberStart', scan d memberStart' c = .malformed m) ∧
      ∃ ch rest, c.rest = d.introducer :: ch :: rest ∧ isIdentifierStart ch = false := by
  cases text : c.rest with
  | nil => simp [scan, text] at malformed
  | cons first rest =>
    simp only [scan, text] at malformed ⊢
    split at malformed
    · cases malformed
    next intro =>
    rw [Decidable.not_not] at intro
    subst intro
    cases rest with
    | nil => exact absurd malformed scanWord_ne_malformed
    | cons ch rest =>
      have other {opens : Char} (same : ch = opens) (no : isIdentifierStart opens = false) :
          ∃ ch' rest', d.introducer :: ch :: rest = d.introducer :: ch' :: rest' ∧
            isIdentifierStart ch' = false :=
        ⟨ch, rest, rfl, same ▸ no⟩
      simp only [List.head?_cons] at malformed ⊢
      split at malformed
      · unfold scanHashbang at malformed
        split at malformed <;> cases malformed
      next hashbang =>
      split at malformed
      · next own opens =>
        have opening := Bracket.ofOpening?_eq_some.1 (Option.filter_eq_some_iff.1 opens).1
        refine ⟨fun memberStart' => ?_, other opening (by cases own <;> decide)⟩
        rw [if_neg (by simp), if_neg hashbang]
        exact malformed
      next opens =>
      split at malformed
      · next quote =>
        refine ⟨fun memberStart' => ?_, ?_⟩
        · rw [if_neg (by simp), if_neg hashbang, if_pos quote]
          exact malformed
        · refine ⟨ch, rest, rfl, ?_⟩
          cases start : isIdentifierStart ch with
          | false => rfl
          | true =>
            have none := isQuote_of_isIdentifierPart (isIdentifierPart_of_start start)
            rw [none] at quote
            exact absurd quote.2 (by decide)
      · exact absurd malformed scanWord_ne_malformed

end Note

/-- The malformed annotation is found, and the reader goes on after its introducer. -/
theorem Reading.outcome_malformed {d : Dialect} (preset : d.IsPreset) {c : Cursor}
    {gap rest : List Char} {m : Malformed} (ctx : Context)
    (text : c.rest = gap ++ d.introducer :: rest) (trivia : Comment.Trivia gap)
    (malformed : Note.scan d false (c.advance gap.length) = .malformed m) :
    ∃ ctx' : Context, (ctx'.last.map (·.text)).any Regex.endsOperand = false ∧
      outcome (pieces d ctx c) =
        ((outcome (pieces d ctx' ((c.advance gap.length).advance 1))).1,
          m :: (outcome (pieces d ctx' ((c.advance gap.length).advance 1))).2) := by
  obtain ⟨anywhere, ch, rest', text', other⟩ := Note.scan_eq_malformed malformed
  rw [Cursor.rest_advance_append text] at text'
  obtain ⟨-, rfl⟩ := List.cons.inj text'
  have slash : d.introducer ≠ '/' := by
    rcases preset with rfl | rfl <;> decide
  have starts : Comment.StartsToken (d.introducer :: ch :: rest') :=
    ⟨_, _, rfl, preset.introducer.2.2, fun opens => slash opens.1⟩
  have shape : Token.introducerShape (ch :: rest') = (.punct, 1) := by
    rw [Token.introducerShape, if_neg (by simp [other])]
  have step : Piece.readAfter d ctx c gap d.introducer (ch :: rest') = _ :=
    Piece.read_plain rfl (anywhere _) (by simp)
  rw [pieces_cons text trivia starts, step, shape]
  refine ⟨_, ?_, rfl⟩
  have lexeme : (c.advance gap.length).lexeme 1 = String.ofList [d.introducer] := by
    rw [Cursor.lexeme, Cursor.rest_advance_append text]
    rfl
  show Regex.endsOperand ((c.advance gap.length).lexeme 1) = false
  rw [lexeme]
  rcases preset with rfl | rfl <;> decide

/-- The lines before a flawed text are read, its flaw is found, and the reader goes on with what
comes after its introducer. -/
theorem Reading.outcome_joined {d : Dialect} (preset : d.IsPreset) {before after : List Nat}
    {text : List Char} {m : Malformed}
    (malformed : Note.scan d false (place d before (d.introducer :: text) after) = .malformed m) :
    ∃ (ctx' : Context) (c' : Cursor), (ctx'.last.map (·.text)).any Regex.endsOperand = false ∧
      (c'.rest = text ++ after.flatMap fun n => '\n' :: line d n) ∧
      outcome (piecesOf d (String.ofList (joined d before (d.introducer :: text) after))) =
        (before.map label ++ (outcome (pieces d ctx' c')).1,
          m :: (outcome (pieces d ctx' c')).2) := by
  obtain ⟨ctx, c, gap, read, rest, trivia, here⟩ := outcome_lines_append preset .initial
    (show (Cursor.start (joined d before (d.introducer :: text) after)).rest = [] ++ _ from
      joined_eq ..) .nil
  rw [List.length_nil, Nat.zero_add, ← place] at here
  obtain ⟨ctx', operand, read'⟩ := outcome_malformed preset ctx rest trivia (here ▸ malformed)
  refine ⟨ctx', (c.advance gap.length).advance 1, operand, ?_, ?_⟩
  · rw [Cursor.advance_rest, Cursor.rest_advance_append rest]
    rfl
  · rw [piecesOf, String.toList_ofList, read, read']

/-- A malformed annotation is reported once, and the annotations of the lines around it are found
exactly when there is no line after it, or what comes after its introducer leaves no literal and no
block comment open. -/
theorem Reading.ofSource?_isolated_iff {d : Dialect} (preset : d = .hash ∨ d = .atSign)
    {before after : List Nat} {flawed : List Char} {m : Malformed}
    (intro : flawed.head? = some d.introducer) (alone : d.introducer ∉ flawed.tail)
    (malformed : Note.scan d false (place d before flawed after) = .malformed m) :
    ∃ r, ofSource? d (String.ofList (joined d before flawed after)) = some r ∧
      r.malformed = [m] ∧
      (r.notes.map (·.payload) = (before ++ after).map label ↔
        after = [] ∨ Settled d flawed) := by
  have marker : d.hashbang ≠ some '\r' := by
    rcases preset with rfl | rfl <;> decide
  obtain ⟨text, rfl⟩ := List.head?_eq_some_iff.1 intro
  obtain ⟨ctx, c, operand, rest, read⟩ := outcome_joined preset malformed
  obtain ⟨notes, flaws⟩ := Prod.mk.inj read
  refine ⟨_, ofSource?_eq_some marker _, ?_⟩
  rw [ofSource, ofPieces]
  dsimp only
  rw [notes, flaws]
  cases after with
  | nil =>
    rw [List.flatMap_nil, List.append_nil] at rest
    rw [outcome_of_plain (show d.introducer ∉ c.rest from rest ▸ alone)]
    exact ⟨rfl, iff_of_true (by simp) (.inl rfl)⟩
  | cons n ns =>
    rcases outcome_append .initial (.start text) alone (harmless_lines preset n ns) ctx c []
      operand (by rw [rest]; rfl) .nil with
      ⟨settles, ctx', c', gap, goes, rest', trivia⟩ | ⟨open_, nothing⟩
    · rw [goes, outcome_lines preset rest' trivia]
      exact ⟨rfl, iff_of_true (by simp) (.inr settles)⟩
    · rw [nothing]
      refine ⟨rfl, iff_of_false (fun same => ?_) ?_⟩
      · have lengths := congrArg List.length same
        simp at lengths
      · intro spared
        rcases spared with none | settled
        · cases none
        · exact open_ settled

theorem settled_open_brackets : Settled .hash "#<( broken".toList := by
  have starts (c : Char) (rest : List Char) (visible : Text.isBlank c = false) (other : c ≠ '/') :
      Comment.StartsToken (c :: rest) :=
    ⟨c, rest, rfl, visible, fun opens => other opens.1⟩
  refine (settles_cons_iff (show _ = [] ++ '<' :: "( broken".toList by decide) .nil
    (starts _ _ (by decide) (by decide))).2 ⟨by decide, ?_⟩
  refine (settles_cons_iff (show _ = [] ++ '(' :: " broken".toList by decide +kernel) .nil
    (starts _ _ (by decide) (by decide))).2 ⟨by decide, ?_⟩
  refine (settles_cons_iff (show _ = [' '] ++ 'b' :: "roken".toList by decide +kernel)
    (.blank (by decide) .nil) (starts _ _ (by decide) (by decide))).2 ⟨by decide, ?_⟩
  exact settles_of_done (by decide +kernel)

/-- Brackets that are left open spare the next line. -/
theorem Reading.ofSource?_isolated_iff_brackets :
    Note.scan .hash false (place .hash [0] "#<( broken".toList [1]) =
        .malformed ⟨.unclosedBlock '<', ⟨11, 2, 1⟩⟩ ∧
      ∃ r, ofSource? .hash (String.ofList (joined .hash [0] "#<( broken".toList [1])) = some r ∧
        r.malformed = [⟨.unclosedBlock '<', ⟨11, 2, 1⟩⟩] ∧
        r.notes.map (·.payload) = [0, 1].map label := by
  have malformed : Note.scan .hash false (place .hash [0] "#<( broken".toList [1]) =
      .malformed ⟨.unclosedBlock '<', ⟨11, 2, 1⟩⟩ := by
    decide +kernel
  obtain ⟨r, read, flaws, isolated⟩ := ofSource?_isolated_iff (.inl rfl)
    (show "#<( broken".toList.head? = some '#' by decide) (by decide) malformed
  exact ⟨malformed, r, read, flaws, isolated.2 (.inr settled_open_brackets)⟩

/-- A quote that is left open hides the next line. -/
theorem Reading.ofSource?_not_isolated_quote :
    Note.scan .hash false (place .hash [0] "#<'a".toList [1]) =
        .malformed ⟨.unclosedString, ⟨13, 2, 3⟩⟩ ∧
      joined .hash [0] "#<'a".toList [1] = "let v0 #T0\n#<'a\nlet v1 #T1".toList ∧
      ∃ r, ofSource? .hash "let v0 #T0\n#<'a\nlet v1 #T1" = some r ∧
        r.malformed = [⟨.unclosedString, ⟨13, 2, 3⟩⟩] ∧
        r.notes.map (·.payload) = [0].map label := by
  refine ⟨by decide +kernel, by decide +kernel, _, ofSource?_eq_some (by decide) _, ?_, ?_⟩
  all_goals decide +kernel

end Gloss

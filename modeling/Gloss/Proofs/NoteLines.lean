import Gloss.Proofs.Continuation
import Gloss.Proofs.Spelling

/-!
# Annotations with carriage returns

An annotation in a text with carriage returns is the one in the text without them
(`Note.scan_withReturns`): its span is shifted, its payload has the carriage
returns, and a flaw is in the same line and column. That is so unless a line goes on
in the quotes of a literal, which is then unclosed (`Note.Continued`).
-/

namespace Gloss

open Host
open Text (withReturns stretch)

/-! ## Blocks -/

/-- The malformed annotation with its offset mapped. -/
def Malformed.mapOffset (f : Nat → Nat) (m : Malformed) : Malformed :=
  { m with position := m.position.mapOffset f }

namespace Block

/-- The item that a text with carriage returns has in place of the first one of a text. -/
def Item.stretched (cs : List Char) : Item → Item
  | literal length => .literal (stretch cs length)
  | comment length => .comment (stretch cs length)
  | item => item

variable {limit : Nat} {own : Bracket} {stack stack' : List Bracket} {prev : Option Char}
  {item : Item} {c c' : Cursor} {start start' : Position} {shift : Nat → Nat} {read n : Nat}

theorem judge_stretched (cs : List Char) :
    judge limit own stack (item.stretched cs) = judge limit own stack item := by
  cases item <;> rfl

theorem charItem_ne (prev : Option Char) (ch : Char) :
    (∀ length, charItem prev ch ≠ .literal length) ∧
      (∀ length, charItem prev ch ≠ .comment length) := by
  unfold charItem
  repeat' split
  all_goals simp

theorem charItem_stretched (prev : Option Char) (ch : Char) (cs : List Char) :
    (charItem prev ch).stretched cs = charItem prev ch := by
  obtain ⟨literal, comment⟩ := charItem_ne prev ch
  cases item : charItem prev ch with
  | literal length => exact absurd item (literal length)
  | comment length => exact absurd item (comment length)
  | _ => rfl

theorem length_stretched {ch : Char} (other : ch ≠ '\n') (rest : List Char) (item : Item) :
    (item.stretched (ch :: rest)).length = stretch (ch :: rest) item.length := by
  have one : stretch (ch :: rest) 1 = 1 := Text.stretch_one other rest
  cases item <;> first | rfl | exact one.symm

/-- The first item is the same with carriage returns, unless a line goes on in its quotes. -/
theorem item?_withReturns {ch : Char} {rest : List Char} (other : ch ≠ '\n')
    (whole : ¬ Literal.Continued (ch :: rest)) (prev : Option Char) :
    item? prev (ch :: withReturns rest) =
      (item? prev (ch :: rest)).map (·.stretched (ch :: rest)) := by
  have literal := Literal.extent?_of_not_continued whole
  have comment := Comment.block?_withReturns (ch :: rest)
  rw [Text.withReturns_cons other] at literal comment
  rw [item?, item?, literal, comment]
  cases Literal.extent? (ch :: rest) with
  | some extent => cases extent <;> rfl
  | none =>
    cases Comment.block? (ch :: rest) with
    | some extent => cases extent <;> rfl
    | none => exact congrArg some (charItem_stretched prev ch _).symm

theorem item?_lineFeed (prev : Option Char) (rest : List Char) :
    item? prev ('\n' :: rest) = some .other := rfl

theorem item?_return (prev : Option Char) (rest : List Char) :
    item? prev ('\r' :: rest) = some .other := rfl

/-- The reader comes to a closed literal in whose quotes a line goes on. -/
inductive Continues (limit : Nat) (own : Bracket) : List Bracket → Cursor → Prop
  | here {stack : List Bracket} {c : Cursor} :
    Literal.Continued c.rest → Continues limit own stack c
  | later {stack stack' : List Bracket} {c : Cursor} {item : Item} :
    item? c.prev c.rest = some item → judge limit own stack item = .go stack' →
    Continues limit own stack' (c.advance item.length) → Continues limit own stack c

/-- Over an item the reader goes on in both texts. -/
theorem close_go_withReturns (at_ : c.Returned shift c') (whole : ¬ Literal.Continued c.rest)
    (found : item? c.prev c.rest = some item) (go : judge limit own stack item = .go stack')
    (start : Position) (n : Nat) :
    close limit own start stack n c' =
      close limit own start stack' (n + stretch c.rest item.length)
        (c'.advance (stretch c.rest item.length)) := by
  cases text : c.rest with
  | nil =>
    rw [text] at found
    cases found
  | cons ch rest =>
    have text' := at_.rest
    rw [text] at found whole text'
    by_cases feed : ch = '\n'
    · -- the carriage return is an item of its own
      subst feed
      obtain rfl := Option.some.inj ((item?_lineFeed _ _).symm.trans found)
      obtain rfl := Verdict.go.inj go
      rw [Text.withReturns_lineFeed] at text'
      have first : item? c'.prev c'.rest = some .other := by
        rw [text', item?_return]
      have second : item? (c'.advance 1).prev (c'.advance 1).rest = some .other := by
        rw [Cursor.advance_rest, text', List.drop_succ_cons, List.drop_zero, item?_lineFeed]
      have one : Item.other.length = 1 := rfl
      have two : stretch ('\n' :: rest) 1 = 2 := rfl
      rw [close_go first rfl, one, close_go second rfl, one, Cursor.advance_advance, two]
    · rw [Text.withReturns_cons feed] at text'
      have found' : item? c'.prev c'.rest = some (item.stretched (ch :: rest)) := by
        rw [text', at_.prev, item?_withReturns feed whole, found, Option.map_some]
      rw [close_go found' ((judge_stretched _).trans go), length_stretched feed]

/-- An item that ends the block is found in both texts. -/
theorem item?_of_ends (at_ : c.Returned shift c') (whole : ¬ Literal.Continued c.rest)
    (found : item? c.prev c.rest = some item) (limit : Nat) (own : Bracket)
    (stack : List Bracket)
    (ends : ∀ stack', judge limit own stack item ≠ .go stack') :
    item? c'.prev c'.rest = some (item.stretched c.rest) := by
  cases text : c.rest with
  | nil =>
    rw [text] at found
    cases found
  | cons ch rest =>
    rw [text] at found whole
    by_cases feed : ch = '\n'
    · subst feed
      obtain rfl := Option.some.inj ((item?_lineFeed _ _).symm.trans found)
      exact absurd rfl (ends stack)
    · rw [at_.rest, at_.prev, text, Text.withReturns_cons feed, item?_withReturns feed whole, found,
        Option.map_some]

/-- A block is closed at the same place with carriage returns, or has the same flaw. -/
theorem close_withReturns (at_ : c.Returned shift c') (whole : ¬ Continues limit own stack c)
    (read n : Nat) :
    close limit own (start.mapOffset shift) stack n c' =
      ((close limit own start stack read c).map fun length =>
        n + stretch c.rest (length - read)).mapError (·.mapOffset shift) := by
  fun_induction close limit own start stack read c generalizing c' n with
  | case1 stack read c none =>
    have ends := item?_eq_none none
    exact close_end (by rw [at_.rest, ends]; rfl)
  | case2 stack read c item found stack' go ih =>
    have plain : ¬ Literal.Continued c.rest := fun continued => whole (.here continued)
    rw [close_go_withReturns at_ plain found go,
      ih (at_.advance item.length) (fun later => whole (.later found go later))]
    cases closed : close limit own start stack' (read + item.length) (c.advance item.length) with
    | error m => rfl
    | ok length =>
      have bound := le_close closed
      have split := Text.stretch_add c.rest item.length (length - (read + item.length))
      rw [show item.length + (length - (read + item.length)) = length - read by omega] at split
      refine congrArg Except.ok ?_
      dsimp only
      rw [split, Cursor.advance_rest, Nat.add_assoc]
  | case3 stack read c item found done =>
    have plain : ¬ Literal.Continued c.rest := fun continued => whole (.here continued)
    have found' := item?_of_ends at_ plain found limit own stack
      (by simp [done])
    rw [close_done found' ((judge_stretched _).trans done), Except.map, Nat.sub_self]
    rfl
  | case4 stack read c item found flaw judged =>
    have plain : ¬ Literal.Continued c.rest := fun continued => whole (.here continued)
    have found' := item?_of_ends at_ plain found limit own stack
      (by simp [judged])
    rw [close_flaw found' ((judge_stretched _).trans judged), at_.position_eq]
    rfl

/-- The block is unclosed at the given character of the text with carriage returns. The reader of
the text without them goes on after it. -/
structure Splits (limit : Nat) (own : Bracket) (stack : List Bracket) (c : Cursor) (k : Nat) :
    Prop where
  more : (c.advance k).rest ≠ []
  returned : ∀ shift c' start n, c.Returned shift c' → close limit own start stack n c' =
    .error ⟨.unclosedString, (c.advance k).position.mapOffset shift⟩
  plain : ∀ start read m, close limit own start stack read c = .error m →
    m.position = start ∨ ∃ j, k < j ∧ m.position = (c.advance j).position

theorem splits_of_continued (continued : Literal.Continued c.rest) :
    Splits limit own stack c 0 := by
  obtain ⟨⟨length, closed⟩, -⟩ := id continued
  cases text : c.rest with
  | nil =>
    rw [text] at closed
    cases closed
  | cons ch rest =>
    rw [text] at closed continued
    have feed : ch ≠ '\n' := by
      rintro rfl
      cases closed
    have unclosed := continued.extent?
    rw [Text.withReturns_cons feed] at unclosed
    refine ⟨by simp [text], fun shift c' start n at_ => ?_, fun start read m failed => ?_⟩
    · have found : item? c'.prev c'.rest = some .unclosedLiteral := by
        rw [at_.rest, text, Text.withReturns_cons feed, item?, unclosed]
      rw [close_flaw found rfl, at_.position_eq]
      rfl
    · have found : item? c.prev c.rest = some (.literal length) := by
        rw [text, item?, closed]
      have pos := (Literal.extent?_closed_le closed).1
      rw [close_go found rfl, Item.length] at failed
      rcases position_of_close failed with first | ⟨j, later⟩
      · exact .inl first
      · exact .inr ⟨length + j, by omega, by rw [later, Cursor.advance_advance]⟩

theorem Continues.exists_splits (continues : Continues limit own stack c) :
    ∃ k, Splits limit own stack c k := by
  induction continues with
  | here continued => exact ⟨0, splits_of_continued continued⟩
  | @later stack stack' c item found go _ ih =>
    by_cases continued : Literal.Continued c.rest
    · exact ⟨0, splits_of_continued continued⟩
    obtain ⟨k, splits⟩ := ih
    refine ⟨item.length + k, ?_, fun shift c' start n at_ => ?_, fun start read m failed => ?_⟩
    · rw [← Cursor.advance_advance]
      exact splits.more
    · rw [close_go_withReturns at_ continued found go,
        splits.returned shift _ start _ (at_.advance item.length), Cursor.advance_advance]
    · rw [close_go found go] at failed
      rcases splits.plain start _ m failed with first | ⟨j, after, later⟩
      · exact .inl first
      · exact .inr ⟨item.length + j, by omega, by rw [later, Cursor.advance_advance]⟩

end Block

/-! ## Parts of an annotation -/

/-- A block is closed at a bracket of its own. -/
theorem Block.head?_drop_of_close {limit read length : Nat} {own : Bracket} {start : Position}
    {stack : List Bracket} {c : Cursor}
    (closed : close limit own start stack read c = .ok length) :
    (c.rest.drop (length - read)).head? = some own.closing := by
  have follows : Follows c.prev.toList c := by
    rw [Follows, AfterStem.iff_startsArrow]
    cases c.prev <;> rfl
  obtain ⟨items, payload, after, cut, -, -, total⟩ := close_sound read follows closed
  have bound := le_close closed
  have text := cut.append_eq
  have size : payload.length = c.prev.toList.length + (length - read) := by omega
  have left := congrArg (List.drop payload.length) text
  rw [List.drop_left, size, List.drop_length_add_append] at left
  rw [left, List.head?_cons]

/-- Over a character the line or the column changes. -/
theorem Cursor.place_advance_ne (c : Cursor) {n : Nat} (pos : 0 < n) (more : c.rest ≠ []) :
    ¬ ((c.advance n).position.line = c.position.line ∧
      (c.advance n).position.column = c.position.column) := by
  rw [advance_position]
  refine Position.place_advance_ne (fun none => ?_) c.position
  rcases List.take_eq_nil_iff.mp none with zero | ends
  · omega
  · exact more ends

namespace Marker

theorem read_withReturns (m : Marker) (n : Nat) (cs : List Char) :
    m.read n (withReturns cs) = m.read n cs := by
  induction cs generalizing m n with
  | nil => rfl
  | cons c cs ih =>
    by_cases feed : c = '\n'
    · subst feed
      rfl
    · rw [Text.withReturns_cons feed, read, read, ih, ih]

theorem run_withReturns (cs : List Char) : run (withReturns cs) = run cs := by
  rw [run, run, read_withReturns]

theorem not_mem_take_read (m : Marker) (n : Nat) (cs : List Char) :
    '\n' ∉ cs.take ((m.read n cs).2 - n) := by
  have next {m : Marker} {n : Nat} {c : Char} {rest : List Char} (other : c ≠ '\n')
      (ih : '\n' ∉ rest.take ((m.read (n + 1) rest).2 - (n + 1))) :
      '\n' ∉ (c :: rest).take ((m.read (n + 1) rest).2 - n) := by
    have bound := le_read m (n + 1) rest
    rw [show (m.read (n + 1) rest).2 - n = (m.read (n + 1) rest).2 - (n + 1) + 1 by omega,
      List.take_succ_cons, List.mem_cons, not_or]
    exact ⟨Ne.symm other, ih⟩
  fun_induction read m n cs with
  | case1 => simp
  | case2 m n c rest optional ih => exact next (by rw [optional.1]; decide) ih
  | case3 m n c rest _ nonNull ih => exact next (by rw [nonNull.1]; decide) ih
  | case4 => simp

theorem not_mem_take_run (cs : List Char) : '\n' ∉ cs.take (run cs).2 := by
  have flags := not_mem_take_read none 0 cs
  rw [Nat.sub_zero] at flags
  unfold run
  split
  · simp
  · next read => rwa [read] at flags

end Marker

/-! ## The annotation as a whole -/

/-- The annotation in a text with carriage returns. -/
def Note.returned (shift : Nat → Nat) (a : Note) : Note where
  span := a.span.mapOffset shift
  form := a.form
  payload := Text.returned a.payload
  payloadSpan := a.payloadSpan.mapOffset shift
  marker := a.marker

/-- What stands at an introducer in a text with carriage returns. -/
def Scan.returned (shift : Nat → Nat) (cs : List Char) : Scan → Scan
  | .plain => .plain
  | .found a length => .found (a.returned shift) (stretch cs length)
  | .malformed m => .malformed (m.mapOffset shift)
  | .torn => .torn

/-- The marks of a dialect stand within a line: none of them is a blank that ends one. -/
structure Dialect.Inline (d : Dialect) : Prop where
  hashbang : d.hashbang ≠ some '\n' ∧ d.hashbang ≠ some '\r'
  disambiguator : d.disambiguator ≠ some '\n' ∧ d.disambiguator ≠ some '\r'
  specials : ∀ ch ∈ d.specials, Text.isBlank ch = false

theorem Dialect.Inline.isSpecial_of_isBlank {d : Dialect} (inline : d.Inline) (ch : Char)
    (blank : Text.isBlank ch = true) : d.isSpecial ch = false := by
  cases special : d.isSpecial ch with
  | false => rfl
  | true =>
    have visible := inline.specials ch (by simpa [isSpecial] using special)
    rw [blank] at visible
    cases visible

theorem Dialect.hash_inline : hash.Inline where
  hashbang := by decide
  disambiguator := by decide
  specials ch held := by
    have visible : hash.specials.all (Text.isBlank · == false) = true := by decide
    exact beq_iff_eq.mp (List.all_eq_true.mp visible ch held)

namespace Note

variable {d : Dialect} {memberStart : Bool} {c c' : Cursor} {shift : Nat → Nat} {first : Char}
  {rest : List Char}

/-- A line goes on in the quotes of a literal of the annotation that starts here. -/
def Continued (d : Dialect) (c : Cursor) : Prop :=
  ∃ ch, (c.rest.drop 1).head? = some ch ∧ ¬ (c.offset = 0 ∧ d.hashbang = some ch) ∧
    match (Bracket.ofOpening? ch).filter d.acceptsBlock with
    | some own => Block.Continues d.depthLimit own [] (c.advance 2)
    | none => d.quotedBlocks = true ∧ Literal.Continued (c.rest.drop 1)

theorem cut_withReturns (at_ : c.Returned shift c') (form : Form) (opening payload closing : Nat)
    (marker : Option Marker) :
    cut c' form (stretch c.rest opening) (stretch (c.rest.drop opening) payload)
        (stretch (c.rest.drop (opening + payload)) closing) marker =
      (cut c form opening payload closing marker).returned shift := by
  have inner := at_.advance opening
  have text := inner.lexeme payload
  have span := inner.span payload
  rw [Cursor.advance_rest] at text span
  rw [cut, cut, returned, text, span, ← Text.stretch_add, ← Text.stretch_add, at_.span]

/-- A word or special character with its flags lies within a line. -/
theorem flagged_withReturns (at_ : c.Returned shift c') (form : Form) {opening payload : Nat}
    (oneLine : '\n' ∉ c.rest.take (opening + payload)) (bound : opening + payload ≤ c.rest.length) :
    flagged c' form opening payload = (flagged c form opening payload).returned shift c.rest := by
  have whole := Text.stretch_of_oneLine oneLine bound
  have first : stretch c.rest opening = opening :=
    Text.stretch_of_oneLine (fun held => oneLine (by rw [List.take_add]; simp [held])) (by omega)
  have second : stretch (c.rest.drop opening) payload = payload := by
    have split := Text.stretch_add c.rest opening payload
    omega
  have after :
      c'.rest.drop (opening + payload) = withReturns (c.rest.drop (opening + payload)) := by
    have left := Text.drop_withReturns c.rest (opening + payload)
    rwa [whole, ← at_.rest] at left
  have third : stretch (c.rest.drop (opening + payload))
      (Marker.run (c.rest.drop (opening + payload))).2 =
        (Marker.run (c.rest.drop (opening + payload))).2 :=
    Text.stretch_of_oneLine (Marker.not_mem_take_run _) (Marker.run_le _)
  have cut := cut_withReturns at_ form opening payload
    (Marker.run (c.rest.drop (opening + payload))).2
    (Marker.run (c.rest.drop (opening + payload))).1
  have total := Text.stretch_add c.rest (opening + payload)
    (Marker.run (c.rest.drop (opening + payload))).2
  rw [first, second, third] at cut
  rw [whole, third] at total
  rw [flagged, flagged, after, Marker.run_withReturns, cut, Scan.returned, total]

/-- The introducer and the disambiguator are the same characters in both texts. -/
theorem wordOpening_withReturns (inline : d.Inline) (text : c.rest = first :: rest)
    (feed : first ≠ '\n') (at_ : c.Returned shift c') :
    wordOpening d c' = wordOpening d c ∧ wordOpening d c ≤ c.rest.length ∧
      '\n' ∉ c.rest.take (wordOpening d c) := by
  have text' := at_.rest
  rw [text, Text.withReturns_cons feed] at text'
  have one : 1 ≤ c.rest.length ∧ '\n' ∉ c.rest.take 1 := by
    rw [text]
    simpa using Ne.symm feed
  cases mark : d.disambiguator with
  | none =>
    have plain (c : Cursor) : wordOpening d c = 1 := by rw [wordOpening, mark]
    rw [plain, plain]
    exact ⟨rfl, one⟩
  | some m =>
    have own : m ≠ '\n' ∧ m ≠ '\r' := by
      have := inline.disambiguator
      rw [mark] at this
      exact ⟨fun same => this.1 (congrArg some same), fun same => this.2 (congrArg some same)⟩
    have opening (c : Cursor) :
        wordOpening d c = if (c.rest.drop 1).head? = some m then 2 else 1 := by
      rw [wordOpening, mark]
      cases (c.rest.drop 1).head? with
      | none => rfl
      | some ch => simp [eq_comm]
    simp only [opening, text, text', List.drop_succ_cons, List.drop_zero,
      Text.head?_withReturns_eq_some own.1 own.2, true_and]
    split
    · next second =>
      obtain ⟨more, rfl⟩ := List.head?_eq_some_iff.mp second
      exact ⟨by simp, by simpa using ⟨Ne.symm feed, Ne.symm own.1⟩⟩
    · rwa [text] at one

theorem scanWord_withReturns (memberStart : Bool) (inline : d.Inline)
    (text : c.rest = first :: rest) (feed : first ≠ '\n') (at_ : c.Returned shift c') :
    scanWord d memberStart c' = (scanWord d memberStart c).returned shift c.rest := by
  obtain ⟨opening, bound, oneLine⟩ := wordOpening_withReturns inline text feed at_
  have after : c'.rest.drop (wordOpening d c) = withReturns (c.rest.drop (wordOpening d c)) := by
    have left := Text.drop_withReturns c.rest (wordOpening d c)
    rwa [Text.stretch_of_oneLine oneLine bound, ← at_.rest] at left
  rw [scanWord, scanWord, opening, after, at_.prev]
  cases more : c.rest.drop (wordOpening d c) with
  | nil => rfl
  | cons ch rest =>
    by_cases same : ch = '\n'
    · subst same
      simp [inline.isSpecial_of_isBlank '\n' (by decide),
        inline.isSpecial_of_isBlank '\r' (by decide),
        show isIdentifierStart '\n' = false by decide,
        show isIdentifierStart '\r' = false by decide, Scan.returned]
    · have run : identifierRun (withReturns rest) = identifierRun rest := by
        rw [identifierRun, Text.takeWhile_withReturns (by decide) (by decide), identifierRun]
      have taken {n : Nat} (inner : '\n' ∉ (ch :: rest).take n) :
          '\n' ∉ c.rest.take (wordOpening d c + n) := by
        rw [List.take_add, more, List.mem_append, not_or]
        exact ⟨oneLine, inner⟩
      have size : c.rest.length = wordOpening d c + (rest.length + 1) := by
        have length := congrArg List.length more
        rw [List.length_drop, List.length_cons] at length
        omega
      rw [Text.withReturns_cons same]
      dsimp only
      rw [run]
      split
      · split
        · rfl
        split
        · rfl
        · have word : identifierRun rest ≤ rest.length :=
            (List.takeWhile_sublist isIdentifierPart).length_le
          exact flagged_withReturns at_ .word
            (taken (Text.not_mem_take_run (by decide) same rest)) (by omega)
      · split
        · exact flagged_withReturns at_ .special (taken (by simpa using Ne.symm same)) (by omega)
        · rfl

theorem lineBody_of_plain {cs : List Char} (plain : '\r' ∉ cs) :
    lineBody cs = cs.takeWhile (· ≠ '\n') := by
  have last : (cs.takeWhile (· ≠ '\n')).getLast? ≠ some '\r' := fun ends =>
    plain ((List.takeWhile_sublist _).mem (List.mem_of_getLast? ends))
  rw [lineBody, if_neg last]

/-- The carriage return at the end of a line is no part of what the line says. -/
theorem lineBody_withReturns {cs : List Char} (plain : '\r' ∉ cs) :
    lineBody (withReturns cs) = lineBody cs := by
  rw [lineBody_of_plain plain]
  rcases Comment.exists_lineEnd cs with ⟨body, rest, rfl, oneLine⟩ | oneLine
  · have inside : ∀ ch ∈ body, decide (ch ≠ '\n') = true :=
      fun ch held => decide_eq_true fun same => oneLine (same ▸ held)
    have line : (body ++ '\n' :: rest).takeWhile (· ≠ '\n') = body := by
      rw [List.takeWhile_append_of_pos inside, List.takeWhile_cons_of_neg (by simp),
        List.append_nil]
    have line' : (withReturns (body ++ '\n' :: rest)).takeWhile (· ≠ '\n') = body ++ ['\r'] := by
      rw [Text.withReturns_append, Text.withReturns_of_oneLine oneLine, Text.withReturns_lineFeed,
        List.takeWhile_append_of_pos inside, List.takeWhile_cons_of_pos (by decide),
        List.takeWhile_cons_of_neg (by simp)]
    rw [line, lineBody, line', List.getLast?_concat, if_pos rfl, List.dropLast_concat]
  · rw [Text.withReturns_of_oneLine oneLine, lineBody_of_plain plain]

/-- What the rest of a hashbang line says lies within the line. -/
theorem scanHashbang_withReturns {marker : Char} (mark : marker ≠ '\n' ∧ marker ≠ '\r')
    (text : c.rest = first :: marker :: rest) (feed : first ≠ '\n') (at_ : c.Returned shift c') :
    scanHashbang marker c' = (scanHashbang marker c).returned shift c.rest := by
  have text' := at_.rest
  rw [text, Text.withReturns_cons feed, Text.withReturns_cons mark.1] at text'
  have plain : '\r' ∉ rest := by
    have := at_.plain
    rw [text, List.mem_cons, List.mem_cons, not_or, not_or] at this
    exact this.2.2
  have body : lineBody (c'.rest.drop 2) = lineBody (c.rest.drop 2) := by
    rw [text, text']
    exact lineBody_withReturns plain
  have line : lineBody (c.rest.drop 2) = rest.takeWhile (· ≠ '\n') := by
    rw [text]
    exact lineBody_of_plain plain
  have two : stretch c.rest 2 = 2 := text ▸ Text.stretch_two feed mark.1 _
  have inner : stretch (c.rest.drop 2) (lineBody (c.rest.drop 2)).length =
      (lineBody (c.rest.drop 2)).length := by
    rw [line, text]
    have taken := List.prefix_iff_eq_take.mp (List.takeWhile_prefix (· ≠ '\n') (l := rest))
    refine Text.stretch_of_oneLine ?_ (List.takeWhile_prefix _).length_le
    rw [List.drop_succ_cons, List.drop_succ_cons, List.drop_zero, ← taken]
    exact Text.not_mem_takeWhile (by decide) rest
  have cut := cut_withReturns at_ .hashbang 2 (lineBody (c.rest.drop 2)).length 0 none
  rw [two, inner, Text.stretch_zero] at cut
  rw [scanHashbang, scanHashbang, if_neg fun torn => mark.2 torn.1,
    if_neg fun torn => mark.2 torn.1, body, cut, Scan.returned, Text.stretch_add, two, inner]

theorem scanBlock_withReturns {own : Bracket} (text : c.rest = first :: own.opening :: rest)
    (feed : first ≠ '\n') (whole : ¬ Block.Continues d.depthLimit own [] (c.advance 2))
    (at_ : c.Returned shift c') :
    scanBlock d own c' = (scanBlock d own c).returned shift c.rest := by
  have bracket : own.opening ≠ '\n' ∧ own.closing ≠ '\n' := by
    cases own <;> decide
  have one : stretch c.rest 1 = 1 := text ▸ Text.stretch_one feed _
  have two : stretch c.rest 2 = 2 := text ▸ Text.stretch_two feed bracket.1 _
  have place := (at_.advance 1).position_eq
  have inner := at_.advance 2
  rw [one] at place
  rw [two] at inner
  rw [scanBlock, scanBlock, place, at_.position_eq,
    Block.close_withReturns inner whole 0 0]
  split
  · rfl
  cases closed : Block.close d.depthLimit own c.position [] 0 (c.advance 2) with
  | error m => rfl
  | ok payload =>
    have bracketed := Block.head?_drop_of_close closed
    rw [Nat.sub_zero, Cursor.advance_rest, List.drop_drop] at bracketed
    obtain ⟨after, ends⟩ := List.head?_eq_some_iff.mp bracketed
    have last : stretch (c.rest.drop (2 + payload)) 1 = 1 := by
      rw [ends]
      exact Text.stretch_one bracket.2 after
    have cut := cut_withReturns at_ (.block own) 2 payload 1 none
    rw [two, last] at cut
    simp only [Except.map, Except.mapError, Nat.zero_add, Nat.sub_zero, Cursor.advance_rest]
    rw [cut, Scan.returned, Text.stretch_add, Text.stretch_add, two, last]

theorem scanQuoted_withReturns {quote : Char} (text : c.rest = first :: quote :: rest)
    (feed : first ≠ '\n') (whole : ¬ Literal.Continued (c.rest.drop 1))
    (at_ : c.Returned shift c') :
    scanQuoted quote c' = (scanQuoted quote c).returned shift c.rest := by
  have one : stretch c.rest 1 = 1 := text ▸ Text.stretch_one feed _
  have inner := at_.advance 1
  rw [one] at inner
  have after := inner.rest
  rw [Cursor.advance_rest, Cursor.advance_rest] at after
  rw [scanQuoted, scanQuoted, after, Literal.extent?_of_not_continued whole, inner.position_eq]
  cases opens : Literal.extent? (c.rest.drop 1) with
  | none => rfl
  | some extent =>
    cases extent with
    | unclosed => rfl
    | closed length =>
      have quoted : quote ≠ '\n' := by
        rintro rfl
        rw [text] at opens
        cases opens
      obtain ⟨inside, after, rfl, rfl⟩ : ∃ inside after, rest = inside ++ quote :: after ∧
          length = inside.length + 2 := by
        rw [text] at opens
        exact Literal.exists_append_of_extent? opens
      have two : stretch c.rest 2 = 2 := text ▸ Text.stretch_two feed quoted _
      have closing : stretch (c.rest.drop (2 + inside.length)) 1 = 1 := by
        rw [text, ← List.drop_drop, List.drop_succ_cons, List.drop_succ_cons, List.drop_zero,
          List.drop_left]
        exact Text.stretch_one quoted after
      have cut := cut_withReturns at_ (.quoted quote) 2 inside.length 1 none
      rw [two, closing] at cut
      have total : stretch c.rest (2 + inside.length + 1) =
          2 + stretch (c.rest.drop 2) inside.length + 1 := by
        rw [Text.stretch_add, Text.stretch_add, two, closing]
      have between : stretch (c.rest.drop 1) (inside.length + 2) - 2 =
          stretch (c.rest.drop 2) inside.length := by
        have split := Text.stretch_add c.rest 1 (inside.length + 2)
        rw [one, show 1 + (inside.length + 2) = 2 + inside.length + 1 by omega, total] at split
        omega
      simp only [Option.map_some, Extent.stretched, between, Nat.add_sub_cancel, cut, Scan.returned,
        total]

/-- A character that ends no line, no bracket and no quote leaves a word to be read. -/
theorem scan_of_lineEnd {ch : Char} (text : c.rest = d.introducer :: ch :: rest)
    (mark : d.hashbang ≠ some ch) (ends : ch = '\n' ∨ ch = '\r') :
    scan d memberStart c = scanWord d memberStart c := by
  have plain : Bracket.ofOpening? ch = none ∧ isQuote ch = false := by
    rcases ends with rfl | rfl <;> decide
  rw [scan_cons text, if_neg fun hashbang => mark hashbang.2, plain.1, plain.2]
  simp

/-- What stands at an introducer is the same with carriage returns, unless a line goes on in quotes
there. -/
theorem scan_withReturns (memberStart : Bool) (inline : d.Inline) (zero : ∀ n, shift n = 0 ↔ n = 0)
    (text : c.rest = d.introducer :: rest) (feed : d.introducer ≠ '\n')
    (whole : ¬ Continued d c) (at_ : c.Returned shift c') :
    scan d memberStart c' = (scan d memberStart c).returned shift c.rest := by
  have text' := at_.rest
  have word := scanWord_withReturns memberStart inline text feed at_
  rw [text, Text.withReturns_cons feed] at text'
  cases rest with
  | nil => rw [scan_single text, scan_single text', word]
  | cons ch rest =>
    by_cases ends : ch = '\n'
    · subst ends
      rw [Text.withReturns_lineFeed] at text'
      rw [scan_of_lineEnd text inline.hashbang.1 (.inl rfl),
        scan_of_lineEnd text' inline.hashbang.2 (.inr rfl), word]
    rw [Text.withReturns_cons ends] at text'
    have start : c'.offset = 0 ↔ c.offset = 0 := by rw [at_.offset_eq, zero]
    rw [scan_cons text, scan_cons text']
    simp only [start]
    split
    · next hashbang =>
      have mark : ch ≠ '\n' ∧ ch ≠ '\r' :=
        ⟨ends, fun same => inline.hashbang.2 (same ▸ hashbang.2)⟩
      exact scanHashbang_withReturns mark text feed at_
    next hashbang =>
    have next : (c.rest.drop 1).head? = some ch := by rw [text]; rfl
    split
    · next own opens =>
      have opening := Bracket.ofOpening?_eq_some.mp (Option.filter_eq_some_iff.mp opens).1
      refine scanBlock_withReturns (opening ▸ text) feed
        (fun goes => whole ⟨ch, next, hashbang, ?_⟩) at_
      rw [opens]
      exact goes
    next closed =>
    split
    · next quoted =>
      refine scanQuoted_withReturns text feed (fun goes => whole ⟨ch, next, hashbang, ?_⟩) at_
      rw [closed]
      exact ⟨quoted.1, goes⟩
    · exact word

/-- What is malformed with carriage returns is found without them, or its flaw is in another
place. -/
def Displaced (scan scan' : Scan) : Prop :=
  ∃ m', scan' = .malformed m' ∧ ((∃ a length, scan = .found a length) ∨
    ∃ m, scan = .malformed m ∧
      ¬ (m'.position.line = m.position.line ∧ m'.position.column = m.position.column))

theorem scanBlock_of_continues {own : Bracket} (deep : d.depthLimit ≠ 0)
    (text : c.rest = d.introducer :: own.opening :: rest) (feed : d.introducer ≠ '\n')
    (continues : Block.Continues d.depthLimit own [] (c.advance 2)) (at_ : c.Returned shift c') :
    Displaced (scanBlock d own c) (scanBlock d own c') := by
  have bracket : own.opening ≠ '\n' := by cases own <;> decide
  have inner := at_.advance 2
  have two : stretch c.rest 2 = 2 := text ▸ Text.stretch_two feed bracket _
  rw [two] at inner
  obtain ⟨k, splits⟩ := continues.exists_splits
  simp only [scanBlock, if_neg deep, splits.returned shift _ c'.position 0 inner]
  refine ⟨_, rfl, ?_⟩
  cases closed : Block.close d.depthLimit own c.position [] 0 (c.advance 2) with
  | ok payload => exact .inl ⟨_, _, rfl⟩
  | error m =>
    -- without carriage returns the flaw is the block itself, or it comes after the literal
    refine .inr ⟨m, rfl, ?_⟩
    rintro ⟨line, column⟩
    rcases splits.plain _ _ m closed with first | ⟨j, after, later⟩
    · have before := c.place_advance_ne (n := 2 + k) (by omega) (by simp [text])
      rw [← Cursor.advance_advance, ← first] at before
      exact before ⟨line, column⟩
    · have behind := Cursor.place_advance_ne _ (Nat.sub_pos_of_lt after) splits.more
      rw [Cursor.advance_advance, Nat.add_sub_cancel' (Nat.le_of_lt after), ← later] at behind
      exact behind ⟨line.symm, column.symm⟩

theorem scanQuoted_of_continued {ch : Char} (text : c.rest = d.introducer :: ch :: rest)
    (feed : d.introducer ≠ '\n') (continued : Literal.Continued (c.rest.drop 1))
    (at_ : c.Returned shift c') : Displaced (scanQuoted ch c) (scanQuoted ch c') := by
  obtain ⟨⟨length, opens⟩, -⟩ := id continued
  have after := (at_.advance 1).rest
  have one : stretch c.rest 1 = 1 := text ▸ Text.stretch_one feed _
  rw [one, Cursor.advance_rest, Cursor.advance_rest] at after
  simp only [scanQuoted, after, continued.extent?, opens]
  exact ⟨_, rfl, .inl ⟨_, _, rfl⟩⟩

/-- Where a line goes on in quotes, the annotation is malformed with carriage returns. -/
theorem scan_of_continued (memberStart : Bool) (deep : d.depthLimit ≠ 0)
    (zero : ∀ n, shift n = 0 ↔ n = 0) (text : c.rest = d.introducer :: rest)
    (feed : d.introducer ≠ '\n') (continued : Continued d c) (at_ : c.Returned shift c') :
    Displaced (scan d memberStart c) (scan d memberStart c') := by
  obtain ⟨ch, next, hashbang, goes⟩ := continued
  obtain ⟨rest, rfl⟩ : ∃ more, rest = ch :: more := by
    rw [text] at next
    exact List.head?_eq_some_iff.mp next
  have hashbang' : ¬ (c'.offset = 0 ∧ d.hashbang = some ch) := by rwa [at_.offset_eq, zero]
  have text' := at_.rest
  split at goes
  · next own opens =>
    obtain rfl := Bracket.ofOpening?_eq_some.mp (Option.filter_eq_some_iff.mp opens).1
    have bracket : own.opening ≠ '\n' := by cases own <;> decide
    rw [text, Text.withReturns_cons feed, Text.withReturns_cons bracket] at text'
    rw [scan_cons text, scan_cons text', if_neg hashbang, if_neg hashbang', opens]
    exact scanBlock_of_continues deep text feed goes at_
  · next closed =>
    obtain ⟨quoted, continued⟩ := goes
    obtain ⟨⟨length, opens⟩, -⟩ := id continued
    have quote : isQuote ch = true := by
      cases quote : isQuote ch with
      | true => rfl
      | false =>
        rw [text, List.drop_succ_cons, List.drop_zero, Literal.extent?_eq_none.mpr quote] at opens
        cases opens
    have other : ch ≠ '\n' := by
      rintro rfl
      cases quote
    rw [text, Text.withReturns_cons feed, Text.withReturns_cons other] at text'
    rw [scan_cons text, scan_cons text', if_neg hashbang, if_neg hashbang', closed]
    simp only [if_pos (And.intro quoted quote)]
    exact scanQuoted_of_continued text feed continued at_

end Note

end Gloss

import Gloss.Proofs.BareWords
import Gloss.Proofs.Inertness

/-!
# Class bodies and their private names

After a class head the reader waits for a brace with as many brackets open as at
the head. It remembers one head at a time, so a further head between the head and
its brace takes the place of the first. `Reading.HeadsBody.opened_iff` says what
that comes to: the brace opens a class body exactly when the last class head
before it stands outside all brackets of the heading.

Directly in a class body an introducer in front of a letter is a private name
where a member may start (`Piece.readAfter_of_member`). The removal of annotations
keeps it as it keeps every host token (`Reading.ofSource_spares`).
-/

namespace Gloss

open Host

/-! ## Headings -/

namespace Token

/-- Brackets are closed again, from a number of open ones down to none, and outside of them there
is neither a brace nor a semicolon. -/
def isHeading : Nat → List Token → Bool
  | height, [] => height == 0
  | height, t :: ts =>
    (0 < height || !(t.isPunct "\x7b" || t.isPunct ";")) &&
      (turn height t).any fun height => isHeading height ts

/-- No token heads a class. The tokens before them are given too. -/
def noHead (source : List Char) (before : List Token) : List Token → Bool
  | [] => true
  | t :: ts => !headsClass source before t && noHead source (before ++ [t]) ts

/-- The last class head of some tokens stands outside of their brackets. -/
def LastHeadBare (source : List Char) (before ts : List Token) : Prop :=
  ∃ xs h ys, ts = xs ++ h :: ys ∧ headsClass source (before ++ xs) h = true ∧
    noHead source (before ++ xs ++ [h]) ys = true ∧ height? 0 xs = some 0

/-- Brackets are closed again, from a number of open ones down to none, and every token outside of
them is of the given sort. -/
def isClosed (bare : Token → Bool) : Nat → List Token → Bool
  | height, [] => height == 0
  | height, t :: ts =>
    (0 < height || bare t) && (turn height t).any fun height => isClosed bare height ts

theorem isHeading_eq_isClosed (height : Nat) (ts : List Token) :
    isHeading height ts = isClosed (fun t => !(t.isPunct "\x7b" || t.isPunct ";")) height ts := by
  induction ts generalizing height with
  | nil => rfl
  | cons t ts ih =>
    rw [isHeading, isClosed]
    simp only [ih]

section Closed

variable {bare : Token → Bool} {height : Nat} {t : Token} {ts xs ys : List Token}

theorem isClosed_cons : isClosed bare height (t :: ts) = true ↔
    (0 < height ∨ bare t = true) ∧
      ∃ height', turn height t = some height' ∧ isClosed bare height' ts = true := by
  rw [isClosed, Bool.and_eq_true, Bool.or_eq_true, decide_eq_true_eq, Option.any_eq_true]

theorem height?_of_isClosed (closed : isClosed bare height ts = true) :
    height? height ts = some 0 := by
  induction ts generalizing height with
  | nil => exact congrArg some (beq_iff_eq.mp closed)
  | cons t ts ih =>
    obtain ⟨-, height', turned, later⟩ := isClosed_cons.mp closed
    rw [height?_cons, turned]
    exact ih later

/-- Tokens with closed brackets may be cut anywhere. -/
theorem exists_height_of_isClosed (closed : isClosed bare height (xs ++ ys) = true) :
    ∃ height', height? height xs = some height' ∧ isClosed bare height' ys = true := by
  induction xs generalizing height with
  | nil => exact ⟨height, rfl, closed⟩
  | cons t xs ih =>
    obtain ⟨-, height', turned, later⟩ := isClosed_cons.mp closed
    obtain ⟨height'', here, rest⟩ := ih later
    refine ⟨height'', ?_, rest⟩
    rw [height?_cons, turned]
    exact here

end Closed

theorem height?_of_isHeading {height : Nat} {ts : List Token}
    (heading : isHeading height ts = true) :
    height? height ts = some 0 :=
  height?_of_isClosed (isHeading_eq_isClosed height ts ▸ heading)

/-- A heading may be cut anywhere. -/
theorem exists_height_of_isHeading {height : Nat} {xs ys : List Token}
    (heading : isHeading height (xs ++ ys) = true) :
    ∃ height', height? height xs = some height' ∧ isHeading height' ys = true := by
  rw [isHeading_eq_isClosed] at heading
  obtain ⟨height', here, rest⟩ := exists_height_of_isClosed heading
  exact ⟨height', here, isHeading_eq_isClosed height' ys ▸ rest⟩

/-- A class head is a word. -/
theorem isPunct_of_headsClass {source : List Char} {before : List Token} {t : Token}
    (head : headsClass source before t = true) (text : String) : t.isPunct text = false := by
  simp only [headsClass, Bool.and_eq_true, beq_iff_eq] at head
  exact isPunct_eq_false (by simp [head.1.1.1]) text

/-- Either there is no class head, or there is a last one. -/
theorem noHead_or_exists (source : List Char) (before ts : List Token) :
    noHead source before ts = true ∨
      ∃ xs h ys, ts = xs ++ h :: ys ∧ headsClass source (before ++ xs) h = true ∧
        noHead source (before ++ xs ++ [h]) ys = true := by
  induction ts generalizing before with
  | nil => exact .inl rfl
  | cons t ts ih =>
    rcases ih (before ++ [t]) with none | ⟨xs, h, ys, rfl, head, last⟩
    · cases head : headsClass source before t with
      | false => exact .inl (by rw [noHead, head, none]; rfl)
      | true => exact .inr ⟨[], t, ts, rfl, by rwa [List.append_nil], by rwa [List.append_nil]⟩
    · refine .inr ⟨t :: xs, h, ys, rfl, ?_, ?_⟩
      · rwa [List.append_assoc] at head
      · rwa [List.append_assoc before] at last

end Token

/-! ## The class head that waits -/

section Moves

variable {ctx : Context} {t : Token} {opened : Option Scope} {scopes : List Scope}
  {awaiting : Option Nat} {inner base : List Scope}

/-- A class head outside the brackets of a heading goes on waiting, because every bracket that is
opened is closed before a brace can come at its depth. -/
theorem Context.Moves.keeps (moves : ctx.Moves t false opened scopes awaiting)
    (shape : ctx.scopes = inner ++ base) (waits : ctx.awaiting = some base.length)
    (bare : 0 < inner.length ∨ t.isPunct "\x7b" = false ∧ t.isPunct ";" = false)
    (turned : Token.turn inner.length t ≠ none) : awaiting = some base.length := by
  have other (deeper : 0 < inner.length) :
      ctx.awaiting.filter (· ≠ ctx.scopes.length) = some base.length := by
    rw [filter_ne_eq_ite, waits, shape, List.length_append, if_neg]
    intro same
    have := Option.some.inj same
    omega
  cases moves with
  | opening => exact waits
  | brace brace =>
    rcases bare with deeper | ⟨none, -⟩
    · exact other deeper
    · rw [brace] at none
      cases none
  | closing closes =>
    rw [Token.turn_of_closes closes] at turned
    cases inner with
    | nil => exact absurd rfl turned
    | cons scope inner =>
      rw [waits, shape]
      simp [Option.filter]
  | semicolon semicolon =>
    rcases bare with deeper | ⟨-, none⟩
    · exact other deeper
    · rw [semicolon] at none
      cases none
  | other => exact waits

/-- A class head waits for its body at the depth where it stands. -/
theorem Context.Moves.of_head (moves : ctx.Moves t true opened scopes awaiting) :
    (∀ text, t.isPunct text = false) ∧ scopes = ctx.scopes ∧
      awaiting = some ctx.scopes.length := by
  cases moves with
  | head word => exact ⟨word, rfl, rfl⟩

/-- A brace opens what the waiting class head says. -/
theorem Context.Moves.of_brace {heads : Bool} (moves : ctx.Moves t heads opened scopes awaiting)
    (brace : t.isPunct "\x7b" = true) :
    opened = some ctx.braceScope ∧ scopes = ctx.braceScope :: ctx.scopes := by
  cases moves with
  | head word => exact absurd brace (by rw [word]; decide)
  | opening _ other => exact absurd brace (by rw [other]; decide)
  | brace => exact ⟨rfl, rfl⟩
  | closing closes =>
    have := Token.opensBracket_of_closes closes
    simp [Token.opensBracket, brace] at this
  | semicolon semicolon =>
    rw [Token.isPunct_eq_beq semicolon] at brace
    exact absurd brace (by decide)
  | other opens => simp [Token.opensBracket, brace] at opens

/-- Without a further class head none waits that did not wait before. -/
theorem Context.Moves.waits_of_waits (moves : ctx.Moves t false opened scopes awaiting)
    {depth : Nat} (waits : awaiting = some depth) : ctx.awaiting = some depth := by
  cases moves with
  | opening | other => exact waits
  | brace | closing | semicolon => exact (Option.filter_eq_some_iff.mp waits).1

end Moves

/-! ## Runs over a heading -/

namespace Reading

section Run

variable {d : Dialect} {ctx ctx' : Context} {c c' : Cursor} {ps : List Piece}
  {source : List Char} {before : List Token} {inner base : List Scope}

theorem Run.keeps (run : Run d ctx c ps ctx' c') (valid : d.Valid)
    (knows : ctx.Knows c source before) (shape : ctx.scopes = inner ++ base)
    (waits : ctx.awaiting = some base.length)
    (none : Token.noHead source before (ps.map (·.token)) = true)
    (heading : Token.isHeading inner.length (ps.map (·.token)) = true) :
    ctx'.awaiting = some base.length := by
  induction run generalizing before inner with
  | done => exact waits
  | step text trivia starts run ih =>
    rw [List.map_cons, Token.noHead, Bool.and_eq_true, Bool.not_eq_true'] at none
    rw [List.map_cons, Token.isHeading, Bool.and_eq_true] at heading
    obtain ⟨bare, onward⟩ := heading
    obtain ⟨height, turned, later⟩ := (Option.any_eq_true _ _).mp onward
    have moves := Piece.moves_readAfter valid knows text
    obtain ⟨inner', shape', rfl⟩ := moves.turn shape turned
    rw [none.1] at moves
    refine ih (knows.readAfter ..) shape' (moves.keeps shape waits ?_ ?_) none.2 later
    · simpa using bare
    · rw [turned]
      exact Option.some_ne_none _

theorem Run.waits_of_waits {depth : Nat} (run : Run d ctx c ps ctx' c') (valid : d.Valid)
    (knows : ctx.Knows c source before)
    (none : Token.noHead source before (ps.map (·.token)) = true)
    (waits : ctx'.awaiting = some depth) : ctx.awaiting = some depth := by
  induction run generalizing before with
  | done => exact waits
  | step text trivia starts run ih =>
    rw [List.map_cons, Token.noHead, Bool.and_eq_true, Bool.not_eq_true'] at none
    have moves := Piece.moves_readAfter valid knows text
    rw [none.1] at moves
    exact moves.waits_of_waits (ih (knows.readAfter ..) none.2 waits)

/-- After a heading whose last class head is known, a head waits outside of the brackets exactly
when that one stands there. -/
theorem Run.awaiting_iff {xs ys : List Token} {h : Token} {height : Nat}
    (run : Run d ctx c ps ctx' c') (valid : d.Valid) (knows : ctx.Knows c source before)
    (heading : Token.isHeading 0 (ps.map (·.token)) = true)
    (split : ps.map (·.token) = xs ++ h :: ys)
    (head : Token.headsClass source (before ++ xs) h = true)
    (none : Token.noHead source (before ++ xs ++ [h]) ys = true)
    (stands : Token.height? 0 xs = some height) :
    ctx'.awaiting = some ctx.scopes.length ↔ height = 0 := by
  rw [split] at heading
  obtain ⟨ps, qs, rfl, rfl, split'⟩ := List.map_eq_append_iff.mp split
  obtain ⟨p, qs, rfl, rfl, rfl⟩ := List.map_eq_cons_iff.mp split'
  obtain ⟨ctx₁, c₁, first, rest⟩ := run.split
  obtain ⟨inner, shape, length⟩ := first.scopes valid knows (List.nil_append ctx.scopes).symm stands
  cases rest with
  | step text trivia starts last =>
  have knows₁ := first.knows knows
  have moves := Piece.moves_readAfter valid knows₁ text
  rw [head] at moves
  obtain ⟨word, scopes, waits⟩ := moves.of_head
  constructor
  · intro waits'
    have later := last.waits_of_waits valid (knows₁.readAfter ..) none waits'
    rw [waits, shape, List.length_append, length] at later
    have := Option.some.inj later
    omega
  · rintro rfl
    obtain rfl := List.eq_nil_of_length_eq_zero length
    rw [List.nil_append] at shape
    obtain ⟨height, stands', heading'⟩ := Token.exists_height_of_isHeading heading
    obtain rfl := Option.some.inj (stands.symm.trans stands')
    rw [Token.isHeading, Bool.and_eq_true, Token.turn_of_word word] at heading'
    exact last.keeps valid (knows₁.readAfter ..) (scopes.trans shape : _ = [] ++ ctx.scopes)
      (waits.trans (by rw [shape])) none heading'.2

end Run

/-- The tokens of a file from a class head to a brace after it: the brackets between them are
closed again, with neither a brace nor a semicolon outside of them. -/
structure HeadsBody (d : Dialect) (source : String) (before : List Piece) (cls : Piece)
    (heading : List Piece) (brace : Piece) (after : List Piece) : Prop where
  text : piecesOf d source = before ++ cls :: (heading ++ brace :: after)
  head : Token.headsClass source.toList (before.map (·.token)) cls.token = true
  heading : Token.isHeading 0 (heading.map (·.token)) = true
  brace : brace.token.isPunct "\x7b" = true

namespace HeadsBody

variable {d : Dialect} {source : String} {before heading after : List Piece} {cls brace : Piece}

variable (body : HeadsBody d source before cls heading brace after) (valid : d.Valid)

include body

/-- With the class head before it the heading is a heading. -/
theorem isHeading_cons : Token.isHeading 0 ((cls :: heading).map (·.token)) = true := by
  have word := Token.isPunct_of_headsClass body.head
  rw [List.map_cons, Token.isHeading, word, word, Token.turn_of_word word]
  exact body.heading

include valid

/-- The states of the reader at the class head and at the brace. -/
theorem exists_state :
    ∃ ctx c ctx' c', Run d .initial (.start source.toList) before ctx c ∧
      Run d ctx c (cls :: heading) ctx' c' ∧ pieces d ctx' c' = brace :: after ∧
      ctx'.scopes = ctx.scopes := by
  have cut : before ++ cls :: (heading ++ brace :: after) =
      before ++ ((cls :: heading) ++ brace :: after) := rfl
  obtain ⟨ctx, c, first, rest⟩ := exists_run (body.text.trans cut)
  obtain ⟨ctx', c', second, rest'⟩ := exists_run rest
  have knows := first.knows (Context.knows_start source.toList)
  obtain ⟨inner, shape, none⟩ := second.scopes valid knows (List.nil_append ctx.scopes).symm
    (Token.height?_of_isHeading body.isHeading_cons)
  obtain rfl := List.eq_nil_of_length_eq_zero none
  exact ⟨ctx, c, ctx', c', first, second, rest', shape⟩

/-- The brace opens a class body exactly when the last class head before it stands outside the
brackets of the heading. -/
theorem opened_iff :
    brace.opened = some .classBody ↔
      Token.LastHeadBare source.toList (before.map (·.token))
        ((cls :: heading).map (·.token)) := by
  obtain ⟨ctx, c, ctx', c', first, second, rest, scopes⟩ := body.exists_state valid
  have knows := first.knows (Context.knows_start source.toList)
  have waits : brace.opened = some .classBody ↔ ctx'.awaiting = some ctx.scopes.length := by
    obtain ⟨gap, ch, text, here, -, -, rfl, -⟩ := exists_readAfter rest
    have moves := Piece.moves_readAfter valid (second.knows knows) here
    rw [(moves.of_brace body.brace).1, Context.braceScope, scopes, Option.some.injEq]
    split
    · next awaits => exact iff_of_true rfl awaits
    · next awaits => exact iff_of_false (by decide) awaits
  rw [waits]
  constructor
  · intro awaits
    rcases Token.noHead_or_exists source.toList (before.map (·.token))
      ((cls :: heading).map (·.token)) with none | ⟨xs, h, ys, split, head, none⟩
    · rw [List.map_cons, Token.noHead, body.head] at none
      cases none
    · have heading' := body.isHeading_cons
      rw [split] at heading'
      obtain ⟨height, stands, -⟩ := Token.exists_height_of_isHeading heading'
      have bare := (second.awaiting_iff valid knows body.isHeading_cons split head none stands).mp
        awaits
      exact ⟨xs, h, ys, split, head, none, bare ▸ stands⟩
  · rintro ⟨xs, h, ys, split, head, none, bare⟩
    exact (second.awaiting_iff valid knows body.isHeading_cons split head none bare).mpr rfl

end HeadsBody

end Reading

/-! ## What the removal keeps -/

namespace Reading

variable {d : Dialect} {ctx ctx' : Context} {c c' : Cursor} {ps : List Piece} {source : String}

/-- The annotations of a reading spare a token: none of them overlaps it, and where all of them are
removed the token comes right after what the text before it leaves. `before` are the pieces before
the token. -/
structure Spares (r : Reading) (source : String) (before : List Piece) (t : Token) : Prop where
  alone : ∀ a ∈ r.notes, a.span.overlaps t.span = false
  kept : ∃ past rest left right, source.toList = past ++ t.text.toList ++ rest ∧
    Text.width past = t.span.start ∧
    Removal.removeFrom 0 none (past ++ t.text.toList)
      ((before.filterMap (·.note?)).map (·.span)) = some (left ++ t.text.toList) ∧
    Removal.ofNotes? source r.notes = some (String.ofList (left ++ t.text.toList ++ right))

/-- The annotations of a run lie before the cursor to which it comes. -/
theorem Run.stop_le (run : Run d ctx c ps ctx' c') :
    ∀ s ∈ (ps.filterMap (·.note?)).map (·.span), s.start ≤ s.stop ∧ s.stop ≤ c'.offset := by
  induction run with
  | done => simp
  | step text trivia starts run ih =>
    intro s held
    have onward := run.offset_le
    rw [Piece.readAfter] at held onward
    rcases Piece.read_cases d _ _ _ _ _ with ⟨a, length, step, span, -⟩ | ⟨host, -⟩
    · rw [step] at held onward
      rcases List.mem_cons.mp held with rfl | held
      · show a.span.start ≤ a.span.stop ∧ a.span.stop ≤ _
        rw [span]
        exact ⟨Cursor.offset_le_advance _ _, onward⟩
      · exact ih s held
    · rw [List.filterMap_cons, host] at held
      exact ih s held

/-- A host token is a part of the text between the annotations before it and those after it. -/
theorem exists_around {before after : List Piece} {p : Piece}
    (text : piecesOf d source = before ++ p :: after) (host : p.note? = none) :
    ∃ past rest, source.toList = past ++ (p.token.text.toList ++ rest) ∧
      p.token.text.toList ≠ [] ∧ Text.width past = p.token.span.start ∧
      Text.width (past ++ p.token.text.toList) = p.token.span.stop ∧
      (∀ s ∈ (before.filterMap (·.note?)).map (·.span),
        s.start ≤ s.stop ∧ s.stop ≤ p.token.span.start) ∧
      ∀ s ∈ (after.filterMap (·.note?)).map (·.span), p.token.span.stop ≤ s.start := by
  obtain ⟨ctx, c, run, rest⟩ := exists_run text
  obtain ⟨gap, ch, cs, here, trivia, starts, rfl, rfl⟩ := exists_readAfter rest
  obtain ⟨past, whole, offset⟩ := (run.knows (Context.knows_start source.toList)).text
  obtain ⟨w, tail, rfl, length⟩ := Piece.exists_append_of_host host
  obtain ⟨kind, covers⟩ := Piece.exists_token_read d ctx (c.advance gap.length) (gap.count '\n') ch
    (w ++ tail)
  have rest₁ := Cursor.rest_advance_append here
  have token := Piece.text_read rest₁ host length
  have onward := c.offset_le_advance gap.length
  have stands : (c.advance gap.length).offset = Text.width (past ++ gap) := by
    rw [Cursor.advance_offset, here, List.take_left, Text.width_append, offset]
  have ends : ((c.advance gap.length).advance (w.length + 1)).offset =
      Text.width (past ++ gap ++ ch :: w) := by
    rw [Cursor.advance_offset, rest₁, stands, List.take_succ_cons, List.take_left,
      Text.width_append (past ++ gap)]
  have span : (Piece.readAfter d ctx c gap ch (w ++ tail)).1.token.span =
      ⟨Text.width (past ++ gap), Text.width (past ++ gap ++ ch :: w)⟩ := by
    rw [Piece.readAfter, covers, length, ← stands, ← ends]
    rfl
  rw [span]
  rw [← Piece.readAfter] at token length
  rw [token, String.toList_ofList, length]
  refine ⟨past ++ gap, tail, ?_, List.cons_ne_nil _ _, rfl, rfl, fun s held => ?_, ?_⟩
  · rw [whole, here, List.append_assoc]
    rfl
  · obtain ⟨order, stop⟩ := run.stop_le s held
    exact ⟨order, stands ▸ Nat.le_trans stop onward⟩
  · rw [← ends]
    exact le_start_of_mem_spans d _ _

/-- The annotations of a reading spare every host token. -/
theorem ofSource_spares {before after : List Piece} {p : Piece}
    (text : piecesOf d source = before ++ p :: after) (host : p.note? = none) :
    (ofSource d source).Spares source before p.token := by
  obtain ⟨past, rest, split, nonempty, start, stop, early, late⟩ := exists_around text host
  have notes : (ofSource d source).notes.map (·.span) =
      (before.filterMap (·.note?)).map (·.span) ++ (after.filterMap (·.note?)).map (·.span) := by
    rw [ofSource, text, ofPieces, List.filterMap_append, List.filterMap_cons, host, List.map_append]
  refine ⟨fun a held => ?_, ?_⟩
  · have side := List.mem_append.mp (notes ▸ List.mem_map_of_mem held)
    rw [Span.overlaps, Bool.and_eq_false_iff, decide_eq_false_iff_not, decide_eq_false_iff_not]
    rcases side with held | held
    · exact .inr (Nat.not_lt.mpr (early _ held).2)
    · exact .inl (Nat.not_lt.mpr (late _ held))
  · obtain ⟨whole, removed, -⟩ := Removal.removeFrom_spans d .initial (.start source.toList) none
    have removed' : Removal.removeFrom 0 none (past ++ (p.token.text.toList ++ rest))
        ((before.filterMap (·.note?)).map (·.span) ++ (after.filterMap (·.note?)).map (·.span)) =
        some whole := by
      rw [← split, ← notes]
      exact removed
    rw [← Nat.zero_add (Text.width _)] at start stop
    obtain ⟨left, right, kept, rfl⟩ := Removal.removeFrom_around nonempty (start ▸ early)
      (stop ▸ late) removed'
    refine ⟨past, rest, left, right, by rw [split, List.append_assoc], ?_, kept, ?_⟩
    · rwa [Nat.zero_add] at start
    · rw [ofNotes?_ofSource, notes, split, removed']
      rfl

end Reading

/-! ## Private names -/

/-- Where a member of a class body surely starts: on a new line, or with a brace or a semicolon as
the last host token before it. -/
def Token.startsMember (before : List Token) (t : Token) : Bool :=
  0 < t.newlinesBefore || (lastNotes before).any (0 < ·.newlinesBefore) ||
    (lastHost before).any fun h => h.isPunct "\x7b" || h.isPunct ";"

section PrivateName

variable {d : Dialect} {ctx : Context} {c : Cursor} {gap rest more : List Char} {ch letter : Char}
  {source : List Char} {before : List Token}

/-- The reader expects a member where one surely starts. -/
theorem Context.Knows.atMemberStart {t : Token} (knows : ctx.Knows c source before)
    (body : ctx.scopes.head? = some .classBody) (member : Token.startsMember before t = true) :
    (ctx.afterGap t.newlinesBefore).atMemberStart = true := by
  rw [Context.atMemberStart, Context.afterGap, body, Bool.and_eq_true, Bool.or_eq_true]
  refine ⟨rfl, ?_⟩
  rw [Token.startsMember, Bool.or_eq_true, Bool.or_eq_true, decide_eq_true_eq, List.any_eq_true,
    Option.any_eq_true] at member
  rw [decide_eq_true_eq, knows.newlines, knows.last]
  rcases member with (line | ⟨note, held, line⟩) | ⟨h, last, opens⟩
  · exact .inl (Nat.add_pos_right _ line)
  · have feeds := List.sum_pos_iff_exists_pos_nat.mpr
      ⟨_, List.mem_map_of_mem held, of_decide_eq_true line⟩
    exact .inl (Nat.add_pos_left feeds _)
  · rw [last]
    simp only [Token.isPunct, Bool.or_eq_true, Bool.and_eq_true] at opens
    rcases opens with opens | opens <;> exact .inr (by simp [opens.2])

/-- An introducer and a letter are a private name where a member surely starts. -/
theorem Piece.readAfter_of_member (none : d.disambiguator = none)
    (knows : ctx.Knows c source before) (body : ctx.scopes.head? = some .classBody)
    (inside : c.offset ≠ 0) (text : c.rest = gap ++ ch :: rest)
    (member : Token.startsMember before (readAfter d ctx c gap ch rest).1.token = true)
    (name : Text.after source (readAfter d ctx c gap ch rest).1.token.span.start =
      d.introducer :: letter :: more) (word : isIdentifierStart letter = true) :
    (readAfter d ctx c gap ch rest).1.token.kind = .privateName ∧
      (readAfter d ctx c gap ch rest).1.note? = .none := by
  have here := Cursor.rest_advance_append text
  obtain ⟨kind, token⟩ := exists_token_read d ctx (c.advance gap.length) (gap.count '\n') ch rest
  rw [readAfter] at member name ⊢
  rw [token] at member name
  have split : ch :: rest = d.introducer :: letter :: more := by
    rw [← name, ← here]
    exact (knows.after_advance gap.length).symm
  obtain ⟨rfl, rfl⟩ := List.cons.inj split
  have onward := c.offset_le_advance gap.length
  have expects : (ctx.afterGap (gap.count '\n')).atMemberStart = true :=
    knows.atMemberStart body member
  have plain := Note.scan_eq_plain (by omega) here word (by rw [none]; simp)
  rw [← expects] at plain
  have shape : Token.introducerShape (letter :: more) =
      (.privateName, 1 + identifierRun (letter :: more)) := if_pos word
  rw [read_plain rfl plain (by simp), shape]
  exact ⟨rfl, rfl⟩

end PrivateName

namespace Reading.HeadsBody

variable {d : Dialect} {source : String} {before heading after : List Piece} {cls brace : Piece}

/-- The state of the reader in front of a piece that stands directly in a class body. -/
theorem exists_state_inside (body : HeadsBody d source before cls heading brace after)
    (valid : d.Valid) (opened : brace.opened = some .classBody) {inside rest : List Piece}
    {field : Piece} (split : after = inside ++ field :: rest)
    (closed : Token.height? 0 (inside.map (·.token)) = some 0) :
    ∃ ctx c, ctx.Knows c source.toList
        ((before ++ cls :: (heading ++ brace :: inside)).map (·.token)) ∧
      ctx.scopes.head? = some .classBody ∧ c.offset ≠ 0 ∧ pieces d ctx c = field :: rest := by
  obtain ⟨ctx, c, ctx₁, c₁, first, second, more, -⟩ := body.exists_state valid
  have knows₁ := second.knows (first.knows (Context.knows_start source.toList))
  obtain ⟨gap, ch, cs, text, -, -, rfl, rfl⟩ := exists_readAfter more
  have knows₂ := knows₁.readAfter d gap ch cs
  have moves := Piece.moves_readAfter valid knows₁ text
  obtain ⟨scope, scopes⟩ := moves.of_brace body.brace
  rw [opened] at scope
  obtain ⟨ctx₃, c₃, third, last⟩ := exists_run split
  obtain ⟨inner, shape, none⟩ := third.scopes valid knows₂ (List.nil_append _).symm closed
  obtain rfl := List.eq_nil_of_length_eq_zero none
  refine ⟨ctx₃, c₃, ?_, ?_, ?_, last⟩
  · have knows₃ := third.knows knows₂
    simpa using knows₃
  · rw [shape, scopes, ← Option.some.inj scope]
    rfl
  · have onward := third.offset_le
    have start := c₁.offset_le_advance gap.length
    have pos := Cursor.offset_lt_advance (Cursor.rest_advance_append text)
      (Piece.length_pos d ctx₁ (c₁.advance gap.length) (gap.count '\n') ch cs)
    rw [Piece.readAfter] at onward
    omega

/-- The brace after the heading of a class opens a class body exactly when the last class head
before it stands outside the brackets of the heading. Where a member surely starts directly in that
class body, an introducer in front of a letter is a private name and no annotation, and the removal
of annotations keeps it. -/
theorem opened_iff_and_privateName (body : HeadsBody d source before cls heading brace after)
    (valid : d.Valid) (plain : d.disambiguator = none) :
    (brace.opened = some .classBody ↔
      Token.LastHeadBare source.toList (before.map (·.token)) ((cls :: heading).map (·.token))) ∧
    (brace.opened = some .classBody →
      ∀ (inside rest : List Piece) (field : Piece) (letter : Char) (more : List Char),
      after = inside ++ field :: rest →
      Token.height? 0 (inside.map (·.token)) = some 0 →
      Token.startsMember ((before ++ cls :: (heading ++ brace :: inside)).map (·.token))
        field.token = true →
      Text.after source.toList field.token.span.start = d.introducer :: letter :: more →
      isIdentifierStart letter = true →
      field.token.kind = .privateName ∧ field.note? = none ∧
        ∀ r, ofSource? d source = some r →
          r.Spares source (before ++ cls :: (heading ++ brace :: inside)) field.token) := by
  refine ⟨body.opened_iff valid, ?_⟩
  intro opened inside rest field letter more split closed member name word
  obtain ⟨ctx, c, knows, scope, offset, here⟩ := body.exists_state_inside valid opened split closed
  obtain ⟨gap, ch, cs, text, -, -, rfl, -⟩ := exists_readAfter here
  obtain ⟨kind, host⟩ := Piece.readAfter_of_member plain knows scope offset text member name word
  refine ⟨kind, host, fun r read => ?_⟩
  have whole : piecesOf d source =
      (before ++ cls :: (heading ++ brace :: inside)) ++
        (Piece.readAfter d ctx c gap ch cs).1 :: rest := by
    rw [body.text, split]
    simp
  obtain rfl := eq_ofSource read
  exact ofSource_spares whole host

/-- The parenthesis of the heading is closed before the brace, and there is no other class head. -/
theorem opened_iff_and_privateName_call :
    ∃ before cls heading brace inside field rest letter more r,
      HeadsBody .hash "class A extends f() \x7b a; #p \x7d" before cls heading brace
        (inside ++ field :: rest) ∧
      brace.opened = some .classBody ∧
      Text.after "class A extends f() \x7b a; #p \x7d".toList field.token.span.start =
        '#' :: letter :: more ∧
      field.token.kind = .privateName ∧ field.note? = none ∧
      ofSource? .hash "class A extends f() \x7b a; #p \x7d" = some r ∧
      r.Spares "class A extends f() \x7b a; #p \x7d"
        (before ++ cls :: (heading ++ brace :: inside)) field.token := by
  have body : HeadsBody .hash "class A extends f() \x7b a; #p \x7d"
      []
      ⟨⟨.keyword, "class", ⟨0, 5⟩, 0⟩, 5, none, none⟩
      [⟨⟨.ident, "A", ⟨6, 7⟩, 0⟩, 1, none, none⟩,
        ⟨⟨.keyword, "extends", ⟨8, 15⟩, 0⟩, 7, none, none⟩,
        ⟨⟨.ident, "f", ⟨16, 17⟩, 0⟩, 1, none, none⟩,
        ⟨⟨.punct, "(", ⟨17, 18⟩, 0⟩, 1, none, some .paren⟩,
        ⟨⟨.punct, ")", ⟨18, 19⟩, 0⟩, 1, none, none⟩]
      ⟨⟨.punct, "\x7b", ⟨20, 21⟩, 0⟩, 1, none, some .classBody⟩
      ([⟨⟨.ident, "a", ⟨22, 23⟩, 0⟩, 1, none, none⟩,
        ⟨⟨.punct, ";", ⟨23, 24⟩, 0⟩, 1, none, none⟩] ++
        ⟨⟨.privateName, "#p", ⟨25, 27⟩, 0⟩, 2, some .plain, none⟩ ::
        [⟨⟨.punct, "\x7d", ⟨28, 29⟩, 0⟩, 1, none, none⟩]) :=
    ⟨by decide +kernel, by decide +kernel, by decide +kernel, by decide +kernel⟩
  have name : Text.after "class A extends f() \x7b a; #p \x7d".toList 25 =
      Dialect.hash.introducer :: 'p' :: [' ', '\x7d'] := by decide +kernel
  have read := ofSource?_eq_some (show Dialect.hash.hashbang ≠ some '\r' by decide)
    "class A extends f() \x7b a; #p \x7d"
  obtain ⟨kind, host, spares⟩ :=
    (opened_iff_and_privateName body Dialect.hash_valid rfl).2 rfl _ _ _ 'p' [' ', '\x7d'] rfl
      (by decide +kernel) (by decide +kernel) name (by decide +kernel)
  exact ⟨_, _, _, _, _, _, _, _, _, _, body, rfl, name, kind, host, read, spares _ read⟩

/-- The class head that waits for its body is forgotten at a class head in the brackets of its
heading: the brace opens a plain block, and the private name in it is removed as an annotation. -/
theorem opened_brace_of_nested_class :
    Dialect.hash.Valid ∧ Dialect.hash.disambiguator = none ∧
      ∃ before cls heading brace field rest r,
        HeadsBody .hash "class A extends f(class \x7b\x7d) \x7b #p \x7d" before cls heading brace
          (field :: rest) ∧
        Token.startsMember ((before ++ cls :: (heading ++ [brace])).map (·.token)) field.token =
          true ∧
        Text.after "class A extends f(class \x7b\x7d) \x7b #p \x7d".toList
          field.token.span.start = ['#', 'p', ' ', '\x7d'] ∧
        brace.opened = some .brace ∧ field.token.kind = .note 0 ∧
        ofSource? .hash "class A extends f(class \x7b\x7d) \x7b #p \x7d" = some r ∧
        Removal.ofNotes? "class A extends f(class \x7b\x7d) \x7b #p \x7d" r.notes =
          some "class A extends f(class \x7b\x7d) \x7b  \x7d" := by
  have body : HeadsBody .hash "class A extends f(class \x7b\x7d) \x7b #p \x7d"
      []
      ⟨⟨.keyword, "class", ⟨0, 5⟩, 0⟩, 5, none, none⟩
      [⟨⟨.ident, "A", ⟨6, 7⟩, 0⟩, 1, none, none⟩,
        ⟨⟨.keyword, "extends", ⟨8, 15⟩, 0⟩, 7, none, none⟩,
        ⟨⟨.ident, "f", ⟨16, 17⟩, 0⟩, 1, none, none⟩,
        ⟨⟨.punct, "(", ⟨17, 18⟩, 0⟩, 1, none, some .paren⟩,
        ⟨⟨.keyword, "class", ⟨18, 23⟩, 0⟩, 5, none, none⟩,
        ⟨⟨.punct, "\x7b", ⟨24, 25⟩, 0⟩, 1, none, some .classBody⟩,
        ⟨⟨.punct, "\x7d", ⟨25, 26⟩, 0⟩, 1, none, none⟩,
        ⟨⟨.punct, ")", ⟨26, 27⟩, 0⟩, 1, none, none⟩]
      ⟨⟨.punct, "\x7b", ⟨28, 29⟩, 0⟩, 1, none, some .brace⟩
      (⟨⟨.note 0, "#p", ⟨30, 32⟩, 0⟩, 2,
          some (.found ⟨⟨30, 32⟩, .word, "p", ⟨31, 32⟩, none⟩ 2), none⟩ ::
        [⟨⟨.punct, "\x7d", ⟨33, 34⟩, 0⟩, 1, none, none⟩]) :=
    ⟨by decide +kernel, by decide +kernel, by decide +kernel, by decide +kernel⟩
  exact ⟨Dialect.hash_valid, rfl, _, _, _, _, _, _, _, body, by decide +kernel, by decide +kernel,
    rfl, rfl, ofSource?_eq_some (by decide) _, by decide +kernel⟩

end Reading.HeadsBody

end Gloss

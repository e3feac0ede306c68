import Gloss.Proofs.Spelling

/-!
# The first flaw of a block

A block that cannot be read is reported for the first of its items that offends (`Block.FirstFlaw`),
or as a whole when all items pass and its bracket never closes (`Block.StaysOpen`). Both are said of
the grammar of items alone: the brackets that are open after some items are those that were opened
and not closed again. The limit of the depth matters only where it is what an item offends
(`Note.scan_firstFlaw`).
-/

namespace Gloss.Block

open Host

/-! ## Offending items -/

/-- The brackets that are open after an item, innermost first. -/
def openAfterItem (stack : List Bracket) : Item → List Bracket
  | .opening b => b :: stack
  | .closing _ => stack.tail
  | _ => stack

/-- The brackets that are open after the given items. -/
def openAfter (stack : List Bracket) (items : List Item) : List Bracket :=
  items.foldl openAfterItem stack

/-- An item that offends nothing and does not close the block, whose own bracket is the first level:
an opening bracket is no deeper than the limit, a closing one closes the innermost that is open. -/
structure Passes (limit : Nat) (stack : List Bracket) (item : Item) : Prop where
  opening : ∀ b, item = .opening b → stack.length + 2 ≤ limit
  closing : ∀ b, item = .closing b → stack.head? = some b

/-- Each of the items passes after those before it. -/
def AllPass (limit : Nat) (stack : List Bracket) (items : List Item) : Prop :=
  ∀ passed item later, items = passed ++ item :: later →
    Passes limit (openAfter stack passed) item

/-- The next item is a flaw, where the given brackets are open inside the block. -/
inductive Offends (limit : Nat) (own : Bracket) (before : List Char) (stack : List Bracket)
    (cs : List Char) : Flaw → Prop
  | literal : Literal.extent? cs = some .unclosed →
    Offends limit own before stack cs .unclosedString
  | comment : Literal.extent? cs = none → Comment.block? cs = some .unclosed →
    Offends limit own before stack cs .unclosedComment
  | tooDeep {b : Bracket} : Reads Ordinary before cs (.opening b) → limit < stack.length + 2 →
    Offends limit own before stack cs (.tooDeep limit)
  | mismatch {b : Bracket} : Reads Ordinary before cs (.closing b) → stack.head?.getD own ≠ b →
    Offends limit own before stack cs (.mismatch (stack.head?.getD own).closing b.closing)

/-- The first item that offends, after the given part of the body. -/
def FirstFlaw (limit : Nat) (own : Bracket) (body passed : List Char) (flaw : Flaw) : Prop :=
  ∃ items cs, Cut Ordinary [] body items passed cs ∧ AllPass limit [] items ∧
    Offends limit own passed (openAfter [] items) cs flaw

/-- All items of the body pass, up to the end of the text. -/
def StaysOpen (limit : Nat) (body : List Char) : Prop :=
  ∃ items, Cut Ordinary [] body items body [] ∧ AllPass limit [] items

/-! ## The reader and its stack -/

variable {limit : Nat} {own : Bracket} {stack stack' : List Bracket} {item : Item}
  {items : List Item}

theorem allPass_cons :
    AllPass limit stack (item :: items) ↔
      Passes limit stack item ∧ AllPass limit (openAfterItem stack item) items := by
  constructor
  · intro pass
    refine ⟨pass [] item items rfl, fun passed item' later same => ?_⟩
    exact pass (item :: passed) item' later (by rw [same, List.cons_append])
  · rintro ⟨first, more⟩ passed item' later same
    cases passed with
    | nil =>
      obtain ⟨rfl, rfl⟩ := List.cons.inj same
      exact first
    | cons i passed =>
      obtain ⟨rfl, rfl⟩ := List.cons.inj same
      exact more passed item' later rfl

/-- Reading goes on after the items that pass. -/
theorem judge_eq_go_iff (closed : item ≠ .unclosedLiteral ∧ item ≠ .unclosedComment) :
    judge limit own stack item = .go stack' ↔
      Passes limit stack item ∧ stack' = openAfterItem stack item := by
  cases item with
  | opening b =>
    rw [judge_opening]
    refine and_congr_left fun _ => ⟨fun room => ⟨fun _ _ => room, fun _ same => ?_⟩, fun pass => ?_⟩
    · cases same
    · exact pass.opening b rfl
  | closing b =>
    rw [judge_closing]
    constructor
    · rintro rfl
      refine ⟨⟨fun _ same => ?_, fun _ same => ?_⟩, rfl⟩
      · cases same
      · obtain rfl := Item.closing.inj same
        rfl
    · rintro ⟨pass, rfl⟩
      obtain ⟨outer, rfl⟩ := List.head?_eq_some_iff.mp (pass.closing b rfl)
      rfl
  | unclosedLiteral => exact absurd rfl closed.1
  | unclosedComment => exact absurd rfl closed.2
  | literal | comment | arrow | other =>
    constructor
    · intro go
      exact ⟨⟨by simp, by simp⟩, (Verdict.go.inj go).symm⟩
    · rintro ⟨-, rfl⟩
      rfl

theorem steps_iff (closed : ∀ item ∈ items, item ≠ .unclosedLiteral ∧ item ≠ .unclosedComment) :
    Steps limit own stack items stack' ↔
      AllPass limit stack items ∧ stack' = openAfter stack items := by
  induction items generalizing stack with
  | nil =>
    constructor
    · rintro ⟨⟩
      exact ⟨fun passed item later same => by simp at same, rfl⟩
    · rintro ⟨-, rfl⟩
      exact .nil
  | cons item items ih =>
    have first := closed item (List.mem_cons_self ..)
    have more : Steps limit own (openAfterItem stack item) items stack' ↔
        AllPass limit (openAfterItem stack item) items ∧
          stack' = openAfter (openAfterItem stack item) items :=
      ih fun item' held => closed item' (List.mem_cons_of_mem _ held)
    rw [allPass_cons, and_assoc]
    constructor
    · rintro (- | ⟨go, steps⟩)
      obtain ⟨pass, rfl⟩ := (judge_eq_go_iff first).mp go
      exact ⟨pass, more.mp steps⟩
    · rintro ⟨pass, later⟩
      exact .cons ((judge_eq_go_iff first).mpr ⟨pass, rfl⟩) (more.mpr later)

/-- What the reader finds unclosed is a literal, or a comment where no literal starts. -/
theorem unclosed_of_item? {prev : Option Char} {cs : List Char}
    (found : item? prev cs = some item) :
    (item = .unclosedLiteral → Literal.extent? cs = some .unclosed) ∧
      (item = .unclosedComment →
        Literal.extent? cs = none ∧ Comment.block? cs = some .unclosed) := by
  cases cs with
  | nil => cases found
  | cons c rest =>
    rw [item?] at found
    split at found
    · obtain rfl := Option.some.inj found
      simp
    · next unclosed =>
      obtain rfl := Option.some.inj found
      simpa using unclosed
    next none =>
    split at found
    · obtain rfl := Option.some.inj found
      simp
    · next unclosed =>
      obtain rfl := Option.some.inj found
      simpa using ⟨none, unclosed⟩
    · obtain rfl := Option.some.inj found
      have one := charItem_length prev c
      constructor
      · intro same
        rw [same] at one
        cases one
      · intro same
        rw [same] at one
        cases one

theorem judge_opening_eq_flaw {b : Bracket} {flaw : Flaw} :
    judge limit own stack (.opening b) = .flaw flaw ↔
      limit < stack.length + 2 ∧ flaw = .tooDeep limit := by
  rw [judge]
  split
  · next deep => exact ⟨fun same => ⟨deep, (Verdict.flaw.inj same).symm⟩, fun h => by rw [h.2]⟩
  · next room => exact iff_of_false (by simp) fun h => room h.1

theorem judge_closing_eq_flaw {b : Bracket} {flaw : Flaw} :
    judge limit own stack (.closing b) = .flaw flaw ↔
      stack.head?.getD own ≠ b ∧ flaw = .mismatch (stack.head?.getD own).closing b.closing := by
  have answer (top : Bracket) {passed : Verdict} (pass : passed ≠ .flaw flaw) :
      (if top = b then passed else .flaw (.mismatch top.closing b.closing)) = .flaw flaw ↔
        top ≠ b ∧ flaw = .mismatch top.closing b.closing := by
    split
    · next same => exact iff_of_false pass fun h => h.1 same
    · next other =>
      exact ⟨fun same => ⟨other, (Verdict.flaw.inj same).symm⟩, fun h => by rw [h.2]⟩
  cases stack with
  | nil => exact answer own (by simp)
  | cons top outer => exact answer top (by simp)

/-- An item that offends is one that the reader finds and rejects. -/
theorem offends_iff {before cs : List Char} {prev : Option Char} {flaw : Flaw}
    (stem : startsArrow prev = true ↔ AfterStem before) :
    Offends limit own before stack cs flaw ↔
      ∃ item, item? prev cs = some item ∧ judge limit own stack item = .flaw flaw := by
  constructor
  · intro offends
    cases offends with
    | literal unclosed =>
      cases cs with
      | nil => cases unclosed
      | cons c rest => exact ⟨.unclosedLiteral, by rw [item?, unclosed], rfl⟩
    | comment none unclosed =>
      cases cs with
      | nil => cases unclosed
      | cons c rest =>
        refine ⟨.unclosedComment, ?_, rfl⟩
        rw [item?, none]
        dsimp only
        rw [unclosed]
    | tooDeep reads deep => exact ⟨_, reads.item? stem, judge_opening_eq_flaw.mpr ⟨deep, rfl⟩⟩
    | mismatch reads other => exact ⟨_, reads.item? stem, judge_closing_eq_flaw.mpr ⟨other, rfl⟩⟩
  · rintro ⟨item, found, flawed⟩
    cases item with
    | opening b =>
      obtain ⟨deep, rfl⟩ := judge_opening_eq_flaw.mp flawed
      exact .tooDeep (reads_of_item? stem found (by simp) (by simp)) deep
    | closing b =>
      obtain ⟨other, rfl⟩ := judge_closing_eq_flaw.mp flawed
      exact .mismatch (reads_of_item? stem found (by simp) (by simp)) other
    | unclosedLiteral =>
      obtain rfl := Verdict.flaw.inj flawed
      exact .literal ((unclosed_of_item? found).1 rfl)
    | unclosedComment =>
      obtain rfl := Verdict.flaw.inj flawed
      have unclosed := (unclosed_of_item? found).2 rfl
      exact .comment unclosed.1 unclosed.2
    | literal | comment | arrow | other => cases flawed

/-! ## The reader of a body -/

section Close

variable {start : Position} {c : Cursor} {before : List Char} {m : Malformed}

theorem Cut.exists_append {ordinary : List Char → Prop} {before cs before' cs' : List Char}
    (cut : Cut ordinary before cs items before' cs') :
    ∃ passed, before' = before ++ passed ∧ cs = passed ++ cs' := by
  induction cut with
  | nil => exact ⟨[], (List.append_nil _).symm, rfl⟩
  | @cons before cs _ cs' item items _ _ ih =>
    obtain ⟨passed, whole, left⟩ := ih
    refine ⟨cs.take item.length ++ passed, by rw [whole, List.append_assoc], ?_⟩
    rw [List.append_assoc, ← left, List.take_append_drop]

/-- A body that the reader rejects is cut into items that pass and one that offends, or into items
that pass. -/
theorem close_error_sound {read : Nat} (follows : Follows before c)
    (failed : close limit own start stack read c = .error m) :
    ∃ items passed cs stack', Cut Ordinary before c.rest items (before ++ passed) cs ∧
      Steps limit own stack items stack' ∧
      ((∃ flaw, Offends limit own (before ++ passed) stack' cs flaw ∧
          m = ⟨flaw, c.position.advance passed⟩) ∨
        cs = [] ∧ m = ⟨.unclosedBlock own.opening, start⟩) := by
  fun_induction close limit own start stack read c generalizing before with
  | case1 stack read c none =>
    obtain rfl := Except.error.inj failed
    have ends : c.rest = [] := item?_eq_none none
    exact ⟨[], [], [], stack, by rw [ends, List.append_nil]; exact .nil, .nil, .inr ⟨rfl, rfl⟩⟩
  | case2 stack read c item found stack₁ go ih =>
    obtain ⟨items, passed, cs, stack', cut, steps, ends⟩ := ih (follows.advance item.length) failed
    have unclosed := not_unclosed_of_go go
    have reads := reads_of_item? follows found unclosed.1 unclosed.2
    rw [Cursor.advance_rest, List.append_assoc] at cut
    rw [Cursor.advance_position, ← Position.advance_append, List.append_assoc] at ends
    exact ⟨item :: items, c.rest.take item.length ++ passed, cs, stack',
      .cons reads cut, .cons go steps, ends⟩
  | case3 => cases failed
  | case4 stack read c item found flaw flawed =>
    obtain rfl := Except.error.inj failed
    have offends := (offends_iff follows).mpr ⟨item, found, flawed⟩
    exact ⟨[], [], c.rest, stack, by rw [List.append_nil]; exact .nil, .nil,
      .inl ⟨flaw, by rwa [List.append_nil], rfl⟩⟩

/-- Such a body is rejected. -/
theorem close_error_complete {stack' : List Bracket} {passed cs : List Char} (read : Nat)
    (follows : Follows before c) (cut : Cut Ordinary before c.rest items (before ++ passed) cs)
    (steps : Steps limit own stack items stack')
    (ends : (∃ flaw, Offends limit own (before ++ passed) stack' cs flaw ∧
        m = ⟨flaw, c.position.advance passed⟩) ∨
      cs = [] ∧ m = ⟨.unclosedBlock own.opening, start⟩) :
    close limit own start stack read c = .error m := by
  generalize text : c.rest = whole at cut
  generalize inside : before ++ passed = inner at cut ends
  induction cut generalizing c stack read passed with
  | nil =>
    cases steps
    obtain rfl : passed = [] := by simpa using inside
    rcases ends with ⟨flaw, offends, rfl⟩ | ⟨rfl, rfl⟩
    · rw [← text] at offends
      obtain ⟨item, found, flawed⟩ := (offends_iff follows).mp offends
      exact close_flaw found flawed
    · exact close_end text
  | @cons before cs _ _ item items reads cut ih =>
    cases steps with
    | cons go steps =>
    subst text
    have found := reads.item? follows
    obtain ⟨passed', same, -⟩ := cut.exists_append
    obtain rfl : passed = c.rest.take item.length ++ passed' := by
      rw [same, List.append_assoc, List.append_cancel_left_eq] at inside
      exact inside
    rw [close_go found go]
    rw [← List.append_assoc] at inside
    refine ih (read + item.length) (follows.advance item.length) steps (Cursor.advance_rest ..)
      inside ?_
    rwa [Cursor.advance_position, ← Position.advance_append]

/-- The reader rejects a body for its first item that offends, or for its end. -/
theorem close_eq_error_iff (follows : Follows [] c) :
    close limit own start [] 0 c = .error m ↔
      (∃ passed flaw, FirstFlaw limit own c.rest passed flaw ∧
          m = ⟨flaw, c.position.advance passed⟩) ∨
        StaysOpen limit c.rest ∧ m = ⟨.unclosedBlock own.opening, start⟩ := by
  constructor
  · intro failed
    obtain ⟨items, passed, cs, stack', cut, steps, ends⟩ := close_error_sound follows failed
    obtain ⟨pass, rfl⟩ := (steps_iff cut.closed).mp steps
    rw [List.nil_append] at cut ends
    rcases ends with ⟨flaw, offends, at_⟩ | ⟨rfl, at_⟩
    · exact .inl ⟨passed, flaw, ⟨items, cs, cut, pass, offends⟩, at_⟩
    · have whole := cut.append_eq
      rw [List.append_nil, List.nil_append] at whole
      rw [← whole] at cut
      exact .inr ⟨⟨items, cut, pass⟩, at_⟩
  · rintro (⟨passed, flaw, ⟨items, cs, cut, pass, offends⟩, at_⟩ | ⟨⟨items, cut, pass⟩, at_⟩)
    · exact close_error_complete 0 follows cut ((steps_iff cut.closed).mpr ⟨pass, rfl⟩)
        (.inl ⟨flaw, offends, at_⟩)
    · exact close_error_complete 0 follows cut ((steps_iff cut.closed).mpr ⟨pass, rfl⟩)
        (.inr ⟨rfl, at_⟩)

/-- The place of a flaw in the text around the block. -/
theorem FirstFlaw.position_eq {body passed : List Char} {flaw : Flaw}
    (first : FirstFlaw limit own body passed flaw) (before : List Char) (introducer : Char) :
    ((Cursor.between before (introducer :: own.opening :: body)).advance 2).position.advance
        passed =
      .locate (String.ofList (before ++ introducer :: own.opening :: body))
        (Text.width (before ++ introducer :: own.opening :: passed)) := by
  obtain ⟨items, cs, cut, -, -⟩ := first
  obtain rfl : body = passed ++ cs := cut.append_eq
  have located := Position.locate_width (before ++ introducer :: own.opening :: passed) cs
  rw [List.append_assoc, List.cons_append, List.cons_append] at located
  rw [located, Cursor.advance_position, Cursor.between_rest, Cursor.between_position,
    ← Position.advance_append, ← Position.advance_append]
  rfl

end Close

/-! ## The limit -/

theorem judge_limit {more : Nat} (le : limit ≤ more) (own : Bracket) (stack : List Bracket)
    (item : Item) :
    judge limit own stack item = .flaw (.tooDeep limit) ∨
      judge more own stack item = judge limit own stack item := by
  cases item with
  | opening b =>
    by_cases deep : limit < stack.length + 2
    · exact .inl (if_pos deep)
    · exact .inr ((if_neg (by omega)).trans (if_neg deep).symm)
  | closing | unclosedLiteral | unclosedComment => exact .inr rfl
  | literal | comment | arrow | other => exact .inr rfl

/-- Under a greater limit a body is read the same, unless an item is too deep for the smaller. -/
theorem close_limit {more : Nat} (le : limit ≤ more) (own : Bracket) (start : Position)
    (stack : List Bracket) (read : Nat) (c : Cursor) :
    (∃ p, close limit own start stack read c = .error ⟨.tooDeep limit, p⟩) ∨
      close more own start stack read c = close limit own start stack read c := by
  fun_induction close limit own start stack read c with
  | case1 stack read c none => exact .inr (close_end (item?_eq_none none))
  | case2 stack read c item found stack' go ih =>
    rcases judge_limit le own stack item with deep | same
    · cases go.symm.trans deep
    · rwa [close_go found (same.trans go)]
  | case3 stack read c item found done =>
    rcases judge_limit le own stack item with deep | same
    · cases done.symm.trans deep
    · exact .inr (close_done found (same.trans done))
  | case4 stack read c item found flaw flawed =>
    rcases judge_limit le own stack item with deep | same
    · obtain rfl := Verdict.flaw.inj (flawed.symm.trans deep)
      exact .inl ⟨_, rfl⟩
    · exact .inr (close_flaw found (same.trans flawed))

end Gloss.Block

namespace Gloss.Note

open Block Host

theorem scanBlock_eq_malformed_iff {d : Dialect} (deep : 1 ≤ d.depthLimit) {own : Bracket}
    {c : Cursor} {m : Malformed} :
    scanBlock d own c = .malformed m ↔
      Block.close d.depthLimit own c.position [] 0 (c.advance 2) = .error m := by
  rw [scanBlock, if_neg (by omega)]
  split
  · next closed =>
    rw [closed]
    simp
  · next failed =>
    rw [failed]
    simp

theorem scanBlock_limit {limit more : Nat} (le : limit ≤ more) (d : Dialect) (own : Bracket)
    (c : Cursor) :
    (∃ p, scanBlock { d with depthLimit := limit } own c = .malformed ⟨.tooDeep limit, p⟩) ∨
      scanBlock { d with depthLimit := limit } own c =
        scanBlock { d with depthLimit := more } own c := by
  by_cases zero : limit = 0
  · subst zero
    exact .inl ⟨_, if_pos rfl⟩
  unfold scanBlock
  dsimp only
  rw [if_neg zero, if_neg (by omega)]
  rcases close_limit le own c.position [] 0 (c.advance 2) with ⟨p, deep⟩ | same
  · exact .inl ⟨p, by rw [deep]⟩
  · exact .inr (by rw [same])

/-- A block is malformed exactly when one of its items offends or all pass up to the end of the
text. The flaw is that of the first item that offends, at the place of the item, or it is the block
itself. Under a greater limit the answer is the same, unless it is that the block is too deep. -/
theorem scan_firstFlaw {d : Dialect} (deep : 1 ≤ d.depthLimit) {own : Bracket}
    (accepted : d.acceptsBlock own = true) {before : List Char}
    (noHashbang : ¬ (before = [] ∧ d.hashbang = some own.opening)) (memberStart : Bool)
    (body : List Char) :
    (∀ m, scan d memberStart (.between before (d.introducer :: own.opening :: body)) =
        .malformed m ↔
      (∃ passed flaw, FirstFlaw d.depthLimit own body passed flaw ∧
        m = ⟨flaw, .locate (String.ofList (before ++ d.introducer :: own.opening :: body))
          (Text.width (before ++ d.introducer :: own.opening :: passed))⟩) ∨
      StaysOpen d.depthLimit body ∧
        m = ⟨.unclosedBlock own.opening,
          .locate (String.ofList (before ++ d.introducer :: own.opening :: body))
            (Text.width before)⟩) ∧
    ∀ limit more, limit ≤ more →
      (∃ p, scan { d with depthLimit := limit } memberStart
        (.between before (d.introducer :: own.opening :: body)) = .malformed ⟨.tooDeep limit, p⟩) ∨
      scan { d with depthLimit := limit } memberStart
          (.between before (d.introducer :: own.opening :: body)) =
        scan { d with depthLimit := more } memberStart
          (.between before (d.introducer :: own.opening :: body)) := by
  have text := Cursor.between_rest before (d.introducer :: own.opening :: body)
  have off : ¬ ((Cursor.between before (d.introducer :: own.opening :: body)).offset = 0 ∧
      d.hashbang = some own.opening) := by
    rintro ⟨zero, mark⟩
    have short := Text.length_le_width before
    rw [Cursor.between_offset] at zero
    exact noHashbang ⟨List.length_eq_zero_iff.mp (by omega), mark⟩
  constructor
  · intro m
    have body' : ((Cursor.between before (d.introducer :: own.opening :: body)).advance 2).rest =
        body := by
      rw [Cursor.advance_rest, text]
      rfl
    have start : (Cursor.between before (d.introducer :: own.opening :: body)).position =
        .locate (String.ofList (before ++ d.introducer :: own.opening :: body))
          (Text.width before) := by
      rw [Cursor.between_position, Position.locate_width]
    rw [scan_eq_scanBlock text accepted off, scanBlock_eq_malformed_iff deep,
      close_eq_error_iff (follows_body text), body', start]
    refine or_congr (exists₂_congr fun passed flaw => and_congr_right fun first => ?_) Iff.rfl
    rw [first.position_eq]
  · intro limit more le
    have block (depth : Nat) : scan { d with depthLimit := depth } memberStart
        (.between before (d.introducer :: own.opening :: body)) =
          scanBlock { d with depthLimit := depth } own
            (.between before (d.introducer :: own.opening :: body)) :=
      scan_eq_scanBlock text accepted off
    rw [block, block]
    exact scanBlock_limit le d own _

theorem scan_firstFlaw_mismatch :
    1 ≤ Dialect.hash.depthLimit ∧ Dialect.hash.acceptsBlock .angle = true ∧
    ¬ (("é ".toList : List Char) = [] ∧ Dialect.hash.hashbang = some '<') ∧
    (∀ m, scan .hash false (.between "é ".toList "#<(a] 'b".toList) = .malformed m ↔
      (∃ passed flaw, FirstFlaw 64 .angle "(a] 'b".toList passed flaw ∧
        m = ⟨flaw, .locate (String.ofList "é #<(a] 'b".toList)
          (Text.width ("é #<".toList ++ passed))⟩) ∨
      StaysOpen 64 "(a] 'b".toList ∧
        m = ⟨.unclosedBlock '<', .locate (String.ofList "é #<(a] 'b".toList) 3⟩) ∧
    (1 ≤ 2 ∧
      ((∃ p, scan { Dialect.hash with depthLimit := 1 } false
          (.between "é ".toList "#<(a] 'b".toList) = .malformed ⟨.tooDeep 1, p⟩) ∨
        scan { Dialect.hash with depthLimit := 1 } false
            (.between "é ".toList "#<(a] 'b".toList) =
          scan { Dialect.hash with depthLimit := 2 } false
            (.between "é ".toList "#<(a] 'b".toList))) := by
  have deep : 1 ≤ Dialect.hash.depthLimit := by decide
  have accepted : Dialect.hash.acceptsBlock .angle = true := rfl
  have off : ¬ (("é ".toList : List Char) = [] ∧ Dialect.hash.hashbang = some '<') := by decide
  have first := scan_firstFlaw deep accepted off false "(a] 'b".toList
  exact ⟨deep, accepted, off, first.1, by decide, first.2 1 2 (by decide)⟩

end Gloss.Note

import Gloss.Proofs.Step

/-!
# Block annotations are balanced

The grammar of a block annotation, apart from the reader that recognizes it.
`Block.Cut` cuts a body into items from left to right, `Block.WellNested` is the
language of properly nested brackets with a bound on their depth, and
`Block.Balanced` puts the two together: the payload of a block is a well-nested
cut of the body up to the bracket that closes the block.

`Note.scan_block` says that an annotation opened by a bracket is read exactly
when its body is balanced, that the payload is then unique, and that it is
malformed in every other case.
-/

namespace Gloss.Block

open Host

/-! ## The grammar -/

/-- The last character before a closing angle makes the two an arrow. -/
def AfterStem (before : List Char) : Prop :=
  before.getLast? = some '=' ∨ before.getLast? = some '-'

/-- The next item of a body, after the part of the body that is read. Literals come first, then
comments, arrows, brackets, and last a single character where `ordinary` admits one. -/
inductive Reads (ordinary : List Char → Prop) (before : List Char) : List Char → Item → Prop
  | literal {cs : List Char} {length : Nat} :
    Literal.extent? cs = some (.closed length) → Reads ordinary before cs (.literal length)
  | comment {cs : List Char} {length : Nat} :
    Literal.extent? cs = none → Comment.block? cs = some (.closed length) →
    Reads ordinary before cs (.comment length)
  | arrow {rest : List Char} :
    AfterStem before → Reads ordinary before ('>' :: rest) .arrow
  | opening {b : Bracket} {rest : List Char} :
    Reads ordinary before (b.opening :: rest) (.opening b)
  | closing {b : Bracket} {rest : List Char} :
    ¬ (b = .angle ∧ AfterStem before) → Reads ordinary before (b.closing :: rest) (.closing b)
  | other {c : Char} {rest : List Char} :
    (∀ length, Literal.extent? (c :: rest) ≠ some (.closed length)) →
    (∀ length, Comment.block? (c :: rest) ≠ some (.closed length)) →
    Bracket.isBracket c = false → ordinary (c :: rest) → Reads ordinary before (c :: rest) .other

/-- Reading items from the left: what is read and what is left, before and after. -/
inductive Cut (ordinary : List Char → Prop) :
    List Char → List Char → List Item → List Char → List Char → Prop
  | nil {before cs : List Char} : Cut ordinary before cs [] before cs
  | cons {before cs before' cs' : List Char} {item : Item} {items : List Item} :
    Reads ordinary before cs item →
    Cut ordinary (before ++ cs.take item.length) (cs.drop item.length) items before' cs' →
    Cut ordinary before cs (item :: items) before' cs'

/-- Items whose brackets are properly nested, at most so many levels deep. -/
inductive WellNested : Nat → List Item → Prop
  | nil {depth : Nat} : WellNested depth []
  | plain {depth : Nat} {item : Item} {items : List Item} :
    (∀ b, item ≠ .opening b) → (∀ b, item ≠ .closing b) → WellNested depth items →
    WellNested depth (item :: items)
  | group {depth : Nat} {b : Bracket} {inner items : List Item} :
    WellNested depth inner → WellNested (depth + 1) items →
    WellNested (depth + 1) (.opening b :: (inner ++ .closing b :: items))

/-- The payload is cut into well-nested items, and the bracket that closes the block follows it.
The block is itself a level of its depth. -/
def Balanced (ordinary : List Char → Prop) (limit : Nat) (own : Bracket)
    (body payload : List Char) : Prop :=
  ∃ items after depth, Cut ordinary [] body items payload (own.closing :: after) ∧
    Reads ordinary payload (own.closing :: after) (.closing own) ∧
    WellNested depth items ∧ limit = depth + 1

/-- No literal and no comment opens here, so that the next character stands for itself. -/
def Ordinary (cs : List Char) : Prop :=
  Literal.extent? cs = none ∧ Comment.block? cs = none

/-! ## The stack of the reader -/

/-- Reading items one after another, with the brackets that are open before and after. -/
inductive Steps (limit : Nat) (own : Bracket) : List Bracket → List Item → List Bracket → Prop
  | nil {stack : List Bracket} : Steps limit own stack [] stack
  | cons {stack stack' stack'' : List Bracket} {item : Item} {items : List Item} :
    judge limit own stack item = .go stack' → Steps limit own stack' items stack'' →
    Steps limit own stack (item :: items) stack''

variable {limit depth : Nat} {own : Bracket}

theorem Steps.append {stack stack' stack'' : List Bracket} {items more : List Item}
    (first : Steps limit own stack items stack') (last : Steps limit own stack' more stack'') :
    Steps limit own stack (items ++ more) stack'' := by
  induction first with
  | nil => exact last
  | cons go _ ih => exact .cons go (ih last)

theorem judge_plain {item : Item} {stack stack' : List Bracket}
    (go : judge limit own stack item = .go stack') (opens : ∀ b, item ≠ .opening b)
    (closes : ∀ b, item ≠ .closing b) : stack' = stack := by
  cases item with
  | opening b => exact absurd rfl (opens b)
  | closing b => exact absurd rfl (closes b)
  | unclosedLiteral | unclosedComment => cases go
  | literal | comment | arrow | other => exact (Verdict.go.inj go).symm

theorem judge_opening {b : Bracket} {stack stack' : List Bracket} :
    judge limit own stack (.opening b) = .go stack' ↔
      stack.length + 2 ≤ limit ∧ stack' = b :: stack := by
  rw [judge]
  split
  · next deep => exact ⟨fun h => (by cases h), fun h => (by omega)⟩
  · next room => exact ⟨fun h => ⟨by omega, (Verdict.go.inj h).symm⟩, fun h => by rw [h.2]⟩

theorem judge_closing {b : Bracket} {stack stack' : List Bracket} :
    judge limit own stack (.closing b) = .go stack' ↔ stack = b :: stack' := by
  cases stack with
  | nil => simp only [judge]; split <;> simp
  | cons top outer => simp only [judge]; split <;> simp_all

/-- Well-nested items are read with any stack that leaves room for them, and leave it as it was. -/
theorem WellNested.steps {items : List Item} (nested : WellNested depth items)
    {stack : List Bracket} (room : stack.length + depth + 1 ≤ limit)
    (closed : ∀ item ∈ items, item ≠ .unclosedLiteral ∧ item ≠ .unclosedComment) :
    Steps limit own stack items stack := by
  induction nested generalizing stack with
  | nil => exact .nil
  | @plain depth item items opens closes _ ih =>
    have go : judge limit own stack item = .go stack := by
      have := closed item (by simp)
      cases item with
      | opening b => exact absurd rfl (opens b)
      | closing b => exact absurd rfl (closes b)
      | unclosedLiteral | unclosedComment => simp at this
      | literal | comment | arrow | other => rfl
    exact .cons go (ih room fun item member => closed item (List.mem_cons_of_mem _ member))
  | @group depth b inner items _ _ inside after =>
    have opened : judge limit own stack (.opening b) = .go (b :: stack) :=
      judge_opening.2 ⟨by omega, rfl⟩
    have within : Steps limit own (b :: stack) inner (b :: stack) :=
      inside (by simp only [List.length_cons]; omega)
        fun item member => closed item (by simp [member])
    have beyond : Steps limit own stack items stack :=
      after room fun item member => closed item (by simp [member])
    exact .cons opened (within.append (.cons (judge_closing.2 rfl) beyond))

/-- Items that close the open brackets from the innermost on, with well-nested items before each
of the closing brackets and after the last. -/
def Unwinds (depth : Nat) : List Bracket → List Item → Prop
  | [], items => WellNested depth items
  | b :: stack, items =>
    ∃ inner outer level, items = inner ++ .closing b :: outer ∧ WellNested level inner ∧
      level + stack.length + 1 = depth ∧ Unwinds depth stack outer

theorem Unwinds.plain {item : Item} (opens : ∀ b, item ≠ .opening b)
    (closes : ∀ b, item ≠ .closing b) {stack : List Bracket} {items : List Item}
    (unwinds : Unwinds depth stack items) : Unwinds depth stack (item :: items) := by
  cases stack with
  | nil => exact WellNested.plain opens closes unwinds
  | cons b stack =>
    obtain ⟨inner, outer, level, rfl, nested, total, later⟩ := unwinds
    exact ⟨item :: inner, outer, level, rfl, WellNested.plain opens closes nested, total, later⟩

theorem Unwinds.opening {b : Bracket} {stack : List Bracket} {items : List Item}
    (unwinds : Unwinds depth (b :: stack) items) :
    Unwinds depth stack (.opening b :: items) := by
  obtain ⟨inner, outer, level, rfl, nested, total, later⟩ := unwinds
  cases stack with
  | nil =>
    obtain rfl : depth = level + 1 := by simpa using total.symm
    exact WellNested.group nested later
  | cons b' stack =>
    obtain ⟨inner', outer', level', rfl, nested', total', later'⟩ := later
    obtain rfl : level' = level + 1 := by
      simp only [List.length_cons] at total
      omega
    exact ⟨.opening b :: (inner ++ .closing b :: inner'), outer', level + 1, by simp,
      WellNested.group nested nested', total', later'⟩

/-- What is read down to an empty stack closes all open brackets in order. -/
theorem Steps.unwinds {stack : List Bracket} {items : List Item}
    (steps : Steps (depth + 1) own stack items []) (room : stack.length ≤ depth) :
    Unwinds depth stack items := by
  generalize final : ([] : List Bracket) = stack' at steps
  induction steps with
  | nil =>
    subst final
    exact .nil
  | @cons stack stack₁ stack₂ item items go _ ih =>
    by_cases opens : ∃ b, item = .opening b
    · obtain ⟨b, rfl⟩ := opens
      obtain ⟨level, rfl⟩ := judge_opening.1 go
      exact (ih (by simp only [List.length_cons]; omega) final).opening
    by_cases closes : ∃ b, item = .closing b
    · obtain ⟨b, rfl⟩ := closes
      obtain rfl := judge_closing.1 go
      rw [List.length_cons] at room
      exact ⟨[], items, depth - (stack₁.length + 1), rfl, .nil, by omega, ih (by omega) final⟩
    · have opens : ∀ b, item ≠ .opening b := fun b eq => opens ⟨b, eq⟩
      have closes : ∀ b, item ≠ .closing b := fun b eq => closes ⟨b, eq⟩
      obtain rfl := judge_plain go opens closes
      exact (ih room final).plain opens closes

/-! ## The items of the reader -/

theorem AfterStem.iff_startsArrow {before : List Char} :
    AfterStem before ↔ startsArrow before.getLast? = true := by
  simp [AfterStem, startsArrow]

section Items

variable {before cs : List Char} {prev : Option Char} {item : Item}

/-- An item of the grammar is no unclosed one. -/
theorem Reads.closed {ordinary : List Char → Prop} (reads : Reads ordinary before cs item) :
    item ≠ .unclosedLiteral ∧ item ≠ .unclosedComment := by
  cases reads <;> simp

theorem ofOpening?_eq_none_of_not_isBracket {c : Char} (free : Bracket.isBracket c = false) :
    Bracket.ofOpening? c = none ∧ Bracket.ofClosing? c = none := by
  simpa [Bracket.isBracket] using free

theorem ordinary_of_bracket {b : Bracket} (rest : List Char) :
    Ordinary (b.opening :: rest) ∧ Ordinary (b.closing :: rest) := by
  cases b <;> simp [Ordinary, Literal.extent?, Comment.block?, Bracket.opening, Bracket.closing]

/-- Where nothing hides the next character, the reader looks at this character alone. -/
theorem item?_ordinary {c : Char} {rest : List Char} (plain : Ordinary (c :: rest)) :
    item? prev (c :: rest) = some (charItem prev c) := by
  rw [item?, plain.1]
  dsimp only
  rw [plain.2]

/-- The reader finds the items of the grammar. -/
theorem Reads.item? (stem : startsArrow prev = true ↔ AfterStem before)
    (reads : Reads Ordinary before cs item) : item? prev cs = some item := by
  cases reads with
  | @literal cs length closed =>
    cases cs with
    | nil => simp [Literal.extent?] at closed
    | cons c rest => rw [Block.item?, closed]
  | @comment cs length none closed =>
    cases cs with
    | nil => simp [Comment.block?] at closed
    | cons c rest =>
      rw [Block.item?, none]
      dsimp only
      rw [closed]
  | @arrow rest after =>
    have plain : Ordinary ('>' :: rest) := (ordinary_of_bracket (b := .angle) rest).2
    rw [item?_ordinary plain, charItem, if_pos ⟨rfl, stem.2 after⟩]
  | @opening b rest =>
    rw [item?_ordinary (ordinary_of_bracket rest).1, charItem, if_neg (by cases b <;> simp
      [Bracket.opening]), Bracket.ofOpening?_opening]
  | @closing b rest apart =>
    have other : ¬ (b.closing = '>' ∧ startsArrow prev = true) := by
      intro both
      rcases both with ⟨angle, arrow⟩
      refine apart ⟨?_, stem.1 arrow⟩
      cases b <;> first | rfl | simp [Bracket.closing] at angle
    have unopened : Bracket.ofOpening? b.closing = none := by
      cases b <;> decide
    rw [item?_ordinary (ordinary_of_bracket rest).2, charItem, if_neg other, unopened,
      Bracket.ofClosing?_closing]
  | @other c rest _ _ free plain =>
    have angle : c ≠ '>' := by
      rintro rfl
      exact absurd free (by decide)
    obtain ⟨unopened, unclosing⟩ := ofOpening?_eq_none_of_not_isBracket free
    rw [item?_ordinary plain, charItem, if_neg (fun h => angle h.1), unopened, unclosing]

/-- What the reader finds is an item of the grammar, unless it is not closed. -/
theorem reads_of_item? (stem : startsArrow prev = true ↔ AfterStem before)
    (found : item? prev cs = some item) (literal : item ≠ .unclosedLiteral)
    (comment : item ≠ .unclosedComment) : Reads Ordinary before cs item := by
  cases cs with
  | nil => simp [item?] at found
  | cons c rest =>
  rw [item?] at found
  split at found
  · next length closed =>
    obtain rfl := Option.some.inj found
    exact .literal closed
  · exact absurd (Option.some.inj found).symm literal
  next unquoted =>
  split at found
  · next length closed =>
    obtain rfl := Option.some.inj found
    exact .comment unquoted closed
  · exact absurd (Option.some.inj found).symm comment
  next uncommented =>
  obtain rfl := Option.some.inj found
  unfold charItem
  split
  · next arrow =>
    rw [arrow.1]
    exact .arrow (stem.1 arrow.2)
  next apart =>
  split
  · next b opens =>
    obtain rfl := Bracket.ofOpening?_eq_some.1 opens
    exact .opening
  next unopened =>
  split
  · next b closes =>
    obtain rfl := Bracket.ofClosing?_eq_some.1 closes
    refine .closing ?_
    intro both
    rcases both with ⟨rfl, after⟩
    exact apart ⟨rfl, stem.2 after⟩
  · next unclosing =>
    refine .other (by simp [unquoted]) (by simp [uncommented]) ?_ ⟨unquoted, uncommented⟩
    simp [Bracket.isBracket, unopened, unclosing]

end Items

/-! ## The reader of a body -/

/-- The text before a cursor ends as the body before it does, as far as arrows are concerned. -/
def Follows (before : List Char) (c : Cursor) : Prop :=
  startsArrow c.prev = true ↔ AfterStem before

theorem Follows.advance {before : List Char} {c : Cursor} (follows : Follows before c)
    (length : Nat) : Follows (before ++ c.rest.take length) (c.advance length) := by
  unfold Follows at *
  rw [Cursor.advance_prev]
  cases taken : (c.rest.take length).getLast? with
  | none =>
    rw [List.getLast?_eq_none_iff.1 taken, List.append_nil]
    exact follows
  | some last =>
    rw [AfterStem.iff_startsArrow, List.getLast?_append, taken]
    rfl

theorem Cut.append_eq {ordinary : List Char → Prop} {before cs before' cs' : List Char}
    {items : List Item} (cut : Cut ordinary before cs items before' cs') :
    before ++ cs = before' ++ cs' := by
  induction cut with
  | nil => rfl
  | cons _ _ ih => rw [← ih, List.append_assoc, List.take_append_drop]

theorem Cut.closed {ordinary : List Char → Prop} {before cs before' cs' : List Char}
    {items : List Item} (cut : Cut ordinary before cs items before' cs') :
    ∀ item ∈ items, item ≠ .unclosedLiteral ∧ item ≠ .unclosedComment := by
  induction cut with
  | nil => simp
  | cons reads _ ih =>
    intro item member
    rcases List.mem_cons.1 member with rfl | member
    · exact reads.closed
    · exact ih item member

theorem judge_done {stack : List Bracket} {item : Item} :
    judge limit own stack item = .done ↔ stack = [] ∧ item = .closing own := by
  constructor
  · intro done
    cases item with
    | opening b =>
      rw [judge] at done
      split at done <;> cases done
    | closing b =>
      cases stack with
      | nil =>
        rw [judge] at done
        split at done
        · next same => exact ⟨rfl, by rw [same]⟩
        · cases done
      | cons top outer =>
        rw [judge] at done
        split at done <;> cases done
    | unclosedLiteral | unclosedComment | literal | comment | arrow | other => cases done
  · intro last
    rcases last with ⟨rfl, rfl⟩
    rw [judge, if_pos rfl]

theorem not_unclosed_of_go {stack stack' : List Bracket} {item : Item}
    (go : judge limit own stack item = .go stack') :
    item ≠ .unclosedLiteral ∧ item ≠ .unclosedComment := by
  constructor <;> rintro rfl <;> cases go

/-- A body that the reader closes is cut by the grammar, up to the bracket that closes it. -/
theorem close_sound {start : Position} {stack : List Bracket} {length : Nat} {c : Cursor}
    {before : List Char} (read : Nat) (follows : Follows before c)
    (closed : close limit own start stack read c = .ok length) :
    ∃ items payload after, Cut Ordinary before c.rest items payload (own.closing :: after) ∧
      Reads Ordinary payload (own.closing :: after) (.closing own) ∧
      Steps limit own stack items [] ∧ read + payload.length = before.length + length := by
  fun_induction close limit own start stack read c generalizing before with
  | case1 => cases closed
  | case2 stack read c item found stack' go ih =>
    obtain ⟨items, payload, after, cut, ends, steps, total⟩ :=
      ih (follows.advance item.length) closed
    have unclosed := not_unclosed_of_go go
    have reads := reads_of_item? follows found unclosed.1 unclosed.2
    have bound := (item?_length found).1
    rw [Cursor.advance_rest] at cut
    refine ⟨item :: items, payload, after, .cons reads cut, ends, .cons go steps, ?_⟩
    rw [List.length_append, List.length_take] at total
    omega
  | case3 stack read c item found done =>
    obtain ⟨rfl, rfl⟩ := judge_done.1 done
    obtain rfl := Except.ok.inj closed
    have reads := reads_of_item? follows found (by simp) (by simp)
    cases text : c.rest with
    | nil => rw [text] at found; cases found
    | cons ch after =>
      rw [text] at reads
      have same : ch = own.closing := by
        cases reads
        rfl
      subst same
      exact ⟨[], before, after, .nil, reads, .nil, Nat.add_comm ..⟩
  | case4 => cases closed

section Close

variable {start : Position} {stack stack' : List Bracket} {read : Nat} {c : Cursor} {item : Item}

theorem close_go (found : item? c.prev c.rest = some item)
    (go : judge limit own stack item = .go stack') :
    close limit own start stack read c =
      close limit own start stack' (read + item.length) (c.advance item.length) := by
  rw [close]
  split
  · next none => cases found.symm.trans none
  · next item' found' =>
    obtain rfl := Option.some.inj (found.symm.trans found')
    split
    · next stack'' go' =>
      obtain rfl := Verdict.go.inj (go.symm.trans go')
      rfl
    · next done => cases go.symm.trans done
    · next flaw => cases go.symm.trans flaw

theorem close_done (found : item? c.prev c.rest = some item)
    (done : judge limit own stack item = .done) :
    close limit own start stack read c = .ok read := by
  rw [close]
  split
  · next none => cases found.symm.trans none
  · next item' found' =>
    obtain rfl := Option.some.inj (found.symm.trans found')
    split
    · next go => cases done.symm.trans go
    · rfl
    · next flaw => cases done.symm.trans flaw

theorem item?_eq_none {prev : Option Char} {cs : List Char} (none : item? prev cs = none) :
    cs = [] := by
  cases cs with
  | nil => rfl
  | cons ch rest =>
    rw [item?] at none
    repeat' split at none
    all_goals cases none

theorem close_end (ends : c.rest = []) :
    close limit own start stack read c = .error ⟨.unclosedBlock own.opening, start⟩ := by
  rw [close]
  split
  · rfl
  · next item found =>
    rw [ends] at found
    cases found

theorem close_flaw {flaw : Flaw} (found : item? c.prev c.rest = some item)
    (judged : judge limit own stack item = .flaw flaw) :
    close limit own start stack read c = .error ⟨flaw, c.position⟩ := by
  rw [close]
  split
  · next none => cases found.symm.trans none
  · next item' found' =>
    obtain rfl := Option.some.inj (found.symm.trans found')
    split
    · next go => cases judged.symm.trans go
    · next done => cases judged.symm.trans done
    · next flaw' judged' =>
      obtain rfl := Verdict.flaw.inj (judged.symm.trans judged')
      rfl

end Close

/-- A body that the grammar cuts is closed by the reader at the same place. -/
theorem close_complete {start : Position} {stack : List Bracket} {c : Cursor}
    {before payload after : List Char} {items : List Item} (read : Nat) (follows : Follows before c)
    (cut : Cut Ordinary before c.rest items payload (own.closing :: after))
    (ends : Reads Ordinary payload (own.closing :: after) (.closing own))
    (steps : Steps limit own stack items []) :
    ∃ length, close limit own start stack read c = .ok length ∧
      read + payload.length = before.length + length := by
  generalize text : c.rest = cs at cut
  generalize left : own.closing :: after = cs' at cut ends
  generalize empty : ([] : List Bracket) = stack' at steps
  induction cut generalizing c stack read with
  | nil =>
    cases steps
    subst empty
    have found := ends.item? follows
    rw [← text] at found
    exact ⟨read, close_done found (judge_done.2 ⟨rfl, rfl⟩), Nat.add_comm ..⟩
  | @cons before cs _ _ item items reads _ ih =>
    cases steps with
    | cons go steps =>
    have found := reads.item? follows
    have bound := (item?_length found).1
    rw [← text] at found
    have rest : (c.advance item.length).rest = cs.drop item.length := by
      rw [Cursor.advance_rest, text]
    have later := follows.advance item.length
    rw [text] at later
    obtain ⟨length, closed, total⟩ := ih (read + item.length) later rest left ends steps
    refine ⟨length, (close_go found go).trans closed, ?_⟩
    rw [List.length_append, List.length_take] at total
    omega

/-- The reader closes a body exactly when it is balanced, after the payload. -/
theorem close_eq_ok_iff {start : Position} {c : Cursor} (follows : Follows [] c)
    {length : Nat} :
    close (depth + 1) own start [] 0 c = .ok length ↔
      ∃ payload, Balanced Ordinary (depth + 1) own c.rest payload ∧ payload.length = length := by
  constructor
  · intro closed
    obtain ⟨items, payload, after, cut, ends, steps, total⟩ := close_sound 0 follows closed
    have nested : WellNested depth items := steps.unwinds (Nat.zero_le _)
    exact ⟨payload, ⟨items, after, depth, cut, ends, nested, rfl⟩, by simpa using total⟩
  · intro balanced
    rcases balanced with ⟨payload, ⟨items, after, level, cut, ends, nested, limit⟩, rfl⟩
    obtain rfl : depth = level := Nat.succ.inj limit
    have steps : Steps (depth + 1) own [] items [] :=
      nested.steps (by simp) cut.closed
    obtain ⟨length, closed, total⟩ := close_complete 0 follows cut ends steps
    obtain rfl : payload.length = length := by simpa using total
    exact closed

/-- The payload of a balanced body is a part of the body in front of the closing bracket. -/
theorem Balanced.body_eq {ordinary : List Char → Prop} {body payload : List Char}
    (balanced : Balanced ordinary limit own body payload) :
    ∃ after, body = payload ++ own.closing :: after := by
  obtain ⟨items, after, level, cut, -⟩ := balanced
  exact ⟨after, cut.append_eq⟩

end Gloss.Block

namespace Gloss

open Block Host

/-- The block annotation at a cursor with the given payload. -/
def Note.ofBlock (c : Cursor) (introducer : Char) (own : Bracket) (payload : List Char) : Note where
  span := ⟨c.offset,
    c.offset + Text.width (introducer :: own.opening :: (payload ++ [own.closing]))⟩
  form := .block own
  payload := String.ofList payload
  payloadSpan := ⟨c.offset + Text.width [introducer, own.opening],
    c.offset + Text.width (introducer :: own.opening :: payload)⟩
  marker := none

variable {d : Dialect} {memberStart : Bool} {c : Cursor} {own : Bracket} {body : List Char}

theorem Note.scan_eq_scanBlock (opened : c.rest = d.introducer :: own.opening :: body)
    (accepted : d.acceptsBlock own = true)
    (noHashbang : ¬ (c.offset = 0 ∧ d.hashbang = some own.opening)) :
    scan d memberStart c = scanBlock d own c := by
  unfold scan
  split
  · next text => cases opened.symm.trans text
  next first rest text =>
  obtain ⟨rfl, rfl⟩ := List.cons.inj (opened.symm.trans text)
  rw [if_neg (by simp)]
  simp only [List.head?_cons, if_neg noHashbang, Bracket.ofOpening?_opening, Option.filter_some,
    accepted, if_true]

theorem Note.cut_block {payload after : List Char}
    (opened : c.rest = d.introducer :: own.opening :: (payload ++ own.closing :: after)) :
    cut c (.block own) 2 payload.length 1 none = ofBlock c d.introducer own payload := by
  have whole : c.rest.take (2 + payload.length + 1) =
      d.introducer :: own.opening :: (payload ++ [own.closing]) := by
    rw [opened, show 2 + payload.length + 1 = payload.length + 1 + 1 + 1 by omega,
      List.take_succ_cons, List.take_succ_cons, List.take_append]
    simp [List.take_of_length_le]
  have opening : c.rest.take 2 = [d.introducer, own.opening] := by
    simp [opened]
  have inside : (c.advance 2).rest.take payload.length = payload := by
    simp [opened]
  simp only [cut, ofBlock, Cursor.span, Cursor.lexeme, Cursor.advance_offset, whole, opening,
    inside]
  simp only [Text.width_cons, Text.width_nil, Nat.add_zero, Nat.add_assoc]

/-- Before the body stands the opening bracket, which is the stem of no arrow. -/
theorem Note.follows_body (opened : c.rest = d.introducer :: own.opening :: body) :
    Follows [] (c.advance 2) := by
  have prev : (c.advance 2).prev = some own.opening := by
    rw [Cursor.advance_prev, opened]
    rfl
  rw [Follows, prev]
  cases own <;> simp [startsArrow, AfterStem, Bracket.opening]

theorem Note.scanBlock_eq_found (opened : c.rest = d.introducer :: own.opening :: body)
    {payload : List Char} (balanced : Balanced Ordinary d.depthLimit own body payload) :
    scanBlock d own c = .found (ofBlock c d.introducer own payload) (payload.length + 3) := by
  obtain ⟨after, rfl⟩ := balanced.body_eq
  have ⟨_, _, depth, _, _, _, limit⟩ := balanced
  have closed : Block.close d.depthLimit own c.position [] 0 (c.advance 2) =
      .ok payload.length := by
    rw [limit] at balanced ⊢
    refine (close_eq_ok_iff (follows_body opened)).2 ⟨payload, ?_, rfl⟩
    simpa [opened] using balanced
  rw [scanBlock, if_neg (by omega), closed]
  simp only [cut_block opened]
  congr 1
  omega

/-- An annotation opened by a bracket is read exactly when its body is balanced. Its payload is
then unique, and in every other case it is malformed. -/
theorem Note.scan_block (opened : c.rest = d.introducer :: own.opening :: body)
    (accepted : d.acceptsBlock own = true)
    (noHashbang : ¬ (c.offset = 0 ∧ d.hashbang = some own.opening)) :
    (∀ payload, Balanced Ordinary d.depthLimit own body payload ↔
      scan d memberStart c =
        .found (ofBlock c d.introducer own payload) (payload.length + 3)) ∧
    (∀ payload payload', Balanced Ordinary d.depthLimit own body payload →
      Balanced Ordinary d.depthLimit own body payload' → payload = payload') ∧
    ((∀ payload, ¬ Balanced Ordinary d.depthLimit own body payload) →
      ∃ m, scan d memberStart c = .malformed m) := by
  rw [scan_eq_scanBlock opened accepted noHashbang]
  have unique {payload payload' : List Char}
      (balanced : Balanced Ordinary d.depthLimit own body payload)
      (found : scanBlock d own c =
        .found (ofBlock c d.introducer own payload') (payload'.length + 3)) :
      payload = payload' := by
    have same := (Scan.found.inj ((scanBlock_eq_found opened balanced).symm.trans found)).1
    exact String.ofList_injective (congrArg Note.payload same)
  -- the reader answers with the length of a payload or with a flaw
  have total : (∃ payload, Balanced Ordinary d.depthLimit own body payload) ∨
      ∃ m, scanBlock d own c = .malformed m := by
    rw [scanBlock]
    split
    · exact .inr ⟨_, rfl⟩
    · next positive =>
      obtain ⟨depth, limit⟩ := Nat.exists_eq_succ_of_ne_zero positive
      cases closed : Block.close d.depthLimit own c.position [] 0 (c.advance 2) with
      | error flaw => exact .inr ⟨flaw, rfl⟩
      | ok length =>
        rw [limit] at closed ⊢
        obtain ⟨payload, balanced, -⟩ := (close_eq_ok_iff (follows_body opened)).1 closed
        exact .inl ⟨payload, by simpa [opened] using balanced⟩
  refine ⟨fun payload => ⟨scanBlock_eq_found opened, fun found => ?_⟩,
    fun payload payload' balanced balanced' =>
      unique balanced (scanBlock_eq_found opened balanced'),
    fun unbalanced => ?_⟩
  · rcases total with ⟨payload', balanced⟩ | ⟨m, malformed⟩
    · rwa [← unique balanced found]
    · cases found.symm.trans malformed
  · rcases total with ⟨payload, balanced⟩ | malformed
    · exact absurd balanced (unbalanced payload)
    · exact malformed

theorem Note.scan_block_arrow :
    (Cursor.start "#<(x) => y> z".toList).rest = '#' :: '<' :: "(x) => y> z".toList ∧
    Dialect.hash.acceptsBlock .angle = true ∧
    ¬ ((Cursor.start "#<(x) => y> z".toList).offset = 0 ∧ Dialect.hash.hashbang = some '<') ∧
    (∀ payload, Balanced Ordinary 64 .angle "(x) => y> z".toList payload ↔
      scan .hash false (.start "#<(x) => y> z".toList) =
        .found (ofBlock (.start "#<(x) => y> z".toList) '#' .angle payload)
          (payload.length + 3)) ∧
    (∀ payload payload', Balanced Ordinary 64 .angle "(x) => y> z".toList payload →
      Balanced Ordinary 64 .angle "(x) => y> z".toList payload' → payload = payload') ∧
    ((∀ payload, ¬ Balanced Ordinary 64 .angle "(x) => y> z".toList payload) →
      ∃ m, scan .hash false (.start "#<(x) => y> z".toList) = .malformed m) :=
  ⟨rfl, by decide, by decide,
    @scan_block .hash false (.start "#<(x) => y> z".toList) .angle _ rfl (by decide) (by decide)⟩

/-- A quote that opens no closed literal is no ordinary character. If it were one, the block here
would be balanced; the reader finds it malformed. -/
theorem Note.not_balanced_iff_scan_unclosed_quote :
    ¬ (Balanced (fun _ => True) Dialect.hash.depthLimit .angle "a 'b>\n".toList "a 'b".toList ↔
      scan .hash false (.start "#<a 'b>\n".toList) =
        .found (ofBlock (.start "#<a 'b>\n".toList) '#' .angle "a 'b".toList) 7) := by
  have other {before rest : List Char} {c : Char} {e : Option Extent}
      (extent : Literal.extent? (c :: rest) = e) (unclosed : ∀ length, e ≠ some (.closed length))
      (comment : Comment.block? (c :: rest) = none) (free : Bracket.isBracket c = false) :
      Reads (fun _ => True) before (c :: rest) .other :=
    .other (extent ▸ unclosed) (by simp [comment]) free trivial
  have balanced : Balanced (fun _ => True) Dialect.hash.depthLimit .angle "a 'b>\n".toList
      "a 'b".toList := by
    refine ⟨[.other, .other, .other, .other], ['\n'], 63, ?_, ?_, ?_, rfl⟩
    · refine .cons (other (e := none) rfl (by simp) rfl rfl) ?_
      refine .cons (other (e := none) rfl (by simp) rfl rfl) ?_
      refine .cons (other (e := some .unclosed) rfl (by simp) rfl rfl) ?_
      exact .cons (other (e := none) rfl (by simp) rfl rfl) .nil
    · exact .closing (by simp [AfterStem])
    · exact .plain (by simp) (by simp) (.plain (by simp) (by simp) (.plain (by simp) (by simp)
        (.plain (by simp) (by simp) .nil)))
  have malformed : scan .hash false (.start "#<a 'b>\n".toList) =
      .malformed ⟨.unclosedString, ⟨4, 1, 5⟩⟩ := by
    decide +kernel
  intro found_iff
  cases malformed.symm.trans (found_iff.1 balanced)

end Gloss

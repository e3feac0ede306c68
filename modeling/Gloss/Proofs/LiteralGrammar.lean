import Gloss.Proofs.Spelling

/-!
# The grammar of literals

The reader of literals keeps a stack of layers. This module has the grammar of what it reads, which
knows no stack: `Interior.Holds` says what may stand inside of quotes, of a template and of a
substitution, where templates and substitutions are in one another to any depth, and
`Literal.IsLiteral` puts the quotes around it.

What is left of a literal when some layers are open closes them one after the other, from the
innermost on (`Literal.Closes`). The reader finds its end, and finds none where there is none
(`Literal.close_eq_some_iff`): by induction on the grammar it leaves a layer open over what may
stand inside of it, and by induction on its own steps what it reads is in the grammar. So a literal
is closed exactly where the grammar has it end (`Literal.extent?_grammar`).
-/

namespace Gloss

open Host

/-! ## The grammar -/

/-- The insides of what opens and closes in a literal. -/
inductive Host.Interior : Type
  | quotes (quote : Char)
  | template
  | substitution
deriving DecidableEq, Repr

/-- What may stand inside. In quotes and in templates a backslash hides any character. The code of a
substitution has braces in pairs, literals of its own, and other characters. -/
inductive Host.Interior.Holds : Interior → List Char → Prop
  | nil {i : Interior} : Holds i []
  | hidden {i : Interior} {c : Char} {cs : List Char} :
    i ≠ .substitution → Holds i cs → Holds i ('\\' :: c :: cs)
  | quoted {quote c : Char} {cs : List Char} :
    c ≠ quote → c ≠ '\\' → c ≠ '\n' → Holds (.quotes quote) cs → Holds (.quotes quote) (c :: cs)
  | substitution {code cs : List Char} :
    Holds .substitution code → Holds .template cs →
    Holds .template ('$' :: '{' :: (code ++ '}' :: cs))
  | text {c : Char} {cs : List Char} :
    c ≠ '\x60' → c ≠ '\\' → ¬ (c = '$' ∧ cs.head? = some '{') → Holds .template cs →
    Holds .template (c :: cs)
  | group {code cs : List Char} :
    Holds .substitution code → Holds .substitution cs →
    Holds .substitution ('{' :: (code ++ '}' :: cs))
  | literal {quote : Char} {body cs : List Char} :
    quote = '\'' ∨ quote = '"' → Holds (.quotes quote) body → Holds .substitution cs →
    Holds .substitution (quote :: (body ++ quote :: cs))
  | template {text cs : List Char} :
    Holds .template text → Holds .substitution cs →
    Holds .substitution ('\x60' :: (text ++ '\x60' :: cs))
  | code {c : Char} {cs : List Char} :
    isQuote c = false → c ≠ '{' → c ≠ '}' → Holds .substitution cs → Holds .substitution (c :: cs)

/-- A whole literal with its quotes. -/
inductive Host.Literal.IsLiteral : List Char → Prop
  | quoted {quote : Char} {body : List Char} :
    quote = '\'' ∨ quote = '"' → Interior.Holds (.quotes quote) body →
    IsLiteral (quote :: (body ++ [quote]))
  | template {text : List Char} :
    Interior.Holds .template text → IsLiteral ('\x60' :: (text ++ ['\x60']))

/-! ## Layers and what closes them -/

namespace Host.Layer

/-- What the layer is the inside of. -/
def interior : Layer → Interior
  | quoted quote => .quotes quote
  | template => .template
  | substitution _ => .substitution

/-- The layer that a quote character opens. -/
def ofQuote (quote : Char) : Layer := if quote = '\x60' then template else quoted quote

/-- The layer that is left by the character that closes a part of it. -/
def left : Layer → List Layer
  | substitution (braces + 1) => [substitution braces]
  | _ => []

theorem closer_ne {l : Layer} (proper : l.Proper) :
    l.closer ≠ '\\' ∧ l.closer ≠ '\n' ∧ l.closer ≠ '{' := by
  cases l with
  | quoted quote =>
    have mark : isQuote quote = true := proper
    simp only [isQuote, Bool.or_eq_true, beq_iff_eq] at mark
    rcases mark with (rfl | rfl) | rfl <;> simp [closer]
  | template | substitution => simp [closer]

theorem move_closer {l : Layer} (proper : l.Proper) (after : Option Char) :
    l.move l.closer after = .read l.left := by
  obtain ⟨escape, line, -⟩ := closer_ne proper
  cases l with
  | quoted quote =>
    rw [closer] at escape line
    simp [move, moveQuoted, closer, left, line, escape]
  | template => simp [move, moveTemplate, closer, left]
  | substitution braces => cases braces <;> simp [move, moveSubstitution, closer, left]

@[simp] theorem ofQuote_left (quote : Char) : (ofQuote quote).left = [] := by
  unfold ofQuote
  split <;> rfl

@[simp] theorem ofQuote_closer (quote : Char) : (ofQuote quote).closer = quote := by
  unfold ofQuote
  split
  · next back => exact back.symm
  · rfl

theorem ofQuote_proper {quote : Char} (mark : isQuote quote = true) : (ofQuote quote).Proper := by
  unfold ofQuote
  split
  · trivial
  · exact mark

end Host.Layer

namespace Host.Literal

/-- The text closes the open layers, the innermost first: what stands inside of it, then the
character that closes it. -/
inductive Closes : List Layer → List Char → Prop
  | done : Closes [] []
  | layer {l : Layer} {outer : List Layer} {inside more : List Char} :
    l.interior.Holds inside → Closes (l.left ++ outer) more →
    Closes (l :: outer) (inside ++ l.closer :: more)

variable {l l' : Layer} {layers outer outer' : List Layer} {read length : Nat}
  {c d : Char} {w tail cs : List Char}

/-! ## The reader finds what the grammar has -/

theorem close_read (moves : l.move c cs.head? = .read layers) :
    close (l :: outer) read (c :: cs) = close (layers ++ outer) (read + 1) cs := by
  rw [close, moves]

theorem close_readTwo (moves : l.move c (some d) = .readTwo layers) :
    close (l :: outer) read (c :: d :: cs) = close (layers ++ outer) (read + 2) cs := by
  rw [close, List.head?_cons, moves]

theorem close_closer (proper : l.Proper) (cs : List Char) :
    close (l :: outer) read (l.closer :: cs) = close (l.left ++ outer) (read + 1) cs :=
  close_read (Layer.move_closer proper _)

/-- The text is read and leaves the layers as they are. A brace after it would make a substitution
of a dollar sign at its end. -/
def Passes (layers : List Layer) (w : List Char) : Prop :=
  ∀ read cs, cs.head? ≠ some '{' → close layers read (w ++ cs) = close layers (read + w.length) cs

theorem Passes.cons (after : Passes (l :: outer) w)
    (moves : ∀ cs : List Char, cs.head? ≠ some '{' → l.move c (w ++ cs).head? = .read [l]) :
    Passes (l :: outer) (c :: w) := by
  intro read cs next
  rw [List.cons_append, close_read (moves cs next), List.singleton_append, after _ _ next,
    List.length_cons]
  congr 1
  omega

theorem Passes.hidden (after : Passes (l :: outer) w)
    (moves : l.move '\\' (some c) = .readTwo [l]) :
    Passes (l :: outer) ('\\' :: c :: w) := by
  intro read cs next
  rw [List.cons_append, List.cons_append, close_readTwo moves, List.singleton_append,
    after _ _ next, List.length_cons, List.length_cons]
  congr 1
  omega

/-- An inner layer is opened, read and closed. -/
theorem Passes.enclosed (l' : Layer) (opening : List Char) {inner : List Char} (proper : l'.Proper)
    (back : l'.left ++ outer' = l :: outer)
    (opens : ∀ read rest, close (l :: outer) read (opening ++ rest) =
      close (l' :: outer') (read + opening.length) rest)
    (inside : Passes (l' :: outer') inner) (after : Passes (l :: outer) w) :
    Passes (l :: outer) (opening ++ (inner ++ l'.closer :: w)) := by
  intro read cs next
  have closes : (l'.closer :: (w ++ cs)).head? ≠ some '{' := by
    simpa using (Layer.closer_ne proper).2.2
  rw [List.append_assoc, opens, List.append_assoc, List.cons_append, inside _ _ closes,
    close_closer proper, back, after _ _ next]
  simp only [List.length_append, List.length_cons]
  congr 1
  omega

/-- What the grammar has inside of a layer leaves the layer open. -/
theorem passes_of_holds {i : Interior} (holds : i.Holds w) (inside : l.interior = i) :
    Passes (l :: outer) w := by
  induction holds generalizing l outer with
  | nil => exact fun read cs next => rfl
  | @hidden i c w kind _ ih =>
    refine (ih inside).hidden ?_
    cases l with
    | quoted | template => rfl
    | substitution => exact absurd inside.symm kind
  | @quoted quote c w other escape line _ ih =>
    cases l with
    | quoted quote' =>
      obtain rfl := Interior.quotes.inj inside
      refine (ih rfl).cons fun cs next => ?_
      simp [Layer.move, Layer.moveQuoted, other, escape, line]
    | template | substitution => cases inside
  | @substitution code w _ _ ihCode ih =>
    cases l with
    | template =>
      exact .enclosed (.substitution 0) ['$', '{'] trivial rfl
        (fun read rest => rfl) (ihCode rfl) (ih rfl)
    | quoted | substitution => cases inside
  | @text c w close escape plain _ ih =>
    cases l with
    | template =>
      refine (ih rfl).cons fun cs next => ?_
      have apart : ¬ (c = '$' ∧ (w ++ cs).head? = some '{') := by
        rintro ⟨dollar, brace⟩
        cases w with
        | nil => exact next brace
        | cons d w => exact plain ⟨dollar, brace⟩
      simp only [Layer.move, Layer.moveTemplate, if_neg close, if_neg escape, if_neg apart]
    | quoted | substitution => cases inside
  | @group code w _ _ ihCode ih =>
    cases l with
    | substitution braces =>
      exact .enclosed (.substitution (braces + 1)) ['{'] trivial rfl
        (fun read rest => rfl) (ihCode rfl) (ih rfl)
    | quoted | template => cases inside
  | @literal quote body w mark _ _ ihBody ih =>
    cases l with
    | substitution braces =>
      have proper : (Layer.quoted quote).Proper := by rcases mark with rfl | rfl <;> rfl
      have opens (read : Nat) (rest : List Char) :
          close (.substitution braces :: outer) read ([quote] ++ rest) =
            close (.quoted quote :: .substitution braces :: outer) (read + 1) rest := by
        rcases mark with rfl | rfl <;> rfl
      exact .enclosed (.quoted quote) [quote] proper rfl opens (ihBody rfl) (ih rfl)
    | quoted | template => cases inside
  | @template text w _ _ ihText ih =>
    cases l with
    | substitution braces =>
      exact .enclosed .template ['\x60'] trivial rfl (fun read rest => rfl)
        (ihText rfl) (ih rfl)
    | quoted | template => cases inside
  | @code c w quote opens closes _ ih =>
    cases l with
    | substitution braces =>
      refine (ih rfl).cons fun cs next => ?_
      simp only [isQuote, Bool.or_eq_false_iff, beq_eq_false_iff_ne] at quote
      simp [Layer.move, Layer.moveSubstitution, quote, opens, closes]
    | quoted | template => cases inside

/-- A text that closes the open layers is read to its end. -/
theorem close_of_closes (closes : Closes layers w) (proper : ∀ l ∈ layers, l.Proper) (read : Nat)
    (tail : List Char) : close layers read (w ++ tail) = some (read + w.length) := by
  induction closes generalizing read with
  | done => rw [List.nil_append, close, List.length_nil, Nat.add_zero]
  | @layer l outer inside more holds _ ih =>
    obtain ⟨inner, others⟩ := List.forall_mem_cons.mp proper
    have proper' : ∀ l' ∈ l.left ++ outer, l'.Proper := by
      refine List.forall_mem_append.mpr ⟨fun l' held => ?_, others⟩
      cases l with
      | quoted | template => cases held
      | substitution braces =>
        cases braces with
        | zero => cases held
        | succ braces =>
          obtain rfl := List.mem_singleton.mp held
          trivial
    have next : (l.closer :: (more ++ tail)).head? ≠ some '{' := by
      simpa using (Layer.closer_ne inner).2.2
    rw [List.append_assoc, List.cons_append, passes_of_holds holds rfl _ _ next,
      close_closer inner, ih proper']
    simp only [List.length_append, List.length_cons]
    congr 1
    omega

/-! ## The grammar has what the reader finds -/

theorem Closes.closer (closes : Closes (l.left ++ outer) w) : Closes (l :: outer) (l.closer :: w) :=
  .layer .nil closes

/-- What is put in front of the inside of the innermost layer. -/
theorem Closes.extend (opening : List Char) (closes : Closes (l :: outer) w)
    (holds : ∀ inside more, w = inside ++ l.closer :: more → l.interior.Holds inside →
      l.interior.Holds (opening ++ inside)) : Closes (l :: outer) (opening ++ w) := by
  cases closes with
  | @layer _ _ inside more within later =>
    rw [← List.append_assoc]
    exact .layer (holds inside more rfl within) later

/-- An inner layer with its opening is a part of the inside of the one around it. -/
theorem Closes.enclose (opening : List Char) (closes : Closes (l' :: outer') w)
    (back : l'.left ++ outer' = l :: outer)
    (holds : ∀ inner cs, l'.interior.Holds inner → l.interior.Holds cs →
      l.interior.Holds (opening ++ (inner ++ l'.closer :: cs))) :
    Closes (l :: outer) (opening ++ w) := by
  cases closes with
  | @layer _ _ inner more within later =>
    rw [back] at later
    cases later with
    | @layer _ _ inside more within' later =>
      have parts : opening ++ (inner ++ l'.closer :: (inside ++ l.closer :: more)) =
          (opening ++ (inner ++ l'.closer :: inside)) ++ l.closer :: more := by
        simp
      rw [parts]
      exact .layer (holds inner inside within within') later

/-- A character that is read by itself. -/
theorem closes_of_read (moves : l.move c (w ++ tail).head? = .read layers)
    (closes : Closes (layers ++ outer) w) : Closes (l :: outer) (c :: w) := by
  cases l with
  | quoted quote =>
    simp only [Layer.move, Layer.moveQuoted] at moves
    repeat' split at moves
    all_goals cases moves
    · next escape line close =>
      subst close
      exact closes.closer
    · next escape line other =>
      exact closes.extend [c] fun inside more _ holds => .quoted other escape line holds
  | template =>
    simp only [Layer.move, Layer.moveTemplate] at moves
    repeat' split at moves
    all_goals cases moves
    · next escape close =>
      subst close
      exact closes.closer
    · next escape close plain =>
      refine closes.extend [c] fun inside more whole holds => ?_
      refine .text close escape (fun both => plain ⟨both.1, ?_⟩) holds
      obtain ⟨inside, rfl⟩ := List.head?_eq_some_iff.mp both.2
      rw [whole]
      rfl
  | substitution braces =>
    simp only [Layer.move, Layer.moveSubstitution] at moves
    split at moves
    · next back =>
      cases moves
      subst back
      exact closes.enclose ['\x60'] rfl fun inner cs within within' => .template within within'
    split at moves
    · next mark =>
      cases moves
      exact closes.enclose [c] rfl fun inner cs within within' => .literal mark within within'
    split at moves
    · next opens =>
      cases moves
      subst opens
      exact closes.enclose ['{'] rfl fun inner cs within within' => .group within within'
    split at moves
    · next close =>
      subst close
      cases braces <;> cases moves
      · exact closes.closer
      · exact closes.closer
    · next back mark opens close =>
      cases moves
      have quote : isQuote c = false := by
        rw [not_or] at mark
        simp [isQuote, back, mark.1, mark.2]
      exact closes.extend [c] fun inside more _ holds => .code quote opens close holds

/-- A character that is read together with the one after it. -/
theorem closes_of_readTwo (moves : l.move c (some d) = .readTwo layers)
    (closes : Closes (layers ++ outer) w) : Closes (l :: outer) (c :: d :: w) := by
  cases l with
  | quoted quote =>
    simp only [Layer.move, Layer.moveQuoted] at moves
    split at moves
    · next escape =>
      cases moves
      subst escape
      exact closes.extend ['\\', d] fun inside more _ holds =>
        .hidden (by simp [Layer.interior]) holds
    · repeat' split at moves
      all_goals cases moves
  | template =>
    simp only [Layer.move, Layer.moveTemplate] at moves
    split at moves
    · next escape =>
      cases moves
      subst escape
      exact closes.extend ['\\', d] fun inside more _ holds =>
        .hidden (by simp [Layer.interior]) holds
    split at moves
    · cases moves
    split at moves
    · next opens =>
      cases moves
      obtain ⟨rfl, brace⟩ := opens
      obtain rfl := Option.some.inj brace
      exact closes.enclose ['$', '{'] rfl fun inner cs within within' =>
        .substitution within within'
    · cases moves
  | substitution braces =>
    simp only [Layer.move, Layer.moveSubstitution] at moves
    cases braces <;> repeat' split at moves
    all_goals cases moves

/-- What the reader finds to be the rest of a literal closes the open layers. -/
theorem closes_of_close (closed : close layers read cs = some length) :
    ∃ w tail, cs = w ++ tail ∧ Closes layers w ∧ length = read + w.length := by
  fun_induction close layers read cs with
  | case1 => exact ⟨[], _, rfl, .done, (Option.some.inj closed).symm⟩
  | case2 | case4 | case6 => cases closed
  | case3 l outer read c rest layers moves ih =>
    obtain ⟨w, tail, rfl, closes, rfl⟩ := ih closed
    refine ⟨c :: w, tail, rfl, closes_of_read moves closes, ?_⟩
    rw [List.length_cons]
    omega
  | case5 l outer read c layers d rest moves ih =>
    obtain ⟨w, tail, rfl, closes, rfl⟩ := ih closed
    refine ⟨c :: d :: w, tail, rfl, closes_of_readTwo moves closes, ?_⟩
    rw [List.length_cons, List.length_cons]
    omega

/-- The reader finds the end of the open layers, and none if they have no end. -/
theorem close_eq_some_iff (proper : ∀ l ∈ layers, l.Proper) :
    close layers read cs = some length ↔
      ∃ w tail, cs = w ++ tail ∧ Closes layers w ∧ length = read + w.length := by
  refine ⟨closes_of_close, ?_⟩
  rintro ⟨w, tail, rfl, closes, rfl⟩
  exact close_of_closes closes proper read tail

/-! ## Whole literals -/

/-- A literal is the inside of what its quote opens between two of its quotes. -/
theorem isLiteral_iff : IsLiteral w ↔ ∃ quote inside, isQuote quote = true ∧
    (Layer.ofQuote quote).interior.Holds inside ∧ w = quote :: (inside ++ [quote]) := by
  constructor
  · rintro (⟨mark, holds⟩ | ⟨holds⟩)
    · refine ⟨_, _, ?_, ?_, rfl⟩ <;> rcases mark with rfl | rfl
      exacts [rfl, rfl, holds, holds]
    · exact ⟨'\x60', _, rfl, holds, rfl⟩
  · rintro ⟨quote, inside, mark, holds, rfl⟩
    unfold Layer.ofQuote at holds
    split at holds
    · next back =>
      subst back
      exact .template holds
    · next other =>
      refine .quoted ?_ holds
      simpa [isQuote, other] using mark

theorem closes_ofQuote_iff {quote : Char} : Closes [.ofQuote quote] w ↔
    ∃ inside, (Layer.ofQuote quote).interior.Holds inside ∧ w = inside ++ [quote] := by
  constructor
  · intro closes
    cases closes with
    | @layer _ _ inside more holds later =>
      rw [Layer.ofQuote_left] at later
      cases later
      exact ⟨inside, holds, by rw [Layer.ofQuote_closer]⟩
  · rintro ⟨inside, holds, rfl⟩
    have closes : Closes [Layer.ofQuote quote] (inside ++ (Layer.ofQuote quote).closer :: []) :=
      .layer holds (by rw [Layer.ofQuote_left]; exact .done)
    rwa [Layer.ofQuote_closer] at closes

theorem extent?_cons {quote : Char} (mark : isQuote quote = true) (rest : List Char) :
    extent? (quote :: rest) = some (.ofEnd (close [.ofQuote quote] 1 rest)) := by
  simp only [isQuote, Bool.or_eq_true, beq_iff_eq] at mark
  rcases mark with (rfl | rfl) | rfl <;> rfl

/-- An initial part of a text is the literal that starts there when it is one by the grammar. -/
theorem extent?_eq_closed_iff {quote : Char} {rest : List Char} (mark : isQuote quote = true)
    (part : w <+: quote :: rest) :
    extent? (quote :: rest) = some (.closed w.length) ↔ IsLiteral w := by
  have proper : ∀ l ∈ [Layer.ofQuote quote], l.Proper :=
    List.forall_mem_singleton.mpr (Layer.ofQuote_proper mark)
  rw [extent?_cons mark, isLiteral_iff, Option.some_inj, ofEnd_eq_closed,
    close_eq_some_iff proper]
  constructor
  · rintro ⟨w', tail, rfl, closes, size⟩
    obtain ⟨inside, holds, rfl⟩ := closes_ofQuote_iff.mp closes
    have same : w = quote :: (inside ++ [quote]) := by
      refine List.IsPrefix.eq_of_length ?_ (by simp [size]; omega)
      exact List.prefix_of_prefix_length_le part (List.prefix_append _ tail) (by simp [size]; omega)
    exact ⟨quote, inside, mark, holds, same⟩
  · rintro ⟨quote', inside, -, holds, rfl⟩
    obtain ⟨tail, whole⟩ := part
    obtain ⟨rfl, rfl⟩ := List.cons.inj whole
    exact ⟨_, tail, rfl, closes_ofQuote_iff.mpr ⟨inside, holds, rfl⟩, by simp; omega⟩

end Host.Literal

/-! ## Where a construct stops -/

/-- The offset at which a construct of the given extent is closed. -/
def Cursor.stop? (c : Cursor) : Extent → Option Nat
  | .closed length => some (c.advance length).offset
  | .unclosed => none

namespace Cursor

variable {source : String} {c : Cursor} {stop : Nat}

/-- What a span that starts at a boundary covers is the text that follows the boundary. -/
theorem IsBoundary.covers_iff {text : String} (boundary : c.IsBoundary source.toList) :
    Span.Covers ⟨c.offset, stop⟩ source text ↔
      text.toList <+: c.rest ∧ stop = c.offset + Text.width text.toList := by
  constructor
  · intro covers
    obtain ⟨past, whole, here⟩ := boundary.exists_append
    obtain ⟨before, after, parts, start, stop⟩ := Span.covers_iff.mp covers
    obtain ⟨-, rest⟩ := Text.append_inj_of_width (whole.symm.trans parts) (here.symm.trans start)
    exact ⟨⟨after, rest.symm⟩, stop⟩
  · rintro ⟨⟨after, rest⟩, rfl⟩
    have covers := boundary.covers text.toList.length
    rwa [span, lexeme, advance_offset, ← rest, List.take_left, String.ofList_toList] at covers

/-- A construct stops where a text of its length ends. -/
theorem IsBoundary.stop?_eq_some_iff {e : Extent} (boundary : c.IsBoundary source.toList)
    (inside : ∀ length, e = .closed length → length ≤ c.rest.length) :
    c.stop? e = some stop ↔
      ∃ text, Span.Covers ⟨c.offset, stop⟩ source text ∧ e = .closed text.toList.length := by
  constructor
  · intro stops
    cases e with
    | unclosed => cases stops
    | closed length =>
      obtain rfl := Option.some.inj stops
      refine ⟨c.lexeme length, boundary.covers length, ?_⟩
      rw [lexeme, String.toList_ofList, List.length_take_of_le (inside length rfl)]
  · rintro ⟨text, covers, rfl⟩
    obtain ⟨⟨after, rest⟩, rfl⟩ := boundary.covers_iff.mp covers
    rw [stop?, advance_offset, ← rest, List.take_left]

end Cursor

namespace Host.Literal

/-- How the literal that starts at a place of a text is read. -/
structure ReadAs (source : String) (c : Cursor) (e : Extent) : Prop where
  found : extent? c.rest = some e
  /-- Read byte by byte it ends at the same place. -/
  octets : extent? (Text.octets c.rest) = some (e.inBytes c.rest)
  closed : ∀ stop, c.stop? e = some stop ↔
    ∃ text, Span.Covers ⟨c.offset, stop⟩ source text ∧ IsLiteral text.toList
  unclosed : e = .unclosed ↔ ∀ w, w <+: c.rest → ¬ IsLiteral w
  unique : ∀ w w', w <+: c.rest → w' <+: c.rest → IsLiteral w → IsLiteral w' → w = w'

/-- What starts with a quote character is closed at an end exactly when the text up to there is a
literal of the grammar, and left open exactly when no text from there on is one. -/
theorem extent?_grammar {source : String} {c : Cursor} (boundary : c.IsBoundary source.toList)
    (quote : c.rest.head?.any isQuote = true) : ∃ e, ReadAs source c e := by
  obtain ⟨mark, head, quote⟩ := (Option.any_eq_true _ _).mp quote
  obtain ⟨rest, here⟩ := List.head?_eq_some_iff.mp head
  have whole (w : List Char) (part : w <+: c.rest) :
      extent? c.rest = some (.closed w.length) ↔ IsLiteral w := by
    rw [here] at part ⊢
    exact extent?_eq_closed_iff quote part
  obtain ⟨e, found⟩ : ∃ e, extent? c.rest = some e :=
    ⟨_, by rw [here]; exact extent?_cons quote rest⟩
  have inside (length : Nat) (closed : e = .closed length) : length ≤ c.rest.length :=
    (extent?_closed_le (closed ▸ found)).2
  refine ⟨e, found, ?_, fun stop => ?_, ?_, fun w w' part part' literal literal' => ?_⟩
  · rw [extent?_octets, found]
    rfl
  · rw [boundary.stop?_eq_some_iff inside]
    refine exists_congr fun text => and_congr_right fun covers => ?_
    rw [← whole _ (boundary.covers_iff.mp covers).1, found, Option.some_inj]
  · constructor
    · rintro rfl w part literal
      have closed := (whole w part).mpr literal
      rw [found] at closed
      cases closed
    · intro none
      cases e with
      | unclosed => rfl
      | closed length =>
        have part := List.take_prefix length c.rest
        refine absurd ((whole _ part).mp ?_) (none _ part)
        rw [found, List.length_take_of_le (inside length rfl)]
  · have size := (whole w part).mpr literal
    rw [(whole w' part').mpr literal'] at size
    have size : w'.length = w.length := Extent.closed.inj (Option.some.inj size)
    have nested := List.prefix_of_prefix_length_le part part' (Nat.le_of_eq size.symm)
    exact nested.eq_of_length size.symm

/-- A template with a brace in quotes in its substitution, and an escaped character of two bytes. -/
theorem extent?_grammar_nested :
    (Cursor.between "x".toList "\x60$\x7b'\x7d'\x7d\\é\x60)".toList).IsBoundary
        "x\x60$\x7b'\x7d'\x7d\\é\x60)".toList ∧
      (Cursor.between "x".toList "\x60$\x7b'\x7d'\x7d\\é\x60)".toList).rest.head?.any isQuote =
        true ∧
      ∃ e, ReadAs "x\x60$\x7b'\x7d'\x7d\\é\x60)"
        (.between "x".toList "\x60$\x7b'\x7d'\x7d\\é\x60)".toList) e ∧ e = .closed 10 := by
  have boundary : (Cursor.between "x".toList "\x60$\x7b'\x7d'\x7d\\é\x60)".toList).IsBoundary
      "x\x60$\x7b'\x7d'\x7d\\é\x60)".toList := Cursor.isBoundary_between _ _
  have quote : (Cursor.between "x".toList
      "\x60$\x7b'\x7d'\x7d\\é\x60)".toList).rest.head?.any isQuote = true := by
    decide +kernel
  obtain ⟨e, read⟩ := extent?_grammar boundary quote
  have found : extent? (Cursor.between "x".toList "\x60$\x7b'\x7d'\x7d\\é\x60)".toList).rest =
      some (.closed 10) := by
    decide +kernel
  exact ⟨boundary, quote, e, read, Option.some.inj (read.found.symm.trans found)⟩

end Host.Literal

end Gloss

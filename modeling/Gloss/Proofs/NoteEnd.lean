import Gloss.Proofs.Balance
import Gloss.Proofs.Safety

/-!
# Where an annotation ends

An annotation is read the same in front of another text, if that text is the
first one up to a slash and has a space in its place (`Note.scan_append`). A block
or a quoted payload ends without a look at what comes after it
(`Block.close_append`); a word, its flags and a hashbang line look at one
character more, and a blank ends the first two as a slash does. A hashbang line
holds every slash up to its end, so the texts part after the line.
-/

namespace Gloss

open Host

/-- The two texts are the same, or they part where the first has a slash and the second a space. -/
def PartAtSlash (tail tail' : List Char) : Prop :=
  tail' = tail ∨ ∃ shared more more', tail = shared ++ '/' :: more ∧ tail' = shared ++ ' ' :: more'

namespace PartAtSlash

variable {tail tail' : List Char}

/-- The second text starts with a blank or as the first does. -/
theorem head (part : PartAtSlash tail tail') {c : Char} (first : tail'.head? = some c) :
    Text.isBlank c = true ∨ tail.head? = some c := by
  rcases part with rfl | ⟨shared, more, more', rfl, rfl⟩
  · exact .inr first
  · cases shared with
    | nil =>
      obtain rfl := Option.some.inj first
      exact .inl (by decide)
    | cons s shared => exact .inr first

theorem keepsApart (part : PartAtSlash tail tail') (w : List Char) : KeepsApart w tail tail' :=
  fun _ _ _ _ first => part.head first

theorem eq_nil (part : PartAtSlash tail tail') (end_ : tail = []) : tail' = [] := by
  rcases part with rfl | ⟨shared, more, more', rfl, -⟩
  · exact end_
  · simp at end_

theorem prepend (part : PartAtSlash tail tail') (w : List Char) :
    PartAtSlash (w ++ tail) (w ++ tail') := by
  rcases part with rfl | ⟨shared, more, more', rfl, rfl⟩
  · exact .inl rfl
  · exact .inr ⟨w ++ shared, more, more', by simp, by simp⟩

/-- A run of characters that are no blanks ends where it ended. -/
theorem takeWhile {p : Char → Bool} (part : PartAtSlash tail tail')
    (unspaced : ∀ c, Text.isBlank c = true → p c = false) {w : List Char}
    (run : (w ++ tail).takeWhile p = w) : (w ++ tail').takeWhile p = w := by
  obtain ⟨member, stops⟩ := takeWhile_append_eq_left.mp run
  refine takeWhile_append_eq_left.mpr ⟨member, fun c first => ?_⟩
  rcases part.head first with blank | first
  · exact unspaced c blank
  · exact stops c first

theorem identifierRun (part : PartAtSlash tail tail') {w : List Char}
    (run : Host.identifierRun (w ++ tail) = w.length) :
    Host.identifierRun (w ++ tail') = w.length := by
  rw [Host.identifierRun, part.takeWhile (fun c => isIdentifierPart_of_isBlank)
    (takeWhile_of_length run)]

end PartAtSlash

/-! ## Flags -/

namespace Marker

theorem le_read (m : Marker) (length : Nat) (cs : List Char) : length ≤ (m.read length cs).2 := by
  fun_induction read m length cs with
  | case1 | case4 => exact Nat.le_refl _
  | case2 _ _ _ _ _ ih | case3 _ _ _ _ _ _ ih => omega

/-- Where no flag is read, none is read at a blank either. -/
theorem read_stops {m : Marker} {length : Nat} {tail tail' : List Char}
    (part : PartAtSlash tail tail') (stops : (m.read length tail).2 = length) :
    m.read length tail' = m.read length tail := by
  have stopped {cs : List Char} (none : ∀ c, cs.head? = some c →
      ¬ (c = '?' ∧ m.optional = false) ∧ ¬ (c = '!' ∧ m.nonNull = false)) :
      m.read length cs = (m, length) := by
    cases cs with
    | nil => rfl
    | cons c cs =>
      obtain ⟨optional, nonNull⟩ := none c rfl
      rw [read, if_neg optional, if_neg nonNull]
  have none : ∀ c, tail.head? = some c →
      ¬ (c = '?' ∧ m.optional = false) ∧ ¬ (c = '!' ∧ m.nonNull = false) := by
    intro c first
    obtain ⟨more, rfl⟩ := List.head?_eq_some_iff.mp first
    constructor <;> intro flag
    · have longer := le_read { m with optional := true } (length + 1) more
      rw [read, if_pos flag] at stops
      omega
    · have other : ¬ (c = '?' ∧ m.optional = false) := by
        rintro ⟨rfl, -⟩
        exact absurd flag.1 (by decide)
      have longer := le_read { m with nonNull := true } (length + 1) more
      rw [read, if_neg other, if_pos flag] at stops
      omega
  rw [stopped none]
  refine stopped fun c first => ?_
  rcases part.head first with blank | first
  · constructor <;> rintro ⟨rfl, -⟩ <;> exact absurd blank (by decide)
  · exact none c first

theorem read_append {m : Marker} {length : Nat} {w tail tail' : List Char}
    (part : PartAtSlash tail tail') (flags : (m.read length (w ++ tail)).2 = length + w.length) :
    m.read length (w ++ tail') = m.read length (w ++ tail) := by
  induction w generalizing m length with
  | nil => exact read_stops part flags
  | cons c w ih =>
    rw [List.length_cons, Nat.add_comm w.length, ← Nat.add_assoc] at flags
    simp only [List.cons_append, read] at flags ⊢
    split
    · next optional =>
      rw [if_pos optional] at flags
      exact ih flags
    · next optional =>
      rw [if_neg optional] at flags
      split
      · next nonNull =>
        rw [if_pos nonNull] at flags
        exact ih flags
      · rfl

/-- Flags are read the same in front of the second text. -/
theorem run_append {w tail tail' : List Char} (part : PartAtSlash tail tail')
    (flags : (run (w ++ tail)).2 = w.length) : run (w ++ tail') = run (w ++ tail) := by
  have count (cs : List Char) : (run cs).2 = (Marker.none.read 0 cs).2 := by
    unfold run
    split <;> simp_all
  rw [count] at flags
  rw [run, read_append part (by rw [flags, Nat.zero_add]), run]

end Marker

/-! ## Blocks -/

namespace Host.Comment

theorem two_le_of_close {read length : Nat} {cs : List Char}
    (closed : close read cs = some length) :
    read + 2 ≤ length := by
  fun_induction close read cs with
  | case1 => cases closed
  | case2 => exact Nat.le_of_eq (Option.some.inj closed)
  | case3 _ _ _ _ ih => exact Nat.le_of_succ_le (by have := ih closed; omega)

/-- A comment ends without a look at what comes after it. -/
theorem close_append {read length : Nat} {w tail : List Char}
    (closed : close read (w ++ tail) = some length) (inside : length ≤ read + w.length)
    (tail' : List Char) : close read (w ++ tail') = some length := by
  have bound := two_le_of_close closed
  induction w generalizing read with
  | nil =>
    rw [List.length_nil] at inside
    omega
  | cons c w ih =>
    rw [List.length_cons] at inside
    obtain ⟨d, w, rfl⟩ : ∃ d more, w = d :: more :=
      List.exists_cons_of_length_pos (by omega)
    have head (tail : List Char) : (d :: w ++ tail).head? = some d := rfl
    rw [List.cons_append, close, head] at closed ⊢
    split
    · next closes => rwa [if_pos closes] at closed
    · next open_ =>
      rw [if_neg open_] at closed
      exact ih closed (by omega) (two_le_of_close closed)

theorem block?_eq_none {c : Char} {cs : List Char} :
    block? (c :: cs) = none ↔ ¬ (c = '/' ∧ cs.head? = some '*') := by
  unfold block?
  split
  · next rest text =>
    obtain ⟨rfl, rfl⟩ := List.cons.inj text
    simp
  · next other =>
    refine iff_of_true rfl ?_
    rintro ⟨rfl, head⟩
    obtain ⟨more, rfl⟩ := List.head?_eq_some_iff.mp head
    exact other more rfl

theorem block?_closed_append {length : Nat} {w tail : List Char}
    (closed : block? (w ++ tail) = some (.closed length)) (inside : length ≤ w.length)
    (tail' : List Char) : block? (w ++ tail') = some (.closed length) := by
  unfold block? at closed
  split at closed
  · next rest text =>
    have end_ := Literal.ofEnd_eq_closed.mp (Option.some.inj closed)
    have bound := two_le_of_close end_
    match w, text with
    | c :: d :: w, text =>
      obtain ⟨rfl, more⟩ := List.cons.inj text
      obtain ⟨rfl, rfl⟩ := List.cons.inj more
      rw [List.length_cons, List.length_cons] at inside
      show some (Extent.ofEnd (close 2 (w ++ tail'))) = _
      rw [close_append end_ (by omega) tail', Extent.ofEnd]
    | [c], _ =>
      rw [List.length_singleton] at inside
      omega
    | [], _ =>
      rw [List.length_nil] at inside
      omega
  · cases closed

end Host.Comment

namespace Block

variable {prev : Option Char} {w tail tail' : List Char} {item : Item}

/-- An item that is followed by one more character of the text is read the same. -/
theorem item?_append (found : item? prev (w ++ tail) = some item)
    (closed : item ≠ .unclosedLiteral ∧ item ≠ .unclosedComment) (inside : item.length < w.length)
    (tail' : List Char) : item? prev (w ++ tail') = some item := by
  cases w with
  | nil => cases inside
  | cons c w =>
  rw [List.length_cons] at inside
  rw [List.cons_append, item?] at found ⊢
  split at found
  · next length literal =>
    obtain rfl := Option.some.inj found
    have pos := (Literal.extent?_closed_le literal).1
    obtain ⟨u, v, rfl, size⟩ : ∃ u v, w = u ++ v ∧ length = u.length + 1 := by
      refine ⟨w.take (length - 1), w.drop (length - 1), (List.take_append_drop ..).symm, ?_⟩
      rw [Item.length] at inside
      rw [List.length_take]
      omega
    rw [size, List.append_assoc] at literal
    rw [List.append_assoc, Literal.extent?_closed_append literal, size]
  · exact absurd (Option.some.inj found).symm closed.1
  · next plain =>
    rw [Literal.extent?_eq_none.mpr (Literal.extent?_eq_none.mp plain)]
    dsimp only
    split at found
    · next length comment =>
      obtain rfl := Option.some.inj found
      rw [Item.length] at inside
      have more : Comment.block? (c :: w ++ tail') = some (.closed length) :=
        Comment.block?_closed_append comment (by rw [List.length_cons]; omega) tail'
      rw [← List.cons_append, more]
    · exact absurd (Option.some.inj found).symm closed.2
    · next other =>
      obtain rfl := Option.some.inj found
      rw [charItem_length] at inside
      obtain ⟨d, w, rfl⟩ : ∃ d more, w = d :: more :=
        List.exists_cons_of_length_pos (by omega)
      have apart : ¬ (c = '/' ∧ (d :: w ++ tail).head? = some '*') :=
        Comment.block?_eq_none.mp other
      have none : Comment.block? (c :: (d :: w ++ tail')) = none :=
        Comment.block?_eq_none.mpr apart
      rw [none]

/-- A closing bracket is read without a look at what comes after it. -/
theorem item?_closing_append {c : Char} {b : Bracket} {rest : List Char}
    (found : item? prev (c :: rest) = some (.closing b)) (rest' : List Char) :
    item? prev (c :: rest') = some (.closing b) := by
  rw [item?] at found ⊢
  split at found
  · cases found
  · cases found
  next plain =>
  rw [Literal.extent?_eq_none.mpr (Literal.extent?_eq_none.mp plain)]
  dsimp only
  split at found
  · cases found
  · cases found
  have other : c ≠ '/' := by
    rintro rfl
    have item : charItem prev '/' = .other := by
      rw [charItem, if_neg (by simp)]
      rfl
    rw [item] at found
    cases found
  rw [Comment.block?_eq_none.mpr fun opens => other opens.1]
  exact found

theorem le_close {limit read length : Nat} {own : Bracket} {start : Position}
    {stack : List Bracket} {c : Cursor}
    (closed : close limit own start stack read c = .ok length) : read ≤ length := by
  fun_induction close limit own start stack read c with
  | case1 => cases closed
  | case2 stack read c item found stack' go ih =>
    have := ih closed
    omega
  | case3 => exact Nat.le_of_eq (Except.ok.inj closed)
  | case4 => cases closed

/-- A block ends without a look at what comes after its bracket. -/
theorem close_append {limit read length : Nat} {own : Bracket} {start start' : Position}
    {stack : List Bracket} {c c' : Cursor}
    (closed : close limit own start stack read c = .ok length) (here : c.rest = w ++ tail)
    (inside : length < read + w.length) (prev : c'.prev = c.prev)
    (here' : c'.rest = w ++ tail') : close limit own start' stack read c' = .ok length := by
  fun_induction close limit own start stack read c generalizing c' w with
  | case1 => cases closed
  | case2 stack read c item found stack' go ih =>
    have bound := le_close closed
    have short : item.length < w.length := by omega
    rw [here] at found
    have found' : item? c'.prev c'.rest = some item := by
      rw [here', prev]
      exact item?_append found (not_unclosed_of_go go) short tail'
    obtain ⟨u, v, rfl, size⟩ : ∃ u v, w = u ++ v ∧ item.length = u.length := by
      refine ⟨w.take item.length, w.drop item.length, (List.take_append_drop ..).symm, ?_⟩
      rw [List.length_take]
      omega
    rw [List.append_assoc] at here here'
    rw [List.length_append] at inside
    rw [close_go found' go, size]
    rw [size] at closed ih
    refine ih closed (Cursor.rest_advance_append here) (by omega) ?_
      (Cursor.rest_advance_append here')
    rw [Cursor.advance_prev, Cursor.advance_prev, here, here', List.take_left, List.take_left, prev]
  | case3 stack read c item found done =>
    obtain rfl := Except.ok.inj closed
    obtain ⟨d, w, rfl⟩ := List.exists_cons_of_length_pos (l := w) (by omega)
    rw [here, (judge_done.mp done).2] at found
    refine close_done ?_ done
    rw [here', prev, (judge_done.mp done).2]
    exact item?_closing_append found _
  | case4 => cases closed

end Block

/-! ## Lines -/

theorem takeWhile_append_of_lt {p : Char → Bool} {u tail tail' : List Char}
    (short : ((u ++ tail).takeWhile p).length < u.length) :
    (u ++ tail').takeWhile p = (u ++ tail).takeWhile p := by
  rw [List.takeWhile_append] at short ⊢
  rw [List.takeWhile_append]
  split
  · next whole =>
    rw [if_pos whole, List.length_append] at short
    omega
  · rfl

/-- A line whose body ends here ends in what the two texts share: a slash is no line feed. -/
theorem Note.line_append {w tail tail' : List Char} (part : PartAtSlash tail tail')
    (body : (lineBody (w ++ tail)).length = w.length) :
    (w ++ tail').takeWhile (· ≠ '\n') = (w ++ tail).takeWhile (· ≠ '\n') := by
  rcases part with rfl | ⟨shared, more, more', rfl, rfl⟩
  · rfl
  rw [← List.append_assoc] at body
  rw [← List.append_assoc, ← List.append_assoc]
  by_cases short : ((w ++ shared ++ '/' :: more).takeWhile (· ≠ '\n')).length < (w ++ shared).length
  · exact takeWhile_append_of_lt short
  -- the line would hold the slash, and its body more than the first part
  exfalso
  have whole : ((w ++ shared).takeWhile (· ≠ '\n')).length = (w ++ shared).length := by
    rw [List.takeWhile_append] at short
    split at short
    · assumption
    · have := (List.takeWhile_sublist (· ≠ '\n') (l := w ++ shared)).length_le
      omega
  have line : (w ++ shared ++ '/' :: more).takeWhile (· ≠ '\n') =
      w ++ shared ++ '/' :: more.takeWhile (· ≠ '\n') := by
    rw [List.takeWhile_append, if_pos whole]
    rfl
  rw [lineBody, line] at body
  split at body
  · next return_ =>
    rw [List.length_dropLast, List.length_append, List.length_append, List.length_cons] at body
    have slash : more.takeWhile (· ≠ '\n') = [] := List.length_eq_zero_iff.mp (by omega)
    rw [slash, List.getLast?_concat] at return_
    exact absurd (Option.some.inj return_) (by decide)
  · rw [List.length_append, List.length_append, List.length_cons] at body
    omega

/-! ## The annotation -/

section Scan

variable {d : Dialect} {memberStart : Bool} {c c' : Cursor} {a : Note} {tail tail' : List Char}

/-- What is cut out of two texts is the same when they are the same there. -/
theorem Note.cut_congr {u : List Char} {form : Form} {opening payload closing : Nat}
    {marker : Option Marker} (offset : c'.offset = c.offset) (here : c.rest = u ++ tail)
    (here' : c'.rest = u ++ tail') (inside : opening + payload + closing ≤ u.length) :
    cut c' form opening payload closing marker = cut c form opening payload closing marker := by
  have same (n : Nat) (le : n ≤ u.length) : c'.rest.take n = c.rest.take n := by
    rw [here, here', List.take_append_of_le_length le, List.take_append_of_le_length le]
  have place (n : Nat) (le : n ≤ u.length) : (c'.advance n).offset = (c.advance n).offset := by
    rw [Cursor.advance_offset, Cursor.advance_offset, offset, same n le]
  have text : (c'.advance opening).lexeme payload = (c.advance opening).lexeme payload := by
    rw [Cursor.lexeme, Cursor.lexeme, Cursor.advance_rest, Cursor.advance_rest, List.take_drop,
      List.take_drop, same _ (by omega)]
  unfold cut Cursor.span
  rw [text, offset, place _ inside, place opening (by omega), Cursor.advance_advance,
    Cursor.advance_advance, place _ (by omega)]

theorem Note.flagged_append {form : Form} {opening payload : Nat} {b flags : List Char}
    (part : PartAtSlash tail tail') (offset : c'.offset = c.offset)
    (here : c.rest = b ++ (flags ++ tail)) (here' : c'.rest = b ++ (flags ++ tail'))
    (size : b.length = opening + payload)
    (found : flagged c form opening payload = .found a (b.length + flags.length)) :
    flagged c' form opening payload = .found a (b.length + flags.length) := by
  have count := (Scan.found.inj found).2
  rw [flagged, here, ← size, List.drop_left] at found
  rw [here, ← size, List.drop_left, Nat.add_left_cancel_iff] at count
  rw [flagged, here', ← size, List.drop_left, Marker.run_append part count, ← found]
  rw [← List.append_assoc] at here here'
  rw [cut_congr offset here here' (by rw [List.length_append]; omega)]

/-- A word or a special character is found after the opening: a word neither after a full stop nor
where a member name is expected. -/
theorem Note.scanWord_eq_found {length : Nat} :
    scanWord d memberStart c = .found a length ↔
      ∃ x more, c.rest.drop (wordOpening d c) = x :: more ∧
        ((isIdentifierStart x = true ∧ c.prev ≠ some '.' ∧
            ¬ (memberStart = true ∧ wordOpening d c = 1) ∧
            flagged c .word (wordOpening d c) (1 + identifierRun more) = .found a length) ∨
          (isIdentifierStart x = false ∧ d.isSpecial x = true ∧
            flagged c .special (wordOpening d c) 1 = .found a length)) := by
  unfold scanWord
  split
  · next none => simp [none]
  · next x more text =>
    simp only [text, List.cons.injEq, ↓existsAndEq, true_and]
    split
    · next word =>
      simp only [word, true_and, Bool.true_eq_false, false_and, or_false]
      split
      · next dot => simp [dot]
      split
      · next member => simp [member]
      · next dot member => simp [dot, member]
    · next other =>
      rw [Bool.not_eq_true] at other
      simp only [other, Bool.false_eq_true, false_and, true_and, false_or]
      split
      · next special => simp [special]
      · next plain => simp [plain]

theorem Note.scanWord_append {u : List Char} (part : PartAtSlash tail tail')
    (offset : c'.offset = c.offset) (dot : c'.prev = some '.' ↔ c.prev = some '.')
    (opening : wordOpening d c' = wordOpening d c)
    (here : c.rest = u ++ tail) (here' : c'.rest = u ++ tail')
    (found : scanWord d memberStart c = .found a u.length) :
    scanWord d memberStart c' = .found a u.length := by
  obtain ⟨x, more, text, forms⟩ := scanWord_eq_found.mp found
  -- the opening, the payload and the flags are all in the shared text
  have total {form : Form} {payload : Nat} (pos : 0 < payload)
      (found : flagged c form (wordOpening d c) payload = .found a u.length) :
      ∃ b v, u = b ++ x :: v ∧ b.length = wordOpening d c ∧ more = v ++ tail ∧
        payload ≤ v.length + 1 := by
    have size := (Scan.found.inj found).2
    obtain ⟨b, v, rfl, long⟩ : ∃ b v, u = b ++ v ∧ b.length = wordOpening d c := by
      refine ⟨u.take (wordOpening d c), u.drop (wordOpening d c),
        (List.take_append_drop ..).symm, ?_⟩
      rw [List.length_take]
      omega
    rw [List.length_append] at size
    rw [here, List.append_assoc, ← long, List.drop_left] at text
    obtain ⟨y, v, rfl⟩ := List.exists_cons_of_length_pos (l := v) (by omega)
    obtain ⟨rfl, rfl⟩ := List.cons.inj text
    rw [List.length_cons] at size
    exact ⟨b, v, rfl, long, rfl, by omega⟩
  have again {form : Form} {b i flags : List Char} (whole : u = b ++ x :: (i ++ flags))
      (long : b.length = wordOpening d c)
      (found : flagged c form (wordOpening d c) (1 + i.length) = .found a u.length) :
      flagged c' form (wordOpening d c') (1 + i.length) = .found a u.length := by
    have parts (tail : List Char) : u ++ tail = b ++ x :: i ++ (flags ++ tail) := by
      rw [whole]
      simp
    have size : u.length = (b ++ x :: i).length + flags.length := by
      rw [whole]
      simp
      omega
    rw [parts] at here here'
    rw [size] at found ⊢
    rw [opening]
    refine flagged_append part offset here here' ?_ found
    rw [List.length_append, List.length_cons, long, Nat.add_comm i.length]
  refine scanWord_eq_found.mpr ?_
  rcases forms with ⟨word, noDot, noMember, found⟩ | ⟨other, special, found⟩
  · obtain ⟨b, v, whole, long, rfl, inside⟩ := total (by omega) found
    obtain ⟨i, flags, rfl, run⟩ : ∃ i flags, v = i ++ flags ∧
        identifierRun (v ++ tail) = i.length := by
      refine ⟨v.take (identifierRun (v ++ tail)), v.drop (identifierRun (v ++ tail)),
        (List.take_append_drop ..).symm, ?_⟩
      rw [List.length_take]
      omega
    have run' : identifierRun (i ++ flags ++ tail') = i.length := by
      rw [List.append_assoc] at run ⊢
      exact (part.prepend flags).identifierRun run
    refine ⟨x, i ++ flags ++ tail', ?_, .inl ⟨word, fun is_dot => noDot (dot.mp is_dot), ?_, ?_⟩⟩
    · rw [here', opening, ← long, whole, List.append_assoc, List.drop_left]
      rfl
    · rwa [opening]
    · rw [run] at found
      rw [run']
      exact again whole long found
  · obtain ⟨b, v, whole, long, rfl, -⟩ := total Nat.one_pos found
    refine ⟨x, v ++ tail', ?_, .inr ⟨other, special, ?_⟩⟩
    · rw [here', opening, ← long, whole, List.append_assoc, List.drop_left]
      rfl
    · exact again (i := []) whole long found

theorem Note.scanHashbang_append {first e : Char} {w : List Char} (part : PartAtSlash tail tail')
    (offset : c'.offset = c.offset) (here : c.rest = first :: e :: (w ++ tail))
    (here' : c'.rest = first :: e :: (w ++ tail')) (marker : Char)
    (found : scanHashbang marker c = .found a (w.length + 2)) :
    scanHashbang marker c' = .found a (w.length + 2) := by
  have body : c.rest.drop 2 = w ++ tail := by rw [here]; rfl
  have body' : c'.rest.drop 2 = w ++ tail' := by rw [here']; rfl
  rw [scanHashbang, body] at found
  rw [scanHashbang, body']
  split at found
  · cases found
  next whole =>
  have size : (lineBody (w ++ tail)).length = w.length := by
    have := (Scan.found.inj found).2
    omega
  have line := line_append part size
  have same : lineBody (w ++ tail') = lineBody (w ++ tail) := by
    rw [lineBody, lineBody, line]
  rw [line, if_neg whole, same, ← found, size]
  congr 1
  refine cut_congr (u := first :: e :: w) offset here here' ?_
  rw [List.length_cons, List.length_cons]
  omega

theorem Note.scanBlock_append {own : Bracket} {first e : Char} {w : List Char}
    (offset : c'.offset = c.offset) (here : c.rest = first :: e :: (w ++ tail))
    (here' : c'.rest = first :: e :: (w ++ tail'))
    (found : scanBlock d own c = .found a (w.length + 2)) :
    scanBlock d own c' = .found a (w.length + 2) := by
  unfold scanBlock at found ⊢
  split at found
  · cases found
  next deep =>
  split at found
  · next payload closed =>
    have size := (Scan.found.inj found).2
    have body : (c.advance 2).rest = w ++ tail := by rw [Cursor.advance_rest, here]; rfl
    have body' : (c'.advance 2).rest = w ++ tail' := by rw [Cursor.advance_rest, here']; rfl
    have prev : (c'.advance 2).prev = (c.advance 2).prev := by
      rw [Cursor.advance_prev, Cursor.advance_prev, here, here']
      rfl
    rw [if_neg deep, Block.close_append closed body (by omega) prev body']
    dsimp only
    rw [← found]
    congr 1
    refine cut_congr (u := first :: e :: w) offset here here' ?_
    rw [List.length_cons, List.length_cons]
    omega
  · cases found

theorem Note.scanQuoted_append {quote first e : Char} {w : List Char}
    (offset : c'.offset = c.offset) (here : c.rest = first :: e :: (w ++ tail))
    (here' : c'.rest = first :: e :: (w ++ tail'))
    (found : scanQuoted quote c = .found a (w.length + 2)) :
    scanQuoted quote c' = .found a (w.length + 2) := by
  have body : c.rest.drop 1 = e :: (w ++ tail) := by rw [here]; rfl
  have body' : c'.rest.drop 1 = e :: (w ++ tail') := by rw [here']; rfl
  rw [scanQuoted, body] at found
  rw [scanQuoted, body']
  split at found
  · cases found
  · cases found
  next length closed =>
  have quotes := Literal.two_le_of_extent? closed
  have size := (Scan.found.inj found).2
  obtain rfl : length = w.length + 1 := by omega
  rw [Literal.extent?_closed_append closed tail']
  dsimp only
  rw [← found]
  congr 1
  refine cut_congr (u := first :: e :: w) offset here here' ?_
  rw [List.length_cons, List.length_cons]
  omega

/-- An annotation is more than its introducer. -/
theorem Note.two_le_of_scan {length : Nat} (found : scan d memberStart c = .found a length) :
    2 ≤ length := by
  have word (found : scanWord d memberStart c = .found a length) : 2 ≤ length := by
    obtain ⟨x, more, -, ⟨-, -, -, found⟩ | ⟨-, -, found⟩⟩ := scanWord_eq_found.mp found
    all_goals
      have opening := wordOpening_pos d c
      have size := (Scan.found.inj found).2
      omega
  unfold scan at found
  split at found
  · cases found
  split at found
  · cases found
  split at found
  · exact word found
  split at found
  · unfold scanHashbang at found
    split at found
    · cases found
    · have size := (Scan.found.inj found).2
      omega
  split at found
  · unfold scanBlock at found
    split at found
    · cases found
    split at found
    · have size := (Scan.found.inj found).2
      omega
    · cases found
  split at found
  · unfold scanQuoted at found
    split at found
    · cases found
    · cases found
    · have size := (Scan.found.inj found).2
      omega
  · exact word found

/-- An annotation is found again in front of a text that parts from the first at a slash. -/
theorem Note.scan_append {ch : Char} {w : List Char} (part : PartAtSlash tail tail')
    (offset : c'.offset = c.offset) (dot : c'.prev = some '.' ↔ c.prev = some '.')
    (here : c.rest = ch :: (w ++ tail)) (here' : c'.rest = ch :: (w ++ tail'))
    (found : scan d memberStart c = .found a (w.length + 1)) :
    scan d memberStart c' = .found a (w.length + 1) := by
  have more := two_le_of_scan found
  obtain ⟨e, w, rfl⟩ := List.exists_cons_of_length_pos (l := w) (by omega)
  have size : (e :: w).length + 1 = w.length + 2 := rfl
  rw [List.cons_append] at here here'
  have word (found : scanWord d memberStart c = .found a (w.length + 2)) :
      scanWord d memberStart c' = .found a (w.length + 2) := by
    have opening : wordOpening d c' = wordOpening d c := by
      rw [wordOpening, wordOpening, here, here']
      rfl
    exact scanWord_append (u := ch :: e :: w) part offset dot opening here here' found
  rw [size] at found ⊢
  unfold scan at found ⊢
  rw [here] at found
  rw [here']
  dsimp only [List.head?_cons] at found ⊢
  split at found
  · cases found
  next intro =>
  rw [if_neg intro, offset]
  split at found
  · next mark =>
    rw [if_pos mark]
    exact scanHashbang_append part offset here here' e found
  next noMark =>
  rw [if_neg noMark]
  split at found
  · next own opens => exact scanBlock_append offset here here' found
  split at found
  · next quoted =>
    rw [if_pos quoted]
    exact scanQuoted_append offset here here' found
  · next plain =>
    rw [if_neg plain]
    exact word found

/-- Where a member name is expected matters to words alone. -/
theorem Note.scan_eq_or_word (d : Dialect) (memberStart memberStart' : Bool) (c : Cursor) :
    scan d memberStart' c = scan d memberStart c ∨
      (∀ m, scan d m c = scanWord d m c) := by
  unfold scan
  cases c.rest with
  | nil => exact .inl rfl
  | cons first rest =>
    dsimp only
    split
    · exact .inl rfl
    cases rest.head? with
    | none => exact .inr fun _ => rfl
    | some ch =>
      dsimp only
      split
      · exact .inl rfl
      split
      · exact .inl rfl
      split
      · exact .inl rfl
      · exact .inr fun _ => rfl

/-- Whether a member name is expected decides if there is an annotation, and not which one. -/
theorem Note.scan_found_unique {memberStart' : Bool} {b : Note} {length length' : Nat}
    (found : scan d memberStart c = .found a length)
    (found' : scan d memberStart' c = .found b length') : a = b ∧ length = length' := by
  rcases scan_eq_or_word d memberStart memberStart' c with same | word
  · exact Scan.found.inj (found.symm.trans (same.symm.trans found'))
  rw [word] at found found'
  obtain ⟨x, more, text, forms⟩ := scanWord_eq_found.mp found
  obtain ⟨x', more', text', forms'⟩ := scanWord_eq_found.mp found'
  obtain ⟨rfl, rfl⟩ := List.cons.inj (text.symm.trans text')
  rcases forms with ⟨start, -, -, found⟩ | ⟨other, -, found⟩
  · rcases forms' with ⟨-, -, -, found'⟩ | ⟨other', -⟩
    · exact Scan.found.inj (found.symm.trans found')
    · rw [start] at other'
      cases other'
  · rcases forms' with ⟨start', -⟩ | ⟨-, -, found'⟩
    · rw [other] at start'
      cases start'
    · exact Scan.found.inj (found.symm.trans found')

end Scan

end Gloss

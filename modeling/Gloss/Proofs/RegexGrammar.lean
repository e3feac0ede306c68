import Gloss.Proofs.LineEnds
import Gloss.Proofs.LiteralGrammar
import Gloss.Proofs.Scopes

/-!
# The grammar of regular expressions

A regular expression is a body between two slashes with its flags (`Regex.IsRegex`). The body has
classes in brackets, in which a slash may stand, and a backslash hides the character after it. The
grammar is given for each choice of characters that can be hidden: the reader hides any character,
and where a line feed is not among them a regular expression lies in one line
(`Regex.isRegex_oneLine_iff`).

The reader keeps a flag for the class that it is in, and finds what the grammar has
(`Regex.extent?_eq_closed_iff`). So what it finds is a regular expression of one line exactly when
there is no line feed in it, which a backslash alone can put there (`Regex.extent?_oneLine_iff`).
-/

namespace Gloss

open Host

namespace Host.Regex

/-! ## The grammar -/

/-- What may stand in the brackets of a class, given what a backslash can hide. -/
inductive InClass (hides : Char → Prop) : List Char → Prop
  | nil : InClass hides []
  | hidden {c : Char} {cs : List Char} :
    hides c → InClass hides cs → InClass hides ('\\' :: c :: cs)
  | char {c : Char} {cs : List Char} :
    c ≠ ']' → c ≠ '\\' → c ≠ '\n' → InClass hides cs → InClass hides (c :: cs)

/-- The items of a body, given what a backslash can hide. -/
inductive Items (hides : Char → Prop) : List Char → Prop
  | nil : Items hides []
  | hidden {c : Char} {cs : List Char} :
    hides c → Items hides cs → Items hides ('\\' :: c :: cs)
  | range {inside cs : List Char} :
    InClass hides inside → Items hides cs → Items hides ('[' :: (inside ++ ']' :: cs))
  | char {c : Char} {cs : List Char} :
    c ≠ '/' → c ≠ '[' → c ≠ '\\' → c ≠ '\n' → Items hides cs → Items hides (c :: cs)

/-- A regular expression in front of the given text: a body that is not empty between slashes, and
the longest run of flags. -/
def IsRegex (hides : Char → Prop) (after text : List Char) : Prop :=
  ∃ body flags, text = '/' :: (body ++ '/' :: flags) ∧ body ≠ [] ∧ Items hides body ∧
    (flags ++ after).takeWhile isFlag = flags

/-- A slash that opens a regular expression after the given token. -/
def Opens (prev : Option String) (cs : List Char) : Prop :=
  ∃ rest, cs = '/' :: rest ∧ rest.head? ≠ some '/' ∧ rest.head? ≠ some '*' ∧
    prev.any endsOperand = false

variable {hides hides' : Char → Prop} {w after : List Char} {inClass : Bool} {read length : Nat}

/-! ## Regular expressions of one line -/

theorem InClass.mono (holds : InClass hides w) (weaker : ∀ c ∈ w, hides c → hides' c) :
    InClass hides' w := by
  induction holds with
  | nil => exact .nil
  | hidden hidden _ ih =>
    exact .hidden (weaker _ (by simp) hidden) (ih fun c held => weaker c (by simp [held]))
  | char close escape line _ ih =>
    exact .char close escape line (ih fun c held => weaker c (by simp [held]))

theorem Items.mono (holds : Items hides w) (weaker : ∀ c ∈ w, hides c → hides' c) :
    Items hides' w := by
  induction holds with
  | nil => exact .nil
  | hidden hidden _ ih =>
    exact .hidden (weaker _ (by simp) hidden) (ih fun c held => weaker c (by simp [held]))
  | range inside _ ih =>
    exact .range (inside.mono fun c held => weaker c (by simp [held]))
      (ih fun c held => weaker c (by simp [held]))
  | char slash opening escape line _ ih =>
    exact .char slash opening escape line (ih fun c held => weaker c (by simp [held]))

theorem InClass.oneLine (holds : InClass (· ≠ '\n') w) : '\n' ∉ w := by
  induction holds with
  | nil => exact List.not_mem_nil
  | hidden other _ ih => simp [other.symm, ih]
  | char _ _ line _ ih => simp [line.symm, ih]

theorem Items.oneLine (holds : Items (· ≠ '\n') w) : '\n' ∉ w := by
  induction holds with
  | nil => exact List.not_mem_nil
  | hidden other _ ih => simp [other.symm, ih]
  | range inside _ ih => simp [inside.oneLine, ih]
  | char _ _ _ line _ ih => simp [line.symm, ih]

/-- Without hidden line feeds the regular expressions are those that lie in one line. -/
theorem isRegex_oneLine_iff :
    IsRegex (· ≠ '\n') after w ↔ IsRegex (fun _ => True) after w ∧ '\n' ∉ w := by
  constructor
  · rintro ⟨body, flags, rfl, nonempty, items, run⟩
    have feed := Text.not_mem_takeWhile (by decide : isFlag '\n' = false) (flags ++ after)
    rw [run] at feed
    refine ⟨⟨body, flags, rfl, nonempty, items.mono fun _ _ _ => trivial, run⟩, ?_⟩
    simp [items.oneLine, feed]
  · rintro ⟨⟨body, flags, rfl, nonempty, items, run⟩, oneLine⟩
    refine ⟨body, flags, rfl, nonempty, items.mono fun c held _ => ?_, run⟩
    rintro rfl
    exact oneLine (by simp [held])

/-! ## The reader finds what the grammar has -/

theorem close_of_inClass (holds : InClass hides w) (read : Nat) (tail : List Char) :
    close true read (w ++ ']' :: tail) = close false (read + w.length + 1) tail := by
  induction holds generalizing read with
  | nil =>
    rw [List.nil_append, close.eq_def]
    rfl
  | @hidden c w _ _ ih =>
    rw [List.cons_append, List.cons_append, close.eq_def]
    show close true (read + 2) (w ++ ']' :: tail) = _
    rw [ih]
    simp only [List.length_cons]
    congr 1
    omega
  | @char c w closing escape line _ ih =>
    have goes : close true read (c :: w ++ ']' :: tail) =
        close true (read + 1) (w ++ ']' :: tail) := by
      rw [List.cons_append, close.eq_def]
      simp [line, escape, closing]
    rw [goes, ih, List.length_cons]
    congr 1
    omega

theorem close_of_items (holds : Items hides w) (read : Nat) (tail : List Char) :
    close false read (w ++ '/' :: tail) = some (read + w.length + 1) := by
  induction holds generalizing read with
  | nil =>
    rw [List.nil_append, close.eq_def]
    rfl
  | @hidden c w _ _ ih =>
    rw [List.cons_append, List.cons_append, close.eq_def]
    show close false (read + 2) (w ++ '/' :: tail) = _
    rw [ih]
    simp only [List.length_cons]
    congr 1
    omega
  | @range inside w inner _ ih =>
    rw [List.cons_append, close.eq_def]
    show close true (read + 1) (inside ++ ']' :: w ++ '/' :: tail) = _
    rw [List.append_assoc, List.cons_append, close_of_inClass inner, ih]
    simp only [List.length_cons, List.length_append]
    congr 1
    omega
  | @char c w slash opening escape line _ ih =>
    have goes : close false read (c :: w ++ '/' :: tail) =
        close false (read + 1) (w ++ '/' :: tail) := by
      rw [List.cons_append, close.eq_def]
      simp [line, escape, opening, slash]
    rw [goes, ih, List.length_cons]
    congr 1
    omega

/-! ## The grammar has what the reader finds -/

/-- What is left of a body, in a class or out of it. -/
def Left : Bool → List Char → Prop
  | false, w => Items (fun _ => True) w
  | true, w => ∃ inside more, w = inside ++ ']' :: more ∧ InClass (fun _ => True) inside ∧
    Items (fun _ => True) more

theorem Left.hidden (c : Char) (left : Left inClass w) : Left inClass ('\\' :: c :: w) := by
  cases inClass with
  | false => exact .hidden trivial left
  | true =>
    obtain ⟨inside, more, rfl, inner, items⟩ := left
    exact ⟨_, more, rfl, .hidden trivial inner, items⟩

theorem Left.opening (left : Left true w) : Left inClass ('[' :: w) := by
  obtain ⟨inside, more, rfl, inner, items⟩ := left
  cases inClass with
  | false => exact .range inner items
  | true => exact ⟨_, more, rfl, .char (by decide) (by decide) (by decide) inner, items⟩

theorem Left.closing (left : Left false w) : Left inClass (']' :: w) := by
  cases inClass with
  | false => exact .char (by decide) (by decide) (by decide) (by decide) left
  | true => exact ⟨[], w, rfl, .nil, left⟩

theorem Left.char {c : Char} (line : c ≠ '\n') (escape : c ≠ '\\') (opening : c ≠ '[')
    (closing : c ≠ ']') (slash : ¬ (c = '/' ∧ inClass = false)) (left : Left inClass w) :
    Left inClass (c :: w) := by
  cases inClass with
  | false => exact .char (fun same => slash ⟨same, rfl⟩) opening escape line left
  | true =>
    obtain ⟨inside, more, rfl, inner, items⟩ := left
    exact ⟨_, more, rfl, .char closing escape line inner, items⟩

/-- What the reader takes for the rest of a body is one. -/
theorem left_of_close {cs : List Char} (closed : close inClass read cs = some length) :
    ∃ w tail, cs = w ++ '/' :: tail ∧ Left inClass w ∧ length = read + w.length + 1 := by
  fun_induction close inClass read cs with
  | case1 | case2 | case3 => cases closed
  | case4 inClass read c rest line ih =>
    obtain ⟨w, tail, rfl, left, rfl⟩ := ih closed
    exact ⟨_, tail, rfl, left.hidden c, by simp only [List.length_cons]; omega⟩
  | case5 inClass read rest line escape ih =>
    obtain ⟨w, tail, rfl, left, rfl⟩ := ih closed
    exact ⟨_, tail, rfl, left.opening, by rw [List.length_cons]; omega⟩
  | case6 inClass read rest line escape opening ih =>
    obtain ⟨w, tail, rfl, left, rfl⟩ := ih closed
    exact ⟨_, tail, rfl, left.closing, by rw [List.length_cons]; omega⟩
  | case7 inClass read c rest line escape opening closing slash =>
    obtain ⟨rfl, rfl⟩ := slash
    exact ⟨[], rest, rfl, .nil, (Option.some.inj closed).symm⟩
  | case8 inClass read c rest line escape opening closing slash ih =>
    obtain ⟨w, tail, rfl, left, rfl⟩ := ih closed
    exact ⟨_, tail, rfl, left.char line escape opening closing slash,
      by rw [List.length_cons]; omega⟩

theorem close_eq_some_iff {cs : List Char} : close false read cs = some length ↔
    ∃ w tail, cs = w ++ '/' :: tail ∧ Items (fun _ => True) w ∧ length = read + w.length + 1 := by
  refine ⟨left_of_close, ?_⟩
  rintro ⟨w, tail, rfl, items, rfl⟩
  exact close_of_items items read tail

/-- The body with its flags is what the grammar has. -/
theorem closeFlags_eq_some_iff {cs : List Char} (text : cs = w ++ after) :
    closeFlags cs = some w.length ↔ ∃ body flags, w = body ++ '/' :: flags ∧
      Items (fun _ => True) body ∧ (flags ++ after).takeWhile isFlag = flags := by
  have drop (body tail : List Char) :
      (body ++ '/' :: tail).drop (0 + body.length + 1) = tail := by
    rw [Nat.zero_add, ← List.drop_drop, List.drop_left]
    rfl
  constructor
  · intro closed
    obtain ⟨size, closed, total⟩ := Option.map_eq_some_iff.mp closed
    obtain ⟨body, tail, whole, items, rfl⟩ := close_eq_some_iff.mp closed
    rw [whole, drop] at total
    rw [text] at whole
    obtain ⟨flags, rfl⟩ : body ++ ['/'] <+: w := by
      refine List.prefix_of_prefix_length_le ⟨tail, ?_⟩ (List.prefix_append w after) ?_
      · rw [whole, List.append_assoc]
        rfl
      · rw [List.length_append, List.length_singleton]
        omega
    rw [List.append_assoc, List.append_assoc, List.append_cancel_left_eq] at whole
    obtain rfl : flags ++ after = tail := (List.cons.inj whole).2
    refine ⟨body, flags, by rw [List.append_assoc]; rfl, items, takeWhile_of_length ?_⟩
    simp only [List.length_append, List.length_singleton] at total ⊢
    omega
  · rintro ⟨body, flags, rfl, items, run⟩
    rw [List.append_assoc, List.cons_append] at text
    rw [text, closeFlags, close_of_items items, Option.map_some, drop, run]
    simp only [List.length_append, List.length_cons]
    congr 1
    omega

theorem extent?_of_opens {prev : Option String} {cs : List Char} (opens : Opens prev cs) :
    extent? prev cs = some (.ofEnd ((closeFlags (cs.drop 1)).map (· + 1))) := by
  obtain ⟨rest, rfl, line, block, operand⟩ := opens
  rw [extent?, if_neg (not_or.mpr ⟨line, block⟩), if_neg (by rw [operand]; decide)]
  rfl

theorem opens_of_extent? {prev : Option String} {cs : List Char} {e : Extent}
    (found : extent? prev cs = some e) : Opens prev cs := by
  unfold extent? at found
  split at found
  · next rest =>
    split at found
    · cases found
    next comment =>
    split at found
    · cases found
    next operand =>
    obtain ⟨line, block⟩ := not_or.mp comment
    exact ⟨rest, rfl, line, block, Bool.eq_false_iff.mpr operand⟩
  · cases found

/-- An initial part of a text is the regular expression that starts there when it is one by the
grammar. -/
theorem extent?_eq_closed_iff {prev : Option String} {cs : List Char} (opens : Opens prev cs)
    (text : cs = w ++ after) :
    extent? prev cs = some (.closed w.length) ↔ IsRegex (fun _ => True) after w := by
  rw [extent?_of_opens opens, Option.some_inj, Literal.ofEnd_eq_closed, Option.map_eq_some_iff]
  obtain ⟨rest, rfl, line, -⟩ := opens
  cases w with
  | nil =>
    refine iff_of_false (by simp) ?_
    rintro ⟨body, flags, empty, -⟩
    cases empty
  | cons c w =>
    obtain ⟨rfl, rest⟩ := List.cons.inj text
    simp only [List.length_cons, Nat.add_right_cancel_iff, exists_eq_right, List.drop_one,
      List.tail_cons]
    rw [closeFlags_eq_some_iff rest]
    constructor
    · rintro ⟨body, flags, rfl, items, run⟩
      refine ⟨body, flags, rfl, ?_, items, run⟩
      rintro rfl
      rw [rest] at line
      exact line rfl
    · rintro ⟨body, flags, same, -, items, run⟩
      exact ⟨body, flags, (List.cons.inj same).2, items, run⟩

end Host.Regex

/-! ## Where a regular expression stops -/

/-- After what a span covers comes the rest of the text. -/
theorem Cursor.IsBoundary.rest_of_covers {source text : String} {c : Cursor} {stop : Nat}
    (boundary : c.IsBoundary source.toList) (covers : Span.Covers ⟨c.offset, stop⟩ source text) :
    c.rest = text.toList ++ Text.after source.toList stop := by
  obtain ⟨before, whole, here⟩ := boundary.exists_append
  obtain ⟨⟨after, rest⟩, rfl⟩ := boundary.covers_iff.mp covers
  have left : Text.after source.toList (c.offset + Text.width text.toList) = after := by
    rw [here, ← Text.width_append, whole, ← rest, ← List.append_assoc, Text.after_append]
  rw [left, rest]

namespace Host.Regex

variable {source : String} {c : Cursor} {prev : Option String} {e : Extent}

/-- A regular expression is closed at an end exactly when the text up to there is one by the
grammar, and left open exactly when no text from its start on is one. -/
structure Follows (hides : Char → Prop) (source : String) (c : Cursor) (e : Extent) : Prop where
  closed : ∀ stop, c.stop? e = some stop ↔ ∃ text, Span.Covers ⟨c.offset, stop⟩ source text ∧
    IsRegex hides (Text.after source.toList stop) text.toList
  unclosed : e = .unclosed ↔ ∀ w after, c.rest = w ++ after → ¬ IsRegex hides after w

/-- What the reader finds follows the grammar in which a backslash hides any character. -/
theorem follows_of_extent? (boundary : c.IsBoundary source.toList)
    (found : extent? prev c.rest = some e) : Follows (fun _ => True) source c e := by
  have opens := opens_of_extent? found
  have inside (length : Nat) (closed : e = .closed length) : length ≤ c.rest.length :=
    (extent?_closed_le (closed ▸ found)).2
  constructor
  · intro stop
    rw [boundary.stop?_eq_some_iff inside]
    refine exists_congr fun text => and_congr_right fun covers => ?_
    rw [← extent?_eq_closed_iff opens (boundary.rest_of_covers covers), found, Option.some_inj]
  · constructor
    · rintro rfl w after text regex
      have closed := (extent?_eq_closed_iff opens text).mpr regex
      rw [found] at closed
      cases closed
    · intro none
      cases e with
      | unclosed => rfl
      | closed length =>
        have text := (List.take_append_drop length c.rest).symm
        refine absurd ((extent?_eq_closed_iff opens text).mp ?_) (none _ _ text)
        rw [found, List.length_take_of_le (inside length rfl)]

/-- It follows the grammar of one line exactly when no regular expression with a line feed starts
there. -/
theorem follows_oneLine_iff (boundary : c.IsBoundary source.toList)
    (found : extent? prev c.rest = some e) :
    Follows (· ≠ '\n') source c e ↔
      ∀ w after, c.rest = w ++ after → IsRegex (fun _ => True) after w → '\n' ∉ w := by
  constructor
  · intro strict w after text regex
    have closed := (extent?_eq_closed_iff (opens_of_extent? found) text).mpr regex
    obtain rfl := Option.some.inj (found.symm.trans closed)
    obtain ⟨text', covers, regex'⟩ := (strict.closed _).mp rfl
    have same : text' = c.lexeme w.length :=
      Option.some.inj (covers.slice.symm.trans (boundary.covers w.length).slice)
    rw [same, Cursor.lexeme, String.toList_ofList, text, List.take_left] at regex'
    exact (isRegex_oneLine_iff.mp regex').2
  · intro oneLine
    have follows := follows_of_extent? boundary found
    have same {w after : List Char} (text : c.rest = w ++ after) :
        IsRegex (fun _ => True) after w ↔ IsRegex (· ≠ '\n') after w :=
      ⟨fun regex => isRegex_oneLine_iff.mpr ⟨regex, oneLine w after text regex⟩,
        fun regex => (isRegex_oneLine_iff.mp regex).1⟩
    constructor
    · intro stop
      rw [follows.closed]
      exact exists_congr fun text =>
        and_congr_right fun covers => same (boundary.rest_of_covers covers)
    · rw [follows.unclosed]
      exact forall_congr' fun w => forall_congr' fun after =>
        forall_congr' fun text => not_congr (same text)

end Host.Regex

/-! ## Tokens -/

theorem Token.extent?_of_shape_regex {last : Option Token} {ch : Char} {rest : List Char}
    (kind : (shape last ch rest).1 = .regex) :
    Regex.extent? (last.map (·.text)) (ch :: rest) = some (.closed (shape last ch rest).2) := by
  unfold shape at kind ⊢
  cases literal : Literal.extent? (ch :: rest) with
  | some e =>
    rw [literal] at kind
    cases kind
  | none =>
    rw [literal] at kind
    dsimp only at kind ⊢
    split at kind
    · next length closed => rw [closed]
    · simp only [plainShape] at kind
      repeat' split at kind
      all_goals cases kind

/-- A token of a regular expression is read as one. -/
theorem Piece.extent?_of_read {d : Dialect} {ctx : Context} {c : Cursor} {newlines : Nat}
    {ch : Char} {rest : List Char}
    (kind : (read d ctx c newlines ch rest).1.token.kind = .regex) :
    Regex.extent? (ctx.last.map (·.text)) (ch :: rest) =
      some (.closed (read d ctx c newlines ch rest).1.length) := by
  by_cases intro : ch = d.introducer
  · cases stands : Note.scan d (ctx.afterGap newlines).atMemberStart c with
    | found a length =>
      rw [read_note intro stands] at kind
      cases kind
    | plain | malformed | torn =>
      rw [read_plain intro stands (by simp)] at kind
      simp only [tokenAt, Token.introducerShape] at kind
      split at kind <;> cases kind
  · rw [read_host intro] at kind ⊢
    exact Token.extent?_of_shape_regex kind

/-- The tokens of regular expressions are regular expressions by the grammar. -/
theorem Reading.isRegex_of_mem {d : Dialect} {source : String} {r : Reading}
    (read : ofSource? d source = some r) {t : Token} (held : t ∈ r.tokens)
    (kind : t.kind = .regex) :
    Regex.IsRegex (fun _ => True) (Text.after source.toList t.span.stop) t.text.toList := by
  rw [eq_ofSource read] at held
  obtain ⟨p, member, rfl⟩ := List.mem_map.mp held
  obtain ⟨ps, qs, whole⟩ := List.append_of_mem member
  obtain ⟨ctx, c, run, later⟩ := exists_run whole
  obtain ⟨gap, ch, rest, here, -, -, rfl, -⟩ := exists_readAfter later
  have knows := run.knows (Context.knows_start source.toList)
  have found := Piece.extent?_of_read kind
  obtain ⟨own, token⟩ := Piece.exists_token_read d ctx (c.advance gap.length) (gap.count '\n') ch
    rest
  generalize (Piece.read d ctx (c.advance gap.length) (gap.count '\n') ch rest).1.length = length
    at found token
  have text : (Piece.readAfter d ctx c gap ch rest).1.token.text.toList =
      (ch :: rest).take length := by
    rw [Piece.readAfter, token, Piece.tokenAt, Cursor.lexeme, Cursor.rest_advance_append here,
      String.toList_ofList]
  have after : Text.after source.toList (Piece.readAfter d ctx c gap ch rest).1.token.span.stop =
      (ch :: rest).drop length := by
    rw [Piece.readAfter, token, Piece.tokenAt, Cursor.span, Cursor.advance_advance,
      knows.after_advance, ← Cursor.advance_advance, Cursor.advance_rest,
      Cursor.rest_advance_append here]
  rw [text, after]
  have split := (List.take_append_drop length (ch :: rest)).symm
  refine (Regex.extent?_eq_closed_iff (Regex.opens_of_extent? found) split).mp ?_
  rw [found, List.length_take_of_le (Regex.extent?_closed_le found).2]

/-- How the regular expression that starts at a place of a text is read: by the grammar in which a
backslash hides any character, and by the grammar of one line exactly when no regular expression
with a line feed starts there. -/
structure Host.Regex.ReadAs (source : String) (c : Cursor) (prev : Option String) (e : Extent) :
    Prop where
  found : extent? prev c.rest = some e
  /-- Read byte by byte it ends at the same place. -/
  octets : extent? prev (Text.octets c.rest) = some (e.inBytes c.rest)
  follows : Follows (fun _ => True) source c e
  oneLine : Follows (· ≠ '\n') source c e ↔
    ∀ w after, c.rest = w ++ after → IsRegex (fun _ => True) after w → '\n' ∉ w

/-- A token of a regular expression is one by the grammar, and one of one line when it has no line
feed. -/
structure Host.Regex.SpelledBy (source : String) (t : Token) : Prop where
  spelled : IsRegex (fun _ => True) (Text.after source.toList t.span.stop) t.text.toList
  oneLine : IsRegex (· ≠ '\n') (Text.after source.toList t.span.stop) t.text.toList ↔
    '\n' ∉ t.text.toList

namespace Host.Regex

/-- Where a slash opens a regular expression the reader answers by the grammar, and the tokens of
regular expressions are spelled by it. They lie in one line as long as no line feed is hidden by a
backslash. -/
theorem extent?_oneLine_iff (source : String) :
    (∀ (c : Cursor) (prev : Option String), c.IsBoundary source.toList → Opens prev c.rest →
      ∃ e, ReadAs source c prev e) ∧
    ∀ (d : Dialect) (r : Reading), Reading.ofSource? d source = some r →
      ∀ t ∈ r.tokens, t.kind = .regex → SpelledBy source t := by
  constructor
  · intro c prev boundary opens
    have found := extent?_of_opens opens
    refine ⟨_, found, ?_, follows_of_extent? boundary found, follows_oneLine_iff boundary found⟩
    rw [extent?_octets, found]
    rfl
  · intro d r read t held kind
    have regex := Reading.isRegex_of_mem read held kind
    exact ⟨regex, by rw [isRegex_oneLine_iff, and_iff_right regex]⟩

/-- A slash in a class, and an escaped character of two bytes. -/
theorem extent?_oneLine_iff_class :
    ((Cursor.between "x=".toList "/[/]\\é/gi".toList).IsBoundary "x=/[/]\\é/gi".toList ∧
      Opens (some "=") (Cursor.between "x=".toList "/[/]\\é/gi".toList).rest ∧
      ∃ e, ReadAs "x=/[/]\\é/gi" (.between "x=".toList "/[/]\\é/gi".toList) (some "=") e) ∧
    ∃ r t, Reading.ofSource? .hash "x=/[/]\\é/gi" = some r ∧ t ∈ r.tokens ∧ t.kind = .regex ∧
      SpelledBy "x=/[/]\\é/gi" t := by
  have boundary := Cursor.isBoundary_between "x=".toList "/[/]\\é/gi".toList
  have opens : Opens (some "=") (Cursor.between "x=".toList "/[/]\\é/gi".toList).rest :=
    ⟨_, rfl, by decide, by decide, by decide +kernel⟩
  have read := Reading.ofSource?_eq_some (d := .hash) (by decide) "x=/[/]\\é/gi"
  have token : ⟨.regex, "/[/]\\é/gi", ⟨2, 12⟩, 0⟩ ∈
      (Reading.ofSource .hash "x=/[/]\\é/gi").tokens := by decide +kernel
  have main := extent?_oneLine_iff "x=/[/]\\é/gi"
  exact ⟨⟨boundary, opens, main.1 _ _ boundary opens⟩,
    _, _, read, token, rfl, main.2 _ _ read _ token rfl⟩

/-- A backslash before a line feed lets a regular expression go on in the next line. -/
theorem not_follows_oneLine_escape :
    (Cursor.start "/a\\\nb/".toList).IsBoundary "/a\\\nb/".toList ∧
      Opens none (Cursor.start "/a\\\nb/".toList).rest ∧
      extent? none (Cursor.start "/a\\\nb/".toList).rest = some (.closed 6) ∧
      ¬ Follows (· ≠ '\n') "/a\\\nb/" (.start "/a\\\nb/".toList) (.closed 6) ∧
      ∃ r, Reading.ofSource? .hash "/a\\\nb/" = some r ∧
        ∃ t ∈ r.tokens, t.kind = .regex ∧ '\n' ∈ t.text.toList := by
  have boundary := Cursor.isBoundary_start "/a\\\nb/".toList
  have opens : Opens none (Cursor.start "/a\\\nb/".toList).rest :=
    ⟨_, rfl, by decide, by decide, rfl⟩
  have found : extent? none (Cursor.start "/a\\\nb/".toList).rest = some (.closed 6) := by
    decide +kernel
  have regex : IsRegex (fun _ => True) [] "/a\\\nb/".toList :=
    (extent?_eq_closed_iff opens (List.append_nil _).symm).mp found
  refine ⟨boundary, opens, found, fun strict => ?_, _, Reading.ofSource?_eq_some (by decide) _, ?_⟩
  · have oneLine := (follows_oneLine_iff boundary found).mp strict
    exact absurd (oneLine _ _ (List.append_nil _).symm regex) (by decide +kernel)
  · exact ⟨⟨.regex, "/a\\\nb/", ⟨0, 6⟩, 0⟩, by decide +kernel, rfl, by decide +kernel⟩

end Host.Regex

end Gloss

import Gloss.Proofs.Trivia
import Gloss.Text.Cursor

/-!
# Carriage returns before line feeds

`Text.withReturns` puts a carriage return before each line feed of a text. A run of
characters at the start of the text is stretched by it (`Text.stretch`), and an
offset is shifted by one for each line before it (`Position.shifted`). Lines and
columns stay as they are: a carriage return is always the last character of its
line. `Cursor.Returned` relates the places of the two texts.
-/

namespace Gloss

namespace Text

/-- A text with a carriage return before each of its line feeds. -/
def withReturns : List Char → List Char
  | [] => []
  | c :: cs => if c = '\n' then '\r' :: '\n' :: withReturns cs else c :: withReturns cs

/-- A text without its carriage returns. -/
def dropReturns (cs : List Char) : List Char := cs.filter (· ≠ '\r')

/-- A text with carriage returns as a string. -/
def returned (s : String) : String := String.ofList (withReturns s.toList)

/-- The number of characters that the first characters of a text become. -/
def stretch (cs : List Char) (n : Nat) : Nat := (withReturns (cs.take n)).length

variable {c : Char} {cs ds : List Char} {m n : Nat}

@[simp] theorem withReturns_nil : withReturns [] = [] := rfl

@[simp] theorem withReturns_lineFeed (cs : List Char) :
    withReturns ('\n' :: cs) = '\r' :: '\n' :: withReturns cs := rfl

theorem withReturns_cons (other : c ≠ '\n') (cs : List Char) :
    withReturns (c :: cs) = c :: withReturns cs :=
  if_neg other

theorem withReturns_append (cs ds : List Char) :
    withReturns (cs ++ ds) = withReturns cs ++ withReturns ds := by
  induction cs with
  | nil => rfl
  | cons c cs ih =>
    by_cases feed : c = '\n'
    · subst feed
      rw [List.cons_append, withReturns_lineFeed, withReturns_lineFeed, ih]
      rfl
    · rw [List.cons_append, withReturns_cons feed, withReturns_cons feed, ih]
      rfl

theorem withReturns_of_oneLine (oneLine : '\n' ∉ cs) : withReturns cs = cs := by
  induction cs with
  | nil => rfl
  | cons c cs ih =>
    rw [List.mem_cons, not_or] at oneLine
    rw [withReturns_cons (Ne.symm oneLine.1), ih oneLine.2]

theorem withReturns_eq_nil : withReturns cs = [] ↔ cs = [] := by
  cases cs with
  | nil => simp
  | cons c cs =>
    by_cases feed : c = '\n'
    · simp [feed]
    · simp [withReturns_cons feed]

theorem count_withReturns (cs : List Char) : (withReturns cs).count '\n' = cs.count '\n' := by
  induction cs with
  | nil => rfl
  | cons c cs ih =>
    by_cases feed : c = '\n'
    · subst feed
      simp [ih]
    · rw [withReturns_cons feed, List.count_cons, List.count_cons, ih]

/-- Each line feed takes up one byte more. -/
theorem width_withReturns (cs : List Char) : width (withReturns cs) = width cs + cs.count '\n' := by
  induction cs with
  | nil => rfl
  | cons c cs ih =>
    by_cases feed : c = '\n'
    · subst feed
      have sizes : '\r'.utf8Size = 1 ∧ '\n'.utf8Size = 1 := by decide
      simp only [withReturns_lineFeed, width_cons, ih, List.count_cons_self, sizes]
      omega
    · rw [withReturns_cons feed, width_cons, width_cons, ih, List.count_cons_of_ne feed,
        Nat.add_assoc]

/-- Without its carriage returns the text is what it was. -/
theorem dropReturns_withReturns (plain : '\r' ∉ cs) : dropReturns (withReturns cs) = cs := by
  induction cs with
  | nil => rfl
  | cons c cs ih =>
    rw [List.mem_cons, not_or] at plain
    have more := ih plain.2
    rw [dropReturns] at more ⊢
    by_cases feed : c = '\n'
    · subst feed
      rw [withReturns_lineFeed, List.filter_cons_of_neg (by decide),
        List.filter_cons_of_pos (by decide), more]
    · have kept : decide (c ≠ '\r') = true := decide_eq_true (Ne.symm plain.1)
      rw [withReturns_cons feed, List.filter_cons, if_pos kept, more]

theorem getLast?_withReturns (cs : List Char) : (withReturns cs).getLast? = cs.getLast? := by
  induction cs with
  | nil => rfl
  | cons c cs ih =>
    by_cases feed : c = '\n'
    · subst feed
      simp only [withReturns_lineFeed, List.getLast?_cons, ih, Option.getD_some]
    · rw [withReturns_cons feed, List.getLast?_cons, List.getLast?_cons, ih]

/-- A text starts with the same character, unless it is a line feed. -/
theorem head?_withReturns (cs : List Char) :
    (withReturns cs).head? = cs.head?.map fun c => if c = '\n' then '\r' else c := by
  cases cs with
  | nil => rfl
  | cons c cs =>
    by_cases feed : c = '\n'
    · simp [feed]
    · simp [withReturns_cons feed, feed]

/-- Both texts start with a given character that ends no line, or neither does. -/
theorem head?_withReturns_eq_some (feed : c ≠ '\n') (ret : c ≠ '\r') (cs : List Char) :
    (withReturns cs).head? = some c ↔ cs.head? = some c := by
  rw [head?_withReturns]
  cases cs with
  | nil => simp
  | cons d cs =>
    by_cases same : d = '\n'
    · simp [same, Ne.symm feed, Ne.symm ret]
    · simp [same]

theorem any_head?_withReturns {p : Char → Bool} (feed : p '\n' = false) (ret : p '\r' = false)
    (cs : List Char) : (withReturns cs).head?.any p = cs.head?.any p := by
  rw [head?_withReturns]
  cases cs with
  | nil => rfl
  | cons d cs =>
    by_cases same : d = '\n'
    · simp [same, feed, ret]
    · simp [same]

/-- A run of characters that end no line is the same in both texts. -/
theorem takeWhile_withReturns {p : Char → Bool} (feed : p '\n' = false) (ret : p '\r' = false)
    (cs : List Char) : (withReturns cs).takeWhile p = cs.takeWhile p := by
  induction cs with
  | nil => rfl
  | cons c cs ih =>
    by_cases same : c = '\n'
    · simp [same, feed, ret]
    · rw [withReturns_cons same, List.takeWhile_cons, List.takeWhile_cons, ih]

theorem not_mem_takeWhile {p : Char → Bool} (feed : p '\n' = false) (cs : List Char) :
    '\n' ∉ cs.takeWhile p := by
  intro held
  have all := List.all_eq_true.mp (List.all_takeWhile (p := p) (l := cs)) _ held
  rw [feed] at all
  cases all

/-- A run after its first character lies within a line. -/
theorem not_mem_take_run {p : Char → Bool} (feed : p '\n' = false) {c : Char} (other : c ≠ '\n')
    (cs : List Char) : '\n' ∉ (c :: cs).take (1 + (cs.takeWhile p).length) := by
  have whole := List.prefix_iff_eq_take.mp (List.takeWhile_prefix p (l := cs))
  rw [Nat.add_comm, List.take_succ_cons, ← whole, List.mem_cons, not_or]
  exact ⟨Ne.symm other, not_mem_takeWhile feed cs⟩

/-- No text with carriage returns starts with a line feed. -/
theorem withReturns_ne_lineFeed (cs ds : List Char) : withReturns cs ≠ '\n' :: ds := by
  cases cs with
  | nil => simp
  | cons c cs =>
    by_cases feed : c = '\n'
    · simp [feed]
    · simp [withReturns_cons feed, feed]

theorem withReturns_injective : Function.Injective withReturns := by
  intro cs
  induction cs with
  | nil => exact fun ds same => (withReturns_eq_nil.mp same.symm).symm
  | cons c cs ih =>
    intro ds same
    cases ds with
    | nil => exact withReturns_eq_nil.mp same
    | cons d ds =>
      by_cases feed : c = '\n' <;> by_cases feed' : d = '\n'
      · subst feed feed'
        rw [withReturns_lineFeed, withReturns_lineFeed] at same
        rw [ih (List.cons.inj (List.cons.inj same).2).2]
      · subst feed
        rw [withReturns_lineFeed, withReturns_cons feed'] at same
        exact absurd (List.cons.inj same).2.symm (withReturns_ne_lineFeed ds _)
      · subst feed'
        rw [withReturns_lineFeed, withReturns_cons feed] at same
        exact absurd (List.cons.inj same).2 (withReturns_ne_lineFeed cs _)
      · rw [withReturns_cons feed, withReturns_cons feed'] at same
        obtain ⟨rfl, more⟩ := List.cons.inj same
        rw [ih more]

/-! ## Stretched runs -/

@[simp] theorem stretch_zero (cs : List Char) : stretch cs 0 = 0 := rfl

theorem withReturns_split (cs : List Char) (n : Nat) :
    withReturns cs = withReturns (cs.take n) ++ withReturns (cs.drop n) := by
  rw [← withReturns_append, List.take_append_drop]

theorem take_withReturns (cs : List Char) (n : Nat) :
    (withReturns cs).take (stretch cs n) = withReturns (cs.take n) := by
  rw [withReturns_split cs n, stretch, List.take_left]

theorem drop_withReturns (cs : List Char) (n : Nat) :
    (withReturns cs).drop (stretch cs n) = withReturns (cs.drop n) := by
  rw [withReturns_split cs n, stretch, List.drop_left]

theorem stretch_add (cs : List Char) (m n : Nat) :
    stretch cs (m + n) = stretch cs m + stretch (cs.drop m) n := by
  rw [stretch, List.take_add, withReturns_append, List.length_append]
  rfl

theorem stretch_cons (other : c ≠ '\n') (cs : List Char) (n : Nat) :
    stretch (c :: cs) (n + 1) = stretch cs n + 1 := by
  rw [stretch, List.take_succ_cons, withReturns_cons other]
  rfl

theorem stretch_lineFeed (cs : List Char) (n : Nat) :
    stretch ('\n' :: cs) (n + 1) = stretch cs n + 2 := by
  rw [stretch, List.take_succ_cons, withReturns_lineFeed]
  rfl

theorem stretch_append (w cs : List Char) :
    stretch (w ++ cs) w.length = (withReturns w).length := by
  rw [stretch, List.take_left]

theorem stretch_length (cs : List Char) : stretch cs cs.length = (withReturns cs).length := by
  rw [stretch, List.take_length]

/-- A run within a line keeps its length. -/
theorem stretch_of_oneLine (oneLine : '\n' ∉ cs.take n) (held : n ≤ cs.length) :
    stretch cs n = n := by
  rw [stretch, withReturns_of_oneLine oneLine, List.length_take, Nat.min_eq_left held]

theorem stretch_one (other : c ≠ '\n') (cs : List Char) : stretch (c :: cs) 1 = 1 :=
  stretch_cons other cs 0

theorem stretch_two {d : Char} (first : c ≠ '\n') (second : d ≠ '\n') (cs : List Char) :
    stretch (c :: d :: cs) 2 = 2 := by
  rw [stretch_cons first, stretch_one second]

end Text

open Text (withReturns stretch)

namespace Position

/-- The place with its offset mapped. -/
def mapOffset (f : Nat → Nat) (p : Position) : Position := { p with offset := f p.offset }

theorem line_advance (p : Position) (cs : List Char) :
    (p.advance cs).line = p.line + cs.count '\n' := by
  induction cs generalizing p with
  | nil => rfl
  | cons c cs ih =>
    rw [advance_cons, ih, List.count_cons, Position.step]
    by_cases feed : c = '\n'
    · simp only [feed, ite_true, beq_self_eq_true]
      omega
    · simp [feed]

theorem column_advance {cs : List Char} (oneLine : '\n' ∉ cs) (p : Position) :
    (p.advance cs).column = p.column + cs.length := by
  induction cs generalizing p with
  | nil => rfl
  | cons c cs ih =>
    rw [List.mem_cons, not_or] at oneLine
    rw [advance_cons, ih oneLine.2, Position.step, if_neg (Ne.symm oneLine.1), List.length_cons]
    dsimp only
    omega

/-- Over some characters the line or the column changes. -/
theorem place_advance_ne {cs : List Char} (some : cs ≠ []) (p : Position) :
    ¬ ((p.advance cs).line = p.line ∧ (p.advance cs).column = p.column) := by
  rintro ⟨line, column⟩
  rw [line_advance] at line
  have oneLine : '\n' ∉ cs := List.count_eq_zero.mp (by omega)
  rw [column_advance oneLine] at column
  have := List.length_pos_iff.mpr some
  omega

/-- Where an offset of a text comes to lie among carriage returns: one is put in for each line that
ends before it. -/
def shifted (source : String) (offset : Nat) : Nat := offset + ((locate source offset).line - 1)

theorem line_le_walk (p : Position) (offset : Nat) (cs : List Char) :
    p.line ≤ (walk p offset cs).line := by
  induction cs generalizing p with
  | nil => exact Nat.le_refl _
  | cons c cs ih =>
    have step : p.line ≤ (p.step c).line := by
      unfold Position.step
      split <;> simp
    rw [walk]
    split
    · exact Nat.le_refl _
    · exact Nat.le_trans step (ih _)

theorem line_walk_mono {m n : Nat} (le : m ≤ n) (p : Position) (cs : List Char) :
    (walk p m cs).line ≤ (walk p n cs).line := by
  induction cs generalizing p with
  | nil => exact Nat.le_refl _
  | cons c cs ih =>
    rw [walk]
    split
    · exact line_le_walk p n (c :: cs)
    · rw [walk, if_neg (by omega)]
      exact ih _

theorem shifted_injective (source : String) : Function.Injective (shifted source) := by
  have strict {m n : Nat} (lt : m < n) : shifted source m < shifted source n := by
    have lines : (locate source m).line ≤ (locate source n).line :=
      line_walk_mono (Nat.le_of_lt lt) origin source.toList
    rw [shifted, shifted]
    omega
  intro m n same
  rcases Nat.lt_trichotomy m n with lt | rfl | lt
  · exact absurd same (Nat.ne_of_lt (strict lt))
  · rfl
  · exact absurd same (Nat.ne_of_gt (strict lt))

/-- A carriage return before a line feed changes no line and no column. -/
theorem advance_withReturns {p q : Position} (line : q.line = p.line) (column : q.column = p.column)
    (cs : List Char) :
    (q.advance (withReturns cs)).line = (p.advance cs).line ∧
      (q.advance (withReturns cs)).column = (p.advance cs).column := by
  induction cs generalizing p q with
  | nil => exact ⟨line, column⟩
  | cons c cs ih =>
    by_cases feed : c = '\n'
    · subst feed
      rw [Text.withReturns_lineFeed, advance_cons, advance_cons, advance_cons]
      exact ih (by simp [Position.step, line]) (by simp [Position.step])
    · rw [Text.withReturns_cons feed, advance_cons, advance_cons]
      exact ih (by simp [Position.step, feed, line]) (by simp [Position.step, feed, column])

/-- The place after the first part of a text is the shifted one after that part with carriage
returns. -/
theorem origin_advance_withReturns (before after : List Char) :
    origin.advance (withReturns before) =
      (origin.advance before).mapOffset (shifted (String.ofList (before ++ after))) := by
  have start : origin.offset = 0 := rfl
  have offset : (origin.advance before).offset = Text.width before := by
    rw [advance_offset, start, Nat.zero_add]
  have line := line_advance origin before
  have one : origin.line = 1 := rfl
  have shift : shifted (String.ofList (before ++ after)) (Text.width before) =
      Text.width (withReturns before) := by
    rw [shifted, locate_width, line, one, Text.width_withReturns, Nat.add_sub_cancel_left]
  obtain ⟨lines, columns⟩ := advance_withReturns (p := origin) rfl rfl before
  have total : (origin.advance (withReturns before)).offset = Text.width (withReturns before) := by
    rw [advance_offset, start, Nat.zero_add]
  calc origin.advance (withReturns before)
      = ⟨(origin.advance (withReturns before)).offset, (origin.advance (withReturns before)).line,
          (origin.advance (withReturns before)).column⟩ := rfl
    _ = (origin.advance before).mapOffset (shifted (String.ofList (before ++ after))) := by
        rw [total, lines, columns, mapOffset, offset, shift]

theorem shifted_eq_zero (source : String) (offset : Nat) :
    shifted source offset = 0 ↔ offset = 0 := by
  have start : shifted source 0 = 0 := by
    unfold shifted locate
    cases source.toList <;> rfl
  exact ⟨fun zero => shifted_injective source (zero.trans start.symm), fun zero => zero ▸ start⟩

end Position

/-- The span with its offsets mapped. -/
def Span.mapOffset (f : Nat → Nat) (s : Span) : Span := ⟨f s.start, f s.stop⟩

/-! ## Cursors -/

namespace Cursor

/-- The second cursor is where the first one is, in a text with carriage returns. Offsets ahead of
it are shifted, and the first text has no carriage returns of its own. -/
structure Returned (shift : Nat → Nat) (c c' : Cursor) : Prop where
  rest : c'.rest = withReturns c.rest
  prev : c'.prev = c.prev
  position : ∀ n, (c'.advance (stretch c.rest n)).position =
    (c.advance n).position.mapOffset shift
  plain : '\r' ∉ c.rest

namespace Returned

variable {shift : Nat → Nat} {c c' : Cursor}

theorem start {source : String} (plain : '\r' ∉ source.toList) :
    Returned (Position.shifted source) (.start source.toList)
      (.start (withReturns source.toList)) where
  rest := rfl
  prev := rfl
  position n := by
    have before := Position.origin_advance_withReturns (source.toList.take n)
      (source.toList.drop n)
    rw [List.take_append_drop, String.ofList_toList] at before
    rw [advance_position, advance_position, Cursor.start, Cursor.start, Text.take_withReturns]
    exact before
  plain := plain

theorem advance (at_ : Returned shift c c') (n : Nat) :
    Returned shift (c.advance n) (c'.advance (stretch c.rest n)) where
  rest := by rw [advance_rest, advance_rest, at_.rest, Text.drop_withReturns]
  prev := by
    rw [advance_prev, advance_prev, at_.rest, Text.take_withReturns, Text.getLast?_withReturns,
      at_.prev]
  position m := by
    rw [advance_rest, advance_advance, advance_advance, ← Text.stretch_add]
    exact at_.position (n + m)
  plain := fun held => by
    rw [advance_rest] at held
    exact at_.plain (List.mem_of_mem_drop held)

/-- Over a part of the text. -/
theorem advance_append (at_ : Returned shift c c') {w rest : List Char}
    (text : c.rest = w ++ rest) :
    Returned shift (c.advance w.length) (c'.advance (withReturns w).length) := by
  have moved := at_.advance w.length
  rwa [text, Text.stretch_append] at moved

theorem position_eq (at_ : Returned shift c c') :
    c'.position = c.position.mapOffset shift := by
  have here := at_.position 0
  rwa [Text.stretch_zero, advance_zero, advance_zero] at here

theorem offset_eq (at_ : Returned shift c c') : c'.offset = shift c.offset := by
  rw [offset, at_.position_eq]
  rfl

theorem lexeme (at_ : Returned shift c c') (n : Nat) :
    c'.lexeme (stretch c.rest n) = Text.returned (c.lexeme n) := by
  rw [Cursor.lexeme, Cursor.lexeme, at_.rest, Text.take_withReturns, Text.returned,
    String.toList_ofList]

theorem span (at_ : Returned shift c c') (n : Nat) :
    c'.span (stretch c.rest n) = (c.span n).mapOffset shift := by
  rw [Cursor.span, Cursor.span, at_.offset_eq, (at_.advance n).offset_eq]
  rfl

end Returned

end Cursor

/-! ## Gaps -/

namespace Host.Comment

theorem NoClose.withReturns {body : List Char} (free : NoClose body) :
    NoClose (withReturns body) := by
  induction body with
  | nil => exact free
  | cons c cs ih =>
    obtain ⟨first, others⟩ := noClose_cons.mp free
    by_cases feed : c = '\n'
    · subst feed
      rw [Text.withReturns_lineFeed]
      exact noClose_cons.mpr ⟨by simp, noClose_cons.mpr ⟨by simp, ih others⟩⟩
    · rw [Text.withReturns_cons feed]
      refine noClose_cons.mpr ⟨fun closes => first ⟨closes.1, ?_⟩, ih others⟩
      exact (Text.head?_withReturns_eq_some (by decide) (by decide) cs).mp closes.2

theorem Trivia.withReturns {gap : List Char} (trivia : Trivia gap) : Trivia (withReturns gap) := by
  induction trivia with
  | nil => exact .nil
  | @blank c rest blank _ ih =>
    by_cases feed : c = '\n'
    · subst feed
      exact .blank (by decide) (.blank blank ih)
    · rw [Text.withReturns_cons feed]
      exact .blank blank ih
  | @line body rest oneLine _ ih =>
    rw [Text.withReturns_cons (by decide), Text.withReturns_cons (by decide),
      Text.withReturns_append, Text.withReturns_of_oneLine oneLine, Text.withReturns_lineFeed]
    have line : Trivia ('/' :: '/' :: ((body ++ ['\r']) ++ '\n' :: Text.withReturns rest)) :=
      .line (by simpa using oneLine) ih
    simpa using line
  | @block body rest free _ ih =>
    rw [Text.withReturns_cons (by decide), Text.withReturns_cons (by decide),
      Text.withReturns_append, Text.withReturns_cons (by decide), Text.withReturns_cons (by decide)]
    exact .block free.withReturns ih

theorem StartsToken.ne_lineFeed {c : Char} {rest : List Char} (starts : StartsToken (c :: rest)) :
    c ≠ '\n' := by
  rintro rfl
  have visible := starts.visible
  rw [Text.isBlank_lineFeed] at visible
  cases visible

theorem StartsToken.withReturns {c : Char} {rest : List Char} (starts : StartsToken (c :: rest)) :
    StartsToken (c :: withReturns rest) := by
  obtain ⟨_, _, text, visible, apart⟩ := starts
  obtain ⟨rfl, rfl⟩ := List.cons.inj text
  refine ⟨_, _, rfl, visible, ?_⟩
  rwa [Text.head?_withReturns_eq_some (by decide) (by decide),
    Text.head?_withReturns_eq_some (by decide) (by decide)]

theorem LastTrivia.withReturns {cs : List Char} (last : LastTrivia cs) :
    LastTrivia (withReturns cs) := by
  rcases last with whole | ⟨gap, body, rfl, whole, oneLine⟩ | ⟨gap, body, rfl, whole, free⟩
  · exact .inl whole.withReturns
  · refine .inr (.inl ⟨_, body, ?_, whole.withReturns, oneLine⟩)
    rw [Text.withReturns_append, Text.withReturns_cons (by decide),
      Text.withReturns_cons (by decide), Text.withReturns_of_oneLine oneLine]
  · refine .inr (.inr ⟨_, _, ?_, whole.withReturns, free.withReturns⟩)
    rw [Text.withReturns_append, Text.withReturns_cons (by decide),
      Text.withReturns_cons (by decide)]

end Host.Comment

end Gloss

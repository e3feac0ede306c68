import Gloss.Host.Comment

/-!
# The text between tokens

`Comment.gap` reads blanks and comments with a small state machine. This module
has the grammar of what it reads: `Trivia` is a run of blanks and whole comments,
and at the end of a file such a run may end inside a comment (`EndsInLine`,
`EndsInBlock`). `StartsToken` says that neither a blank nor a comment comes next.

`exists_trivia` cuts every text where its first token starts, and
`gap_append` and `LastTrivia.gap_eq` say that a gap is read exactly that far.
-/

namespace Gloss

/-- The text ends here, or the line does. -/
def EndsLine (more : List Char) : Prop := ∀ c, more.head? = some c → c = '\n'

end Gloss

namespace Gloss.Host.Comment

/-- A text in which no block comment ends. -/
def NoClose (body : List Char) : Prop := ¬ ['*', '/'] <:+: body

/-- Blanks and whole comments: a line comment with its line feed, a block comment with its end. -/
inductive Trivia : List Char → Prop
  | nil : Trivia []
  | blank {c : Char} {rest : List Char} :
    Text.isBlank c = true → Trivia rest → Trivia (c :: rest)
  | line {body rest : List Char} :
    '\n' ∉ body → Trivia rest → Trivia ('/' :: '/' :: (body ++ '\n' :: rest))
  | block {body rest : List Char} :
    NoClose body → Trivia rest → Trivia ('/' :: '*' :: (body ++ '*' :: '/' :: rest))

/-- The text ends inside a line comment. -/
def EndsInLine (cs : List Char) : Prop :=
  ∃ gap body, cs = gap ++ '/' :: '/' :: body ∧ Trivia gap ∧ '\n' ∉ body

/-- The text ends inside a block comment. -/
def EndsInBlock (cs : List Char) : Prop :=
  ∃ gap body, cs = gap ++ '/' :: '*' :: body ∧ Trivia gap ∧ NoClose body

/-- What may stand between the last token and the end of a file. -/
def LastTrivia (cs : List Char) : Prop := Trivia cs ∨ EndsInLine cs ∨ EndsInBlock cs

/-- The text starts with a character that is no blank and opens no comment. -/
def StartsToken (cs : List Char) : Prop :=
  ∃ c rest, cs = c :: rest ∧ Text.isBlank c = false ∧
    ¬ (c = '/' ∧ (rest.head? = some '/' ∨ rest.head? = some '*'))

theorem StartsToken.exists_cons {cs : List Char} (starts : StartsToken cs) :
    ∃ c rest, cs = c :: rest := by
  obtain ⟨c, rest, text, -⟩ := starts
  exact ⟨c, rest, text⟩

theorem StartsToken.visible {c : Char} {rest : List Char} (starts : StartsToken (c :: rest)) :
    Text.isBlank c = false := by
  obtain ⟨_, _, text, visible, -⟩ := starts
  obtain ⟨rfl, rfl⟩ := List.cons.inj text
  exact visible

/-! ## Where comments end -/

theorem noClose_nil : NoClose [] := by
  simp [NoClose]

theorem noClose_cons {c : Char} {cs : List Char} :
    NoClose (c :: cs) ↔ ¬ (c = '*' ∧ cs.head? = some '/') ∧ NoClose cs := by
  unfold NoClose
  rw [List.infix_cons_iff, not_or]
  refine and_congr_left fun _ => not_congr ?_
  cases cs with
  | nil => simp [List.prefix_cons_iff]
  | cons d ds => simp [eq_comm]

/-- A text holds the end of a block comment, or none ends in it. -/
theorem exists_blockEnd (cs : List Char) :
    (∃ body rest, cs = body ++ '*' :: '/' :: rest ∧ NoClose body) ∨ NoClose cs := by
  induction cs with
  | nil => exact .inr noClose_nil
  | cons c cs ih =>
    by_cases closes : c = '*' ∧ cs.head? = some '/'
    · obtain ⟨rfl, head⟩ := closes
      obtain ⟨rest, rfl⟩ := List.head?_eq_some_iff.1 head
      exact .inl ⟨[], rest, rfl, noClose_nil⟩
    rcases ih with ⟨body, rest, rfl, free⟩ | free
    · refine .inl ⟨c :: body, rest, rfl, noClose_cons.2 ⟨?_, free⟩⟩
      -- a body that is empty is followed by a star, and any other has a head of its own
      intro closed
      rcases closed with ⟨rfl, head⟩
      obtain ⟨tail, rfl⟩ := List.head?_eq_some_iff.1 head
      exact closes ⟨rfl, rfl⟩
    · exact .inr (noClose_cons.2 ⟨closes, free⟩)

/-- A text holds the end of a line, or it has one line. -/
theorem exists_lineEnd (cs : List Char) :
    (∃ body rest, cs = body ++ '\n' :: rest ∧ '\n' ∉ body) ∨ '\n' ∉ cs := by
  by_cases held : '\n' ∈ cs
  · exact .inl (List.eq_append_cons_of_mem held)
  · exact .inr held

/-! ## The state machine along the grammar -/

theorem isBlank_slash : Text.isBlank '/' = false := by
  decide

theorem skip_nil (place : Place) (read : Nat) : skip place read [] = read := by
  cases place <;> rfl

theorem skip_line_cons (read : Nat) (c : Char) (rest : List Char) :
    skip .line read (c :: rest) =
      if c = '\n' then skip .between (read + 1) rest else skip .line (read + 1) rest :=
  rfl

theorem skip_block_cons (read : Nat) (c : Char) (rest : List Char) :
    skip .block read (c :: rest) =
      if c = '*' then skip .star (read + 1) rest else skip .block (read + 1) rest :=
  rfl

theorem skip_star_cons (read : Nat) (c : Char) (rest : List Char) :
    skip .star read (c :: rest) =
      if c = '/' then skip .between (read + 1) rest
      else if c = '*' then skip .star (read + 1) rest
      else skip .block (read + 1) rest :=
  rfl

theorem skip_slash_cons (read : Nat) (c : Char) (rest : List Char) :
    skip .between read ('/' :: c :: rest) =
      if c = '/' then skip .line (read + 2) rest
      else if c = '*' then skip .block (read + 2) rest
      else read :=
  rfl

theorem skip_blank {c : Char} (blank : Text.isBlank c = true) (read : Nat) (rest : List Char) :
    skip .between read (c :: rest) = skip .between (read + 1) rest := by
  cases rest <;> exact if_pos blank

theorem skip_visible {c : Char} (visible : Text.isBlank c = false) (other : c ≠ '/') (read : Nat)
    (rest : List Char) : skip .between read (c :: rest) = read := by
  have unspaced : ¬ Text.isBlank c = true := by
    rw [visible]
    decide
  cases rest <;> exact (if_neg unspaced).trans (if_neg other)

theorem skip_lineStart (read : Nat) (rest : List Char) :
    skip .between read ('/' :: '/' :: rest) = skip .line (read + 2) rest := by
  rw [skip_slash_cons, if_pos rfl]

theorem skip_blockStart (read : Nat) (rest : List Char) :
    skip .between read ('/' :: '*' :: rest) = skip .block (read + 2) rest := by
  rw [skip_slash_cons, if_neg (by decide), if_pos rfl]

/-- The reader of a gap stops at a token. -/
theorem StartsToken.skip {cs : List Char} (starts : StartsToken cs) (read : Nat) :
    skip .between read cs = read := by
  obtain ⟨c, rest, rfl, visible, apart⟩ := starts
  by_cases slash : c = '/'
  · subst slash
    cases rest with
    | nil => rfl
    | cons d rest =>
      have line : d ≠ '/' := fun same => apart ⟨rfl, .inl (congrArg some same)⟩
      have block : d ≠ '*' := fun same => apart ⟨rfl, .inr (congrArg some same)⟩
      rw [skip_slash_cons, if_neg line, if_neg block]
  · exact skip_visible visible slash read rest

theorem skip_line {body : List Char} (oneLine : '\n' ∉ body) (read : Nat) (rest : List Char) :
    skip .line read (body ++ '\n' :: rest) = skip .between (read + body.length + 1) rest := by
  induction body generalizing read with
  | nil => rfl
  | cons c body ih =>
    simp only [List.mem_cons, not_or] at oneLine
    rw [List.cons_append, skip_line_cons, if_neg (Ne.symm oneLine.1), ih oneLine.2,
      List.length_cons]
    congr 1
    omega

theorem skip_line_open {body : List Char} (oneLine : '\n' ∉ body) (read : Nat) :
    skip .line read body = read + body.length := by
  induction body generalizing read with
  | nil => exact skip_nil ..
  | cons c body ih =>
    simp only [List.mem_cons, not_or] at oneLine
    rw [skip_line_cons, if_neg (Ne.symm oneLine.1), ih oneLine.2, List.length_cons]
    omega

/-- Text in which no block comment ends is read inside the comment. After a star a slash would end
it. -/
theorem skip_inside {place : Place} {body : List Char} (inside : place = .block ∨ place = .star)
    (free : NoClose body) (apart : place = .star → body.head? ≠ some '/') (read : Nat)
    (more : List Char) :
    ∃ place', (place' = .block ∨ place' = .star) ∧
      skip place read (body ++ more) = skip place' (read + body.length) more := by
  induction body generalizing place read with
  | nil => exact ⟨place, inside, rfl⟩
  | cons c body ih =>
    obtain ⟨free_head, free⟩ := noClose_cons.1 free
    have step : skip place read (c :: (body ++ more)) =
        skip (if c = '*' then .star else .block) (read + 1) (body ++ more) := by
      rcases inside with rfl | rfl
      · rw [skip_block_cons]
        split <;> rfl
      · have slash : c ≠ '/' := fun same => apart rfl (congrArg some same)
        rw [skip_star_cons, if_neg slash]
        split <;> rfl
    have apart' : (if c = '*' then Place.star else .block) = .star → body.head? ≠ some '/' := by
      intro after head
      split at after
      · next star => exact free_head ⟨star, head⟩
      · cases after
    obtain ⟨place', inside', goes⟩ := ih (by split <;> simp) free apart' (read + 1)
    refine ⟨place', inside', ?_⟩
    rw [List.cons_append, step, goes, List.length_cons]
    congr 1
    omega

/-- A block comment is read to its first end, also where its body ends with stars. -/
theorem skip_block {body : List Char} (free : NoClose body) (read : Nat) (rest : List Char) :
    skip .block read (body ++ '*' :: '/' :: rest) =
      skip .between (read + body.length + 2) rest := by
  obtain ⟨place, inside, goes⟩ := skip_inside (.inl rfl) free (by simp) read ('*' :: '/' :: rest)
  rw [goes]
  rcases inside with rfl | rfl <;> rfl

theorem skip_block_open {body : List Char} (free : NoClose body) (read : Nat) :
    skip .block read body = read + body.length := by
  obtain ⟨place, -, goes⟩ := skip_inside (.inl rfl) free (by simp) read []
  rw [List.append_nil] at goes
  rw [goes, skip_nil]

/-! ## Gaps -/

/-- A complete run of blanks and comments is read, whatever follows it. -/
theorem Trivia.skip {gap : List Char} (trivia : Trivia gap) (read : Nat) (rest : List Char) :
    skip .between read (gap ++ rest) = Comment.skip .between (read + gap.length) rest := by
  induction trivia generalizing read with
  | nil => simp
  | @blank c gap blank _ ih =>
    rw [List.cons_append, skip_blank blank, ih, List.length_cons]
    congr 1
    omega
  | @line body gap oneLine _ ih =>
    simp only [List.cons_append, List.append_assoc]
    rw [skip_lineStart, skip_line oneLine, ih]
    congr 1
    simp only [List.length_cons, List.length_append]
    omega
  | @block body gap free _ ih =>
    simp only [List.cons_append, List.append_assoc]
    rw [skip_blockStart, skip_block free, ih]
    congr 1
    simp only [List.length_cons, List.length_append]
    omega

theorem Trivia.append {gap more : List Char} (left : Trivia gap) (right : Trivia more) :
    Trivia (gap ++ more) := by
  induction left with
  | nil => exact right
  | blank blank _ ih => exact .blank blank ih
  | line oneLine _ ih =>
    simp only [List.cons_append, List.append_assoc]
    exact .line oneLine ih
  | block free _ ih =>
    simp only [List.cons_append, List.append_assoc]
    exact .block free ih

theorem EndsInBlock.prepend {gap more : List Char} (block : EndsInBlock more)
    (trivia : Trivia gap) : EndsInBlock (gap ++ more) := by
  obtain ⟨inner, body, rfl, whole, free⟩ := block
  exact ⟨gap ++ inner, body, by simp, trivia.append whole, free⟩

theorem LastTrivia.prepend {gap more : List Char} (last : LastTrivia more) (trivia : Trivia gap) :
    LastTrivia (gap ++ more) := by
  rcases last with whole | ⟨inner, body, rfl, whole, oneLine⟩ | block
  · exact .inl (trivia.append whole)
  · exact .inr (.inl ⟨gap ++ inner, body, by simp, trivia.append whole, oneLine⟩)
  · exact .inr (.inr (block.prepend trivia))

/-- Unless a block comment is open, a line feed completes the run at the end of a text. -/
theorem LastTrivia.append_lineFeed {cs : List Char} (last : LastTrivia cs)
    (closed : ¬ EndsInBlock cs) : Trivia (cs ++ ['\n']) := by
  rcases last with whole | ⟨gap, body, rfl, whole, oneLine⟩ | block
  · exact whole.append (.blank (by decide) .nil)
  · have line : Trivia ('/' :: '/' :: (body ++ '\n' :: [])) := .line oneLine .nil
    simpa using whole.append line
  · exact absurd block closed

/-- The gap before a token is exactly the complete run before it. -/
theorem gap_append {gap rest : List Char} (trivia : Trivia gap) (starts : StartsToken rest) :
    Comment.gap (gap ++ rest) = gap.length := by
  rw [Comment.gap, trivia.skip, starts.skip, Nat.zero_add]

/-- The gap at the end of a file is all that is left. -/
theorem LastTrivia.gap_eq {cs : List Char} (last : LastTrivia cs) : gap cs = cs.length := by
  rcases last with whole | ⟨gap, body, rfl, whole, oneLine⟩ | ⟨gap, body, rfl, whole, free⟩
  · have read := whole.skip 0 []
    rw [List.append_nil] at read
    rw [Comment.gap, read, skip_nil, Nat.zero_add]
  · rw [Comment.gap, whole.skip, skip_lineStart, skip_line_open oneLine]
    simp only [List.length_append, List.length_cons]
    omega
  · rw [Comment.gap, whole.skip, skip_blockStart, skip_block_open free]
    simp only [List.length_append, List.length_cons]
    omega

/-- A text has one gap before its first token. -/
theorem Trivia.unique {gap gap' rest rest' : List Char} (text : gap ++ rest = gap' ++ rest')
    (trivia : Trivia gap) (trivia' : Trivia gap') (starts : StartsToken rest)
    (starts' : StartsToken rest') : gap = gap' ∧ rest = rest' := by
  have length := gap_append trivia starts
  rw [text, gap_append trivia' starts'] at length
  exact List.append_inj text length.symm

theorem LastTrivia.not_startsToken {gap rest : List Char} (last : LastTrivia (gap ++ rest))
    (trivia : Trivia gap) : ¬ StartsToken rest := by
  intro starts
  have length := last.gap_eq
  obtain ⟨c, rest, rfl⟩ := starts.exists_cons
  rw [gap_append trivia starts, List.length_append, List.length_cons] at length
  omega

/-- Every text is a complete run before a token, or a run up to the end. -/
theorem exists_trivia (cs : List Char) :
    (∃ gap rest, cs = gap ++ rest ∧ Trivia gap ∧ StartsToken rest) ∨ LastTrivia cs := by
  induction size : cs.length using Nat.strongRecOn generalizing cs with
  | ind n ih =>
  -- a first item that is trivia is put before what the shorter rest is made of
  have extend {item rest : List Char} (whole : cs = item ++ rest) (trivia : Trivia item)
      (shorter : rest.length < n) :
      (∃ gap rest, cs = gap ++ rest ∧ Trivia gap ∧ StartsToken rest) ∨ LastTrivia cs := by
    subst whole
    rcases ih _ shorter rest rfl with ⟨gap, more, rfl, complete, starts⟩ | last
    · exact .inl ⟨item ++ gap, more, (List.append_assoc ..).symm, trivia.append complete, starts⟩
    · exact .inr (last.prepend trivia)
  match cs, size with
  | [], _ => exact .inr (.inl .nil)
  | c :: cs, size =>
    rw [List.length_cons] at size
    by_cases blank : Text.isBlank c = true
    · exact extend (show c :: cs = [c] ++ cs from rfl) (.blank blank .nil) (by omega)
    by_cases opens : c = '/' ∧ (cs.head? = some '/' ∨ cs.head? = some '*')
    · obtain ⟨rfl, line | block⟩ := opens
      · obtain ⟨cs, rfl⟩ := List.head?_eq_some_iff.1 line
        rcases exists_lineEnd cs with ⟨body, rest, rfl, oneLine⟩ | oneLine
        · have whole : '/' :: '/' :: (body ++ '\n' :: rest) =
              '/' :: '/' :: (body ++ '\n' :: []) ++ rest := by
            simp
          refine extend whole (.line oneLine .nil) ?_
          simp only [List.length_cons, List.length_append] at size
          omega
        · exact .inr (.inr (.inl ⟨[], cs, rfl, .nil, oneLine⟩))
      · obtain ⟨cs, rfl⟩ := List.head?_eq_some_iff.1 block
        rcases exists_blockEnd cs with ⟨body, rest, rfl, free⟩ | free
        · have whole : '/' :: '*' :: (body ++ '*' :: '/' :: rest) =
              '/' :: '*' :: (body ++ '*' :: '/' :: []) ++ rest := by
            simp
          refine extend whole (.block free .nil) ?_
          simp only [List.length_cons, List.length_append] at size
          omega
        · exact .inr (.inr (.inr ⟨[], cs, rfl, .nil, free⟩))
    · exact .inl ⟨[], c :: cs, rfl, .nil, c, cs, rfl, by simpa using blank, opens⟩

end Gloss.Host.Comment

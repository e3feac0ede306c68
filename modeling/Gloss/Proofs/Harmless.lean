import Gloss.Proofs.Boundary

/-!
# Text in which nothing closes

What is open at the end of a text stays open in front of a harmless text, which
has no quote, no closing brace and no slash. A literal that is never closed goes
on to the end of both (`Literal.extent?_unclosed_append`), a block comment too
(`NoClose.append_harmless`), and a regular expression that is closed anywhere is
closed in the first of them (`Regex.extent?_append_harmless`).
-/

namespace Gloss.Host

/-- Nothing closes at this character. -/
def isHarmless (c : Char) : Bool := !(isQuote c || c == '}' || c == '/')

/-- Nothing closes in the text. -/
def Harmless (cs : List Char) : Prop := ∀ c ∈ cs, isHarmless c = true

theorem harmless_cons {c : Char} {cs : List Char} :
    Harmless (c :: cs) ↔ isHarmless c = true ∧ Harmless cs :=
  List.forall_mem_cons

theorem harmless_append {cs ds : List Char} :
    Harmless (cs ++ ds) ↔ Harmless cs ∧ Harmless ds :=
  List.forall_mem_append

theorem ne_of_isIdentifierPart {c other : Char} (part : isIdentifierPart c = true)
    (no : isIdentifierPart other = false) : c ≠ other := by
  rintro rfl
  rw [no] at part
  cases part

theorem isHarmless_of_isIdentifierPart {c : Char} (part : isIdentifierPart c = true) :
    isHarmless c = true := by
  have single : c ≠ '\'' := ne_of_isIdentifierPart part (by decide)
  have double : c ≠ '"' := ne_of_isIdentifierPart part (by decide)
  have back : c ≠ '\x60' := ne_of_isIdentifierPart part (by decide)
  have brace : c ≠ '}' := ne_of_isIdentifierPart part (by decide)
  have slash : c ≠ '/' := ne_of_isIdentifierPart part (by decide)
  simp [isHarmless, isQuote, single, double, back, brace, slash]

theorem isQuote_of_isIdentifierPart {c : Char} (part : isIdentifierPart c = true) :
    isQuote c = false := by
  have harmless := isHarmless_of_isIdentifierPart part
  simp only [isHarmless, Bool.not_eq_true', Bool.or_eq_false_iff] at harmless
  exact harmless.1.1

/-! ## Literals -/

namespace Layer

/-- Quoted layers are in quotes. -/
def Proper (l : Layer) : Prop :=
  match l with
  | quoted quote => isQuote quote = true
  | _ => True

/-- The layers in the place of the innermost one after a move. -/
def Move.layers : Move → List Layer
  | .read layers => layers
  | .readTwo layers => layers
  | .broken => []

theorem proper_move {l : Layer} (proper : l.Proper) (c : Char) (after : Option Char) :
    ∀ l' ∈ (l.move c after).layers, l'.Proper := by
  cases l with
  | quoted quote =>
    unfold move moveQuoted
    dsimp only
    repeat' split
    all_goals simp_all [Move.layers]
  | template =>
    unfold move moveTemplate
    dsimp only
    repeat' split
    all_goals simp [Move.layers, Proper]
  | substitution braces =>
    unfold move moveSubstitution
    dsimp only
    split
    · simp [Move.layers, Proper]
    split
    · next quote => rcases quote with rfl | rfl <;> simp [Move.layers, Proper, isQuote]
    repeat' split
    all_goals simp [Move.layers, Proper]

/-- Two characters together close no layer. -/
theorem move_ne_readTwo_nil (l : Layer) (c : Char) (after : Option Char) :
    l.move c after ≠ .readTwo [] := by
  intro moves
  cases l with
  | quoted | template | substitution =>
    simp only [move, moveQuoted, moveTemplate, moveSubstitution] at moves
    repeat' split at moves
    all_goals cases moves

/-- A harmless character closes no layer. -/
theorem move_ne_read_nil {l : Layer} (proper : l.Proper) {c : Char}
    (harmless : isHarmless c = true) (after : Option Char) : l.move c after ≠ .read [] := by
  intro moves
  have apart {other : Char} (closes : isHarmless other = false) : c ≠ other := by
    rintro rfl
    rw [closes] at harmless
    cases harmless
  cases l with
  | quoted quote =>
    unfold move moveQuoted at moves
    dsimp only at moves
    split at moves
    · cases moves
    split at moves
    · cases moves
    split at moves
    · next same =>
      have closes : isHarmless quote = false := by
        simp [isHarmless, show isQuote quote = true from proper]
      exact apart closes same
    · cases moves
  | template =>
    unfold move moveTemplate at moves
    dsimp only at moves
    split at moves
    · cases moves
    split at moves
    · next same => exact apart (by decide) same
    split at moves <;> cases moves
  | substitution braces =>
    unfold move moveSubstitution at moves
    dsimp only at moves
    split at moves
    · cases moves
    split at moves
    · cases moves
    split at moves
    · cases moves
    split at moves
    · next same => exact apart (by decide) same
    · cases moves

/-- What a move looks at after the character is whether a brace opens there. -/
theorem move_congr (l : Layer) (c : Char) {after after' : Option Char}
    (same : after = some '{' ↔ after' = some '{') : l.move c after = l.move c after' := by
  cases l with
  | quoted quote => rfl
  | template => simp only [move, moveTemplate, same]
  | substitution braces => rfl

end Layer

namespace Literal

variable {layers : List Layer} {read : Nat} {cs tail : List Char}

theorem proper_append {layers outer : List Layer} {layer : Layer} {c : Char} {after : Option Char}
    (proper : ∀ l ∈ layer :: outer, l.Proper) (moves : (layer.move c after).layers = layers) :
    ∀ l ∈ layers ++ outer, l.Proper := by
  obtain ⟨inner, others⟩ := List.forall_mem_cons.1 proper
  subst moves
  exact List.forall_mem_append.2 ⟨Layer.proper_move inner c after, others⟩

/-- A literal does not end in a harmless text. -/
theorem close_of_harmless (open_ : layers ≠ []) (proper : ∀ l ∈ layers, l.Proper)
    (harmless : Harmless cs) : close layers read cs = none := by
  fun_induction close layers read cs with
  | case1 => exact absurd rfl open_
  | case2 => rfl
  | case3 layer outer read c rest layers moves ih =>
    obtain ⟨first, others⟩ := harmless_cons.1 harmless
    have inner := (List.forall_mem_cons.1 proper).1
    refine ih (fun closed => ?_) (proper_append proper (by rw [moves]; rfl)) others
    obtain ⟨rfl, -⟩ := List.append_eq_nil_iff.1 closed
    exact Layer.move_ne_read_nil inner first _ moves
  | case4 => rfl
  | case5 layer outer read c layers d rest moves ih =>
    obtain ⟨-, others⟩ := harmless_cons.1 harmless
    obtain ⟨-, others⟩ := harmless_cons.1 others
    refine ih (fun closed => ?_) (proper_append proper (by rw [moves]; rfl)) others
    obtain ⟨rfl, -⟩ := List.append_eq_nil_iff.1 closed
    exact Layer.move_ne_readTwo_nil _ _ _ moves
  | case6 => rfl

/-- A literal that is open at the end of a line does not end in a harmless text after it. -/
theorem close_append_harmless (unclosed : close layers read cs = none)
    (proper : ∀ l ∈ layers, l.Proper) (harmless : Harmless tail) :
    close layers read (cs ++ '\n' :: tail) = none := by
  have feed : isHarmless '\n' = true := by decide
  have same (rest : List Char) :
      (rest ++ '\n' :: tail).head? = some '{' ↔ rest.head? = some '{' := by
    cases rest <;> simp
  fun_induction close layers read cs with
  | case1 => cases unclosed
  | case2 =>
    exact close_of_harmless (List.cons_ne_nil _ _) proper (harmless_cons.2 ⟨feed, harmless⟩)
  | case3 layer outer read c rest layers moves ih =>
    have moves' := (layer.move_congr c (same rest)).trans moves
    rw [List.cons_append, close, moves']
    exact ih unclosed (proper_append proper (by rw [moves]; rfl))
  | case4 layer outer read c layers moves =>
    -- the line ends after a backslash, which hides the line feed
    have moves' := (layer.move_congr c (same [])).trans moves
    rw [List.cons_append, close, moves']
    refine close_of_harmless (fun closed => ?_) (proper_append proper (by rw [moves]; rfl)) harmless
    obtain ⟨rfl, -⟩ := List.append_eq_nil_iff.1 closed
    exact Layer.move_ne_readTwo_nil _ _ _ moves
  | case5 layer outer read c layers d rest moves ih =>
    have moves' := (layer.move_congr c (same (d :: rest))).trans moves
    rw [List.cons_append, close, moves']
    exact ih unclosed (proper_append proper (by rw [moves]; rfl))
  | case6 layer outer read c rest moves =>
    have moves' := (layer.move_congr c (same rest)).trans moves
    rw [List.cons_append, close, moves']

/-- A literal that is never closed is not closed in a harmless text on the next lines. -/
theorem extent?_unclosed_append {c : Char} (unclosed : extent? (c :: cs) = some .unclosed)
    (harmless : Harmless tail) : extent? (c :: (cs ++ '\n' :: tail)) = some .unclosed := by
  have ofEnd {end_ : Option Nat} (open_ : Extent.ofEnd end_ = .unclosed) : end_ = none := by
    cases end_ with
    | none => rfl
    | some length => cases open_
  simp only [extent?] at unclosed ⊢
  split at unclosed
  · next quote =>
    have proper : ∀ l ∈ [Layer.quoted c], l.Proper := by
      rintro l held
      obtain rfl := List.mem_singleton.1 held
      rcases quote with rfl | rfl <;> rfl
    rw [if_pos quote, close_append_harmless (ofEnd (Option.some.inj unclosed)) proper harmless]
    rfl
  next other =>
  split at unclosed
  · next quote =>
    have proper : ∀ l ∈ [Layer.template], l.Proper := by
      rintro l held
      obtain rfl := List.mem_singleton.1 held
      trivial
    rw [if_neg other, if_pos quote,
      close_append_harmless (ofEnd (Option.some.inj unclosed)) proper harmless]
    rfl
  · cases unclosed

end Literal

/-! ## Regular expressions and comments -/

namespace Regex

variable {inClass : Bool} {read length : Nat} {cs tail : List Char}

theorem close_of_harmless (harmless : Harmless tail) : close inClass read tail = none := by
  fun_induction close inClass read tail with
  | case1 => rfl
  | case2 => rfl
  | case3 => rfl
  | case4 inClass read d rest line ih =>
    exact ih (harmless_cons.1 (harmless_cons.1 harmless).2).2
  | case5 inClass read rest line escape ih => exact ih (harmless_cons.1 harmless).2
  | case6 inClass read rest line escape opening ih => exact ih (harmless_cons.1 harmless).2
  | case7 inClass read c rest line escape opening closing slash =>
    obtain ⟨rfl, -⟩ := slash
    exact absurd (harmless_cons.1 harmless).1 (by decide)
  | case8 inClass read c rest line escape opening closing slash ih =>
    exact ih (harmless_cons.1 harmless).2

/-- A body that is not closed on its line is not closed in a harmless text after it. -/
theorem close_append_harmless (unclosed : close inClass read cs = none)
    (harmless : Harmless tail) : close inClass read (cs ++ '\n' :: tail) = none := by
  fun_induction close inClass read cs with
  | case1 => cases tail <;> rfl
  | case2 inClass read rest => cases rest <;> rfl
  | case3 inClass read line =>
    -- the line ends after a backslash, which hides the line feed
    show close inClass (read + 2) tail = none
    exact close_of_harmless harmless
  | case4 inClass read d rest line ih => exact ih unclosed
  | case5 inClass read rest line escape ih =>
    rw [List.cons_append, close.eq_def]
    exact ih unclosed
  | case6 inClass read rest line escape opening ih =>
    rw [List.cons_append, close.eq_def]
    exact ih unclosed
  | case7 => cases unclosed
  | case8 inClass read c rest line escape opening closing slash ih =>
    rw [List.cons_append, close.eq_def]
    dsimp only
    rw [if_neg line, if_neg escape, if_neg opening, if_neg closing, if_neg slash]
    exact ih unclosed

/-- A regular expression is closed on its line, or not at all. -/
theorem extent?_append_harmless {prev : Option String}
    (unclosed : ∀ length, extent? prev ('/' :: cs) ≠ some (.closed length))
    (starts : Comment.StartsToken ('/' :: cs)) (harmless : Harmless tail) (length : Nat) :
    extent? prev ('/' :: (cs ++ '\n' :: tail)) ≠ some (.closed length) := by
  intro closed
  have comment : ¬ (cs.head? = some '/' ∨ cs.head? = some '*') := by
    obtain ⟨_, _, text, -, apart⟩ := starts
    obtain ⟨rfl, rfl⟩ := List.cons.inj text
    exact fun opens => apart ⟨rfl, opens⟩
  simp only [extent?] at closed unclosed
  split at closed
  · cases closed
  split at closed
  · cases closed
  next operand =>
  have whole := Literal.ofEnd_eq_closed.1 (Option.some.inj closed)
  obtain ⟨flagged, end_, -⟩ := Option.map_eq_some_iff.1 whole
  obtain ⟨body, end_, -⟩ := Option.map_eq_some_iff.1 end_
  cases own : close false 0 cs with
  | none =>
    rw [close_append_harmless own harmless] at end_
    cases end_
  | some body' =>
    rw [if_neg comment, if_neg operand, closeFlags, own] at unclosed
    exact unclosed _ rfl

end Regex

/-- A block comment that is never closed does not end in a harmless text. -/
theorem Comment.NoClose.append_harmless {cs tail : List Char} (free : NoClose cs)
    (harmless : Harmless tail) : NoClose (cs ++ '\n' :: tail) := by
  induction cs with
  | nil =>
    refine noClose_cons.2 ⟨fun closes => absurd closes.1 (by decide), fun held => ?_⟩
    have slash : '/' ∈ tail := held.subset (by simp)
    exact absurd (harmless '/' slash) (by decide)
  | cons c cs ih =>
    obtain ⟨apart, free⟩ := noClose_cons.1 free
    refine noClose_cons.2 ⟨?_, ih free⟩
    intro closes
    rcases closes with ⟨star, head⟩
    cases cs with
    | nil => exact absurd (Option.some.inj head) (by decide)
    | cons d cs => exact apart ⟨star, head⟩

theorem Comment.EndsInBlock.append_harmless {cs tail : List Char} (block : EndsInBlock cs)
    (harmless : Harmless tail) : EndsInBlock (cs ++ '\n' :: tail) := by
  obtain ⟨gap, body, rfl, trivia, free⟩ := block
  exact ⟨gap, body ++ '\n' :: tail, by simp, trivia, free.append_harmless harmless⟩

end Gloss.Host

import Gloss.Proofs.Step

/-!
# What a token depends on

The kind and the length of a host token depend on its own characters and on
little of what follows them. `KeepsApart w tail tail'` says that `tail'` keeps
the text `w` before it apart at least as well as `tail` does, and
`Token.shape_append` that a token is then read the same in front of both. The
exceptions are a literal that is never closed, which goes on to the end, and a
slash, which looks through its line for the end of a regular expression.
-/

namespace Gloss

open Host

/-- After a visible character the second text starts with a blank, or with the character that
the first starts with, or it is empty. -/
def KeepsApart (w tail tail' : List Char) : Prop :=
  ∀ b c, w.getLast? = some b → Text.isBlank b = false → tail'.head? = some c →
    Text.isBlank c = true ∨ tail.head? = some c

theorem KeepsApart.of_append {w more tail tail' : List Char}
    (apart : KeepsApart (w ++ more) tail tail') : KeepsApart more tail tail' := by
  intro b c last visible head
  refine apart b c ?_ visible head
  rw [List.getLast?_append, last]
  rfl

/-- After visible characters alone the second text is kept apart. -/
theorem KeepsApart.head {w tail tail' : List Char} (apart : KeepsApart w tail tail')
    (nonempty : w ≠ []) (visible : ∀ b ∈ w, Text.isBlank b = false) {c : Char}
    (head : tail'.head? = some c) : Text.isBlank c = true ∨ tail.head? = some c := by
  obtain ⟨b, last⟩ := Option.isSome_iff_exists.1 (List.getLast?_isSome.2 nonempty)
  exact apart b c last (visible b (List.mem_of_getLast? last)) head

/-! ## Blanks are in no word -/

namespace Text

/-- A blank has one of these code points. -/
def blankCodes : List Nat :=
  [9, 10, 11, 12, 13, 32, 133, 160, 5760, 8192, 8193, 8194, 8195, 8196, 8197, 8198, 8199, 8200,
    8201, 8202, 8232, 8233, 8239, 8287, 12288]

theorem mem_blankCodes {c : Char} (blank : isBlank c = true) : c.toNat ∈ blankCodes := by
  simp only [isBlank, inRanges, blankRanges, List.any_cons, List.any_nil, Bool.or_false,
    Bool.or_eq_true, Bool.and_eq_true, decide_eq_true_eq] at blank
  simp only [blankCodes, List.mem_cons, List.not_mem_nil, or_false]
  omega

/-- What a decision says of all blank code points holds of every blank. -/
theorem eq_false_of_isBlank {p : Char → Bool}
    (apart : ∀ code ∈ blankCodes, p (Char.ofNat code) = false) {c : Char}
    (blank : isBlank c = true) : p c = false := by
  have found := apart _ (mem_blankCodes blank)
  rwa [Char.ofNat_toNat] at found

theorem isAlphanumeric_of_isBlank {c : Char} (blank : isBlank c = true) :
    isAlphanumeric c = false :=
  eq_false_of_isBlank (by decide +kernel) blank

end Text

theorem isIdentifierPart_of_isBlank {c : Char} (blank : Text.isBlank c = true) :
    isIdentifierPart c = false := by
  have marks : (c == '_' || c == '$') = false :=
    Text.eq_false_of_isBlank (p := fun c => c == '_' || c == '$') (by decide) blank
  rw [isIdentifierPart, Text.isAlphanumeric_of_isBlank blank, Bool.false_or]
  exact marks

theorem isNumberPart_of_isBlank {c : Char} (blank : Text.isBlank c = true) :
    isNumberPart c = false := by
  have marks : (c == '.' || c == '_') = false :=
    Text.eq_false_of_isBlank (p := fun c => c == '.' || c == '_') (by decide) blank
  rw [isNumberPart, Text.isAlphanumeric_of_isBlank blank, Bool.false_or]
  exact marks

theorem Host.Regex.isFlag_of_isBlank {c : Char} (blank : Text.isBlank c = true) :
    isFlag c = false :=
  Text.eq_false_of_isBlank (by decide) blank

theorem takeWhile_append_eq_left {p : Char → Bool} {w tail : List Char} :
    (w ++ tail).takeWhile p = w ↔
      (∀ c ∈ w, p c = true) ∧ ∀ c, tail.head? = some c → p c = false := by
  constructor
  · intro run
    have member : ∀ c ∈ w, p c = true := by
      intro c held
      rw [← run] at held
      exact List.all_eq_true.1 List.all_takeWhile c held
    rw [List.takeWhile_append_of_pos member, List.append_right_eq_self] at run
    refine ⟨member, fun c head => ?_⟩
    obtain ⟨tail, rfl⟩ := List.head?_eq_some_iff.1 head
    cases part : p c with
    | false => rfl
    | true =>
      rw [List.takeWhile_cons_of_pos part] at run
      cases run
  · intro run
    rcases run with ⟨member, stops⟩
    rw [List.takeWhile_append_of_pos member, List.append_right_eq_self]
    cases tail with
    | nil => rfl
    | cons c tail => exact List.takeWhile_cons_of_neg (by rw [stops c rfl]; decide)

theorem takeWhile_of_length {p : Char → Bool} {w tail : List Char}
    (length : ((w ++ tail).takeWhile p).length = w.length) : (w ++ tail).takeWhile p = w := by
  obtain ⟨rest, whole⟩ := List.takeWhile_prefix p (l := w ++ tail)
  exact (List.append_inj whole length).1

/-- A run of characters that are no blanks ends in front of the second text where it ends in
front of the first. -/
theorem takeWhile_of_keepsApart {p : Char → Bool}
    (unspaced : ∀ c, Text.isBlank c = true → p c = false) {v w tail tail' : List Char}
    (run : (w ++ tail).takeWhile p = w) (nonempty : v ≠ [])
    (visible : ∀ b ∈ v, Text.isBlank b = false) (apart : KeepsApart (v ++ w) tail tail') :
    (w ++ tail').takeWhile p = w := by
  obtain ⟨member, stops⟩ := takeWhile_append_eq_left.1 run
  have visible' : ∀ b ∈ v ++ w, Text.isBlank b = false := by
    intro b held
    rcases List.mem_append.1 held with held | held
    · exact visible b held
    · cases blank : Text.isBlank b with
      | false => rfl
      | true => exact absurd (member b held) (by rw [unspaced b blank]; decide)
  refine takeWhile_append_eq_left.2 ⟨member, fun c head => ?_⟩
  rcases apart.head (List.append_ne_nil_of_left_ne_nil nonempty w) visible' head with blank | head
  · exact unspaced c blank
  · exact stops c head

/-! ## Literals -/

namespace Host

theorem Layer.move_eq_read_nil {l : Layer} {c : Char} {after : Option Char}
    (closes : l.move c after = .read []) (after' : Option Char) : l.move c after' = .read [] := by
  cases l with
  | quoted quote => exact closes
  | substitution braces => exact closes
  | template =>
    simp only [move, moveTemplate] at closes ⊢
    split at closes
    · cases closes
    split at closes
    · next other quote => rw [if_neg other, if_pos quote]
    split at closes <;> cases closes

namespace Literal

theorem eq_nil_of_close {layers : List Layer} {read : Nat} {cs : List Char}
    (closed : close layers read cs = some read) : layers = [] := by
  match layers, cs with
  | [], _ => rfl
  | _ :: _, [] => cases closed
  | layer :: outer, c :: cs =>
    rw [close] at closed
    split at closed
    · have bound := close_le closed
      omega
    · split at closed
      · cases closed
      · have bound := close_le closed
        omega
    · cases closed

/-- The end of a literal is found without a look at what comes after it. -/
theorem close_append {layers : List Layer} {read : Nat} {w tail : List Char}
    (closed : close layers read (w ++ tail) = some (read + w.length)) (tail' : List Char) :
    close layers read (w ++ tail') = some (read + w.length) := by
  generalize text : w ++ tail = cs at closed
  fun_induction close layers read cs generalizing w with
  | case1 _ read =>
    have length := Option.some.inj closed
    obtain rfl : w = [] := List.length_eq_zero_iff.1 (by omega)
    simp [close]
  | case2 => cases closed
  | case3 layer outer read c rest layers moves ih =>
    cases w with
    | nil =>
      have bound := close_le closed
      simp only [List.length_nil] at bound
      omega
    | cons d w =>
      obtain ⟨rfl, rfl⟩ := List.cons.inj text
      have length : read + (d :: w).length = read + 1 + w.length := by
        rw [List.length_cons]
        omega
      rw [length] at closed ⊢
      have more := ih rfl closed
      have moves' : layer.move d (w ++ tail').head? = .read layers := by
        cases w with
        | cons e w => exact moves
        | nil =>
          -- nothing is left to close, so the character before the tail is the one that closes
          obtain ⟨rfl, rfl⟩ := List.append_eq_nil_iff.1 (eq_nil_of_close closed)
          exact Layer.move_eq_read_nil moves _
      simp only [List.cons_append, close, moves', more]
  | case4 => cases closed
  | case5 layer outer read c layers d rest moves ih =>
    match w with
    | [] =>
      have bound := close_le closed
      simp only [List.length_nil] at bound
      omega
    | [e] =>
      have bound := close_le closed
      simp only [List.length_cons, List.length_nil] at bound
      omega
    | e :: f :: w =>
      obtain ⟨rfl, text'⟩ := List.cons.inj text
      obtain ⟨rfl, rfl⟩ := List.cons.inj text'
      have length : read + (e :: f :: w).length = read + 2 + w.length := by
        simp only [List.length_cons]
        omega
      rw [length] at closed ⊢
      have more := ih rfl closed
      have moves' : layer.move e (f :: (w ++ tail')).head? = .readTwo layers := moves
      simp only [List.cons_append, close, moves', more]
  | case6 => cases closed

theorem ofEnd_eq_closed {end_ : Option Nat} {length : Nat} :
    Extent.ofEnd end_ = .closed length ↔ end_ = some length := by
  cases end_ <;> simp [Extent.ofEnd]

theorem extent?_eq_none {c : Char} {rest : List Char} :
    extent? (c :: rest) = none ↔ isQuote c = false := by
  simp only [extent?, isQuote]
  split
  · next quote => rcases quote with rfl | rfl <;> simp
  · next other =>
    rw [not_or] at other
    split <;> simp_all

/-- A closed literal is the same in front of every text. -/
theorem extent?_closed_append {c : Char} {w tail : List Char}
    (closed : extent? (c :: (w ++ tail)) = some (.closed (w.length + 1))) (tail' : List Char) :
    extent? (c :: (w ++ tail')) = some (.closed (w.length + 1)) := by
  have length : w.length + 1 = 1 + w.length := Nat.add_comm ..
  simp only [extent?, length] at closed ⊢
  split at closed
  · next quote =>
    have end_ := ofEnd_eq_closed.1 (Option.some.inj closed)
    rw [if_pos quote, close_append end_ tail', Extent.ofEnd]
  · next other =>
    split at closed
    · next quote =>
      have end_ := ofEnd_eq_closed.1 (Option.some.inj closed)
      rw [if_neg other, if_pos quote, close_append end_ tail', Extent.ofEnd]
    · cases closed

end Literal

/-! ## Regular expressions -/

namespace Regex

/-- The text is read to its last character, a slash, without a look at what comes after it. -/
def Body (inClass : Bool) (w : List Char) : Prop :=
  w.getLast? = some '/' ∧
    ∀ read tail, close inClass read (w ++ tail) = some (read + w.length)

theorem Body.cons {inClass inClass' : Bool} {c : Char} {w : List Char} (body : Body inClass' w)
    (goes : ∀ read more, close inClass read (c :: more) = close inClass' (read + 1) more) :
    Body inClass (c :: w) := by
  obtain ⟨last, closed⟩ := body
  refine ⟨by rw [List.getLast?_cons, last]; rfl, fun read tail => ?_⟩
  rw [List.cons_append, goes, closed, List.length_cons]
  congr 1
  omega

theorem Body.escape {inClass : Bool} {c : Char} {w : List Char} (body : Body inClass w) :
    Body inClass ('\\' :: c :: w) := by
  obtain ⟨last, closed⟩ := body
  refine ⟨by rw [List.getLast?_cons, List.getLast?_cons, last]; rfl, fun read tail => ?_⟩
  have goes : close inClass read ('\\' :: c :: w ++ tail) =
      close inClass (read + 2) (w ++ tail) := by
    simp [close]
  rw [goes, closed]
  simp only [List.length_cons]
  congr 1
  omega

/-- A character after which reading goes on is one of the body, and so is the next. -/
theorem exists_cons_of_close {inClass : Bool} {read : Nat} {c : Char} {w tail rest : List Char}
    (closed : close inClass (read + 1) rest = some (read + w.length))
    (text : w ++ tail = c :: rest) :
    ∃ w', w = c :: w' ∧ w' ++ tail = rest ∧
      close inClass (read + 1) (w' ++ tail) = some (read + 1 + w'.length) := by
  have bound := (close_le closed).1
  cases w with
  | nil =>
    rw [List.length_nil] at bound
    omega
  | cons d w =>
    obtain ⟨rfl, rfl⟩ := List.cons.inj text
    refine ⟨w, rfl, rfl, ?_⟩
    have length : read + (d :: w).length = read + 1 + w.length := by
      rw [List.length_cons]
      omega
    rw [← length]
    exact closed

theorem body_of_close {inClass : Bool} {read : Nat} {w tail : List Char}
    (closed : close inClass read (w ++ tail) = some (read + w.length)) : Body inClass w := by
  generalize text : w ++ tail = cs at closed
  fun_induction close inClass read cs generalizing w with
  | case1 => cases closed
  | case2 => cases closed
  | case3 => cases closed
  | case4 inClass read d rest line ih =>
    have bound := (close_le closed).1
    rcases w with - | ⟨c, - | ⟨e, w⟩⟩
    · rw [List.length_nil] at bound
      omega
    · rw [List.length_singleton] at bound
      omega
    · simp only [List.cons_append, List.cons.injEq] at text
      obtain ⟨rfl, rfl, rfl⟩ := text
      have length : read + ('\\' :: e :: w).length = read + 2 + w.length := by
        simp only [List.length_cons]
        omega
      rw [length] at closed
      exact (ih rfl closed).escape
  | case5 inClass read rest line escape ih =>
    obtain ⟨w, rfl, rfl, closed'⟩ := exists_cons_of_close closed text
    exact (ih rfl closed').cons fun read more => by cases more <;> rfl
  | case6 inClass read rest line escape opening ih =>
    obtain ⟨w, rfl, rfl, closed'⟩ := exists_cons_of_close closed text
    exact (ih rfl closed').cons fun read more => by cases more <;> rfl
  | case7 inClass read c rest line escape opening closing slash =>
    obtain ⟨rfl, rfl⟩ := slash
    have length : w.length = 1 := by
      have := Option.some.inj closed
      omega
    obtain ⟨c, rfl⟩ := List.length_eq_one_iff.1 length
    obtain ⟨rfl, -⟩ := List.cons.inj text
    refine ⟨rfl, fun read tail => ?_⟩
    cases tail <;> rfl
  | case8 inClass read c rest line escape opening closing slash ih =>
    obtain ⟨w, rfl, rfl, closed'⟩ := exists_cons_of_close closed text
    refine (ih rfl closed').cons fun read more => ?_
    rw [close.eq_def]
    dsimp only
    rw [if_neg line, if_neg escape, if_neg opening, if_neg closing, if_neg slash]

/-- A closed regular expression with its flags is the same in front of every text that keeps it
apart. -/
theorem closeFlags_append {w tail tail' : List Char}
    (closed : closeFlags (w ++ tail) = some w.length) (apart : KeepsApart w tail tail') :
    closeFlags (w ++ tail') = some w.length ∧ w ≠ [] := by
  obtain ⟨length, end_, total⟩ := Option.map_eq_some_iff.1 closed
  obtain ⟨body, flags, rfl, rfl⟩ : ∃ body flags, w = body ++ flags ∧ body.length = length := by
    refine ⟨w.take length, w.drop length, (List.take_append_drop ..).symm, ?_⟩
    rw [List.length_take]
    omega
  rw [List.append_assoc] at end_ total
  rw [List.drop_left, List.length_append, Nat.add_left_cancel_iff] at total
  have run := takeWhile_of_length total
  obtain ⟨last, closes⟩ := body_of_close (by rw [end_, Nat.zero_add])
  have nonempty : body ≠ [] := by
    rintro rfl
    cases last
  have run' : (flags ++ tail').takeWhile isFlag = flags := by
    obtain ⟨init, rfl⟩ := List.getLast?_eq_some_iff.1 last
    rw [List.append_assoc] at apart
    exact takeWhile_of_keepsApart (fun c => isFlag_of_isBlank) run (List.cons_ne_nil _ _)
      (List.forall_mem_singleton.2 Comment.isBlank_slash) apart.of_append
  refine ⟨?_, List.append_ne_nil_of_left_ne_nil nonempty _⟩
  rw [closeFlags, List.append_assoc, closes, Option.map_some, Nat.zero_add, List.drop_left, run',
    List.length_append]

theorem extent?_closed_append {prev : Option String} {c : Char} {w tail tail' : List Char}
    (closed : extent? prev (c :: (w ++ tail)) = some (.closed (w.length + 1)))
    (apart : KeepsApart (c :: w) tail tail') :
    extent? prev (c :: (w ++ tail')) = some (.closed (w.length + 1)) := by
  by_cases slash : c = '/'
  · subst slash
    simp only [extent?] at closed ⊢
    split at closed
    · cases closed
    next comment =>
    split at closed
    · cases closed
    next operand =>
    have end_ := Literal.ofEnd_eq_closed.1 (Option.some.inj closed)
    obtain ⟨length, flags, total⟩ := Option.map_eq_some_iff.1 end_
    obtain rfl : length = w.length := by omega
    have apart' : KeepsApart w tail tail' := KeepsApart.of_append (w := ['/']) apart
    obtain ⟨flags', nonempty⟩ := closeFlags_append flags apart'
    have head : (w ++ tail').head? = (w ++ tail).head? := by
      cases w with
      | nil => exact absurd rfl nonempty
      | cons d w => rfl
    rw [head, if_neg comment, if_neg operand, flags']
    rfl
  · simp [extent?, slash] at closed

theorem extent?_congr {prev prev' : Option String}
    (same : prev'.any endsOperand = prev.any endsOperand) (cs : List Char) :
    extent? prev' cs = extent? prev cs := by
  unfold extent?
  rw [same]

theorem extent?_of_ne_slash {c : Char} (other : c ≠ '/') (prev : Option String)
    (rest : List Char) : extent? prev (c :: rest) = none := by
  simp [extent?, other]

end Regex

end Host

/-! ## Tokens -/

theorem Host.Comment.StartsToken.append {c : Char} {w tail tail' : List Char}
    (starts : StartsToken (c :: (w ++ tail))) (apart : KeepsApart (c :: w) tail tail') :
    StartsToken (c :: (w ++ tail')) := by
  obtain ⟨_, _, text, visible, comment⟩ := starts
  obtain ⟨rfl, rfl⟩ := List.cons.inj text
  refine ⟨c, _, rfl, visible, ?_⟩
  cases w with
  | cons d w => exact comment
  | nil =>
    intro shared
    rcases shared with ⟨rfl, head⟩
    have same {d : Char} (mark : Text.isBlank d = false) (head : tail'.head? = some d) :
        tail.head? = some d := by
      rcases apart.head (by simp) (by simpa using visible) head with blank | head
      · rw [mark] at blank
        cases blank
      · exact head
    rcases head with head | head
    · exact comment ⟨rfl, .inl (same (by decide) head)⟩
    · exact comment ⟨rfl, .inr (same (by decide) head)⟩

theorem identifierRun_append {c : Char} {w tail tail' : List Char}
    (run : identifierRun (w ++ tail) = w.length) (visible : Text.isBlank c = false)
    (apart : KeepsApart (c :: w) tail tail') : identifierRun (w ++ tail') = w.length := by
  have word := takeWhile_of_keepsApart (v := [c]) (fun c => isIdentifierPart_of_isBlank)
    (takeWhile_of_length run) (by simp) (by simpa using visible) apart
  rw [identifierRun, word]

theorem Token.introducerShape_append {c : Char} {w tail tail' : List Char} {kind : Kind}
    (shape : introducerShape (w ++ tail) = (kind, w.length + 1))
    (visible : Text.isBlank c = false) (apart : KeepsApart (c :: w) tail tail') :
    introducerShape (w ++ tail') = (kind, w.length + 1) := by
  unfold introducerShape at shape ⊢
  split at shape
  · next name =>
    obtain ⟨rfl, length⟩ := Prod.mk.inj shape
    have run : identifierRun (w ++ tail) = w.length := by omega
    have same : (w ++ tail').head? = (w ++ tail).head? := by
      cases w with
      | cons d w => rfl
      | nil =>
        cases tail with
        | nil => cases name
        | cons d tail =>
          have part := isIdentifierPart_of_start name
          rw [List.nil_append, identifierRun, List.takeWhile_cons_of_pos part] at run
          cases run
    rw [same, if_pos name, identifierRun_append run visible apart, Nat.add_comm]
  · next plain =>
    obtain ⟨rfl, length⟩ := Prod.mk.inj shape
    obtain rfl : w = [] := List.length_eq_zero_iff.1 (by omega)
    have plain' : ¬ ([] ++ tail').head?.any isIdentifierStart = true := by
      intro name
      cases tail' with
      | nil => cases name
      | cons d tail' =>
        rcases apart.head (by simp) (by simpa using visible) rfl with blank | head
        · have part := isIdentifierPart_of_start name
          rw [isIdentifierPart_of_isBlank blank] at part
          cases part
        · rw [List.nil_append, head] at plain
          exact plain name
    rw [if_neg plain']
    rfl

theorem Token.plainShape_append {c : Char} {w tail tail' : List Char} {kind : Kind}
    (shape : plainShape c (w ++ tail) = (kind, w.length + 1))
    (visible : Text.isBlank c = false) (apart : KeepsApart (c :: w) tail tail') :
    plainShape c (w ++ tail') = (kind, w.length + 1) := by
  unfold plainShape at shape ⊢
  split at shape
  · next word =>
    have run : identifierRun (w ++ tail) = w.length := by
      dsimp only at shape
      split at shape
      all_goals
        have length := (Prod.mk.inj shape).2
        omega
    have text (tail : List Char) : (c :: (w ++ tail)).take (1 + w.length) = c :: w := by
      rw [Nat.add_comm, List.take_succ_cons, List.take_left]
    rw [if_pos word]
    simp only [run, identifierRun_append run visible apart, text] at shape ⊢
    exact shape
  next word =>
  split at shape
  · next digit =>
    obtain ⟨rfl, length⟩ := Prod.mk.inj shape
    have run := takeWhile_of_keepsApart (v := [c]) (fun c => isNumberPart_of_isBlank)
      (takeWhile_of_length (by omega)) (by simp) (by simpa using visible) apart
    rw [if_neg word, if_pos digit, run, Nat.add_comm]
  next digit =>
  split at shape
  · next arrow =>
    obtain ⟨rfl, length⟩ := Prod.mk.inj shape
    obtain ⟨d, rfl⟩ := List.length_eq_one_iff.1 (show w.length = 1 by omega)
    have arrow' : c = '=' ∧ ([d] ++ tail').head? = some '>' := arrow
    rw [if_neg word, if_neg digit, if_pos arrow']
    rfl
  next arrow =>
  obtain ⟨rfl, length⟩ := Prod.mk.inj shape
  obtain rfl : w = [] := List.length_eq_zero_iff.1 (by omega)
  have arrow' : ¬ (c = '=' ∧ ([] ++ tail').head? = some '>') := by
    intro shared
    rcases shared with ⟨rfl, head⟩
    rcases apart.head (by simp) (by simpa using visible) head with blank | head
    · exact absurd blank (by decide)
    · exact arrow ⟨rfl, head⟩
  rw [if_neg word, if_neg digit, if_neg arrow']
  rfl

/-- A host token is read the same in front of every text that keeps it apart. -/
theorem Token.shape_append {last last' : Option Token} {c : Char} {w tail tail' : List Char}
    {kind : Kind} (shape : Token.shape last c (w ++ tail) = (kind, w.length + 1))
    (same : (last'.map (·.text)).any Regex.endsOperand =
      (last.map (·.text)).any Regex.endsOperand)
    (visible : Text.isBlank c = false) (apart : KeepsApart (c :: w) tail tail')
    (literal : Literal.extent? (c :: (w ++ tail)) = some .unclosed → tail = [] → tail' = [])
    (slash : c = '/' → w = [] → ∀ length,
      Regex.extent? (last.map (·.text)) ('/' :: tail') ≠ some (.closed length)) :
    Token.shape last' c (w ++ tail') = (kind, w.length + 1) := by
  unfold Token.shape at shape ⊢
  rw [Regex.extent?_congr same]
  split at shape
  · next extent opens =>
    obtain ⟨rfl, length⟩ := Prod.mk.inj shape
    cases extent with
    | closed n =>
      obtain rfl : n = w.length + 1 := length
      rw [Literal.extent?_closed_append opens tail']
      rfl
    | unclosed =>
      have nothing : tail = [] := by
        simp only [Extent.lengthIn, List.length_cons, List.length_append] at length
        exact List.length_eq_zero_iff.1 (by omega)
      subst nothing
      rw [literal opens rfl, opens]
      simp only [Extent.lengthIn, List.append_nil, List.length_cons]
  next opens =>
  rw [Literal.extent?_eq_none.2 (Literal.extent?_eq_none.1 opens)]
  dsimp only
  split at shape
  · next n closed =>
    obtain ⟨rfl, rfl⟩ := Prod.mk.inj shape
    rw [Regex.extent?_closed_append closed apart]
  next open_ =>
  have open' : ∀ n, Regex.extent? (last.map (·.text)) (c :: (w ++ tail')) ≠ some (.closed n) := by
    intro n
    by_cases c_slash : c = '/'
    · subst c_slash
      rw [Token.plainShape_slash] at shape
      obtain rfl : w = [] := List.length_eq_zero_iff.1 (by have := (Prod.mk.inj shape).2; omega)
      exact slash rfl rfl n
    · rw [Regex.extent?_of_ne_slash c_slash]
      simp
  split
  · next n closed => exact absurd closed (open' n)
  · exact Token.plainShape_append shape visible apart

theorem Token.hostShape_append {d : Dialect} {last last' : Option Token} {c : Char}
    {w tail tail' : List Char} {kind : Kind}
    (shape : hostShape d last c (w ++ tail) = (kind, w.length + 1))
    (same : (last'.map (·.text)).any Regex.endsOperand =
      (last.map (·.text)).any Regex.endsOperand)
    (visible : Text.isBlank c = false) (apart : KeepsApart (c :: w) tail tail')
    (literal : Literal.extent? (c :: (w ++ tail)) = some .unclosed → tail = [] → tail' = [])
    (slash : c = '/' → w = [] → d.introducer ≠ '/' → ∀ length,
      Regex.extent? (last.map (·.text)) ('/' :: tail') ≠ some (.closed length)) :
    hostShape d last' c (w ++ tail') = (kind, w.length + 1) := by
  unfold hostShape at shape ⊢
  split at shape
  · next intro =>
    rw [if_pos intro]
    exact introducerShape_append shape visible apart
  · next other =>
    rw [if_neg other]
    refine shape_append shape same visible apart literal fun is_slash alone => ?_
    exact slash is_slash alone fun intro => other (is_slash.trans intro.symm)

/-- A host token that has one shape in front of two texts is read the same in front of both. -/
theorem Piece.read_of_hostShape {d : Dialect} {ctx ctx' : Context} {c c' : Cursor}
    {newlines newlines' : Nat} {ch : Char} {w tail tail' : List Char}
    (host : (read d ctx c newlines ch (w ++ tail)).1.note? = none)
    (host' : (read d ctx' c' newlines' ch (w ++ tail')).1.note? = none)
    (length : (read d ctx c newlines ch (w ++ tail)).1.length = w.length + 1)
    (here : c.rest = ch :: (w ++ tail)) (here' : c'.rest = ch :: (w ++ tail'))
    (shape : Token.hostShape d ctx'.last ch (w ++ tail') =
      Token.hostShape d ctx.last ch (w ++ tail)) :
    (read d ctx' c' newlines' ch (w ++ tail')).1.length = w.length + 1 ∧
      (read d ctx' c' newlines' ch (w ++ tail')).1.token.kind =
        (read d ctx c newlines ch (w ++ tail)).1.token.kind ∧
      (read d ctx' c' newlines' ch (w ++ tail')).1.token.text =
        (read d ctx c newlines ch (w ++ tail)).1.token.text := by
  have length' : (read d ctx' c' newlines' ch (w ++ tail')).1.length = w.length + 1 := by
    rw [(read_hostShape host').2, shape, ← (read_hostShape host).2, length]
  refine ⟨length', ?_, ?_⟩
  · rw [(read_hostShape host').1, (read_hostShape host).1, shape]
    rfl
  · rw [text_read here' host' length', text_read here host length]

end Gloss

import Gloss.Proofs.LineEnds
import Gloss.Proofs.NoteEnd

/-!
# Lines that go on after a backslash

A backslash hides one character. In front of a line feed it hides the line feed, and
in front of a carriage return with a line feed it hides the carriage return alone.
The text of a template may hold the line feed that is left, but a quoted literal or a
regular expression ends there without being closed. All else is read alike whether
lines end with a carriage return or not.
-/

namespace Gloss

open Text (withReturns stretch)

namespace Host

/-! ## Literals -/

namespace Layer

/-- In quotes, where a line may not end. -/
def isQuoted : Layer → Bool
  | quoted _ => true
  | _ => false

theorem move_return {l : Layer} (proper : l.Proper) (after : Option Char) :
    l.move '\r' after = .read [l] := by
  cases l with
  | quoted quote =>
    have other : '\r' ≠ quote := by
      rintro rfl
      exact absurd (show isQuote '\r' = true from proper) (by decide)
    simp [move, moveQuoted, other]
  | template => simp [move, moveTemplate]
  | substitution braces => simp [move, moveSubstitution]

theorem move_lineFeed (l : Layer) (after : Option Char) :
    l.move '\n' after = if l.isQuoted then .broken else .read [l] := by
  cases l with
  | quoted quote => simp [move, moveQuoted, isQuoted]
  | template => simp [move, moveTemplate, isQuoted]
  | substitution braces => simp [move, moveSubstitution, isQuoted]

/-- A character that hides a line feed changes no layer. -/
theorem layers_of_hides {l : Layer} {c : Char} {layers : List Layer}
    (moves : l.move c (some '\n') = .readTwo layers) : layers = [l] := by
  cases l with
  | quoted quote =>
    simp only [move, moveQuoted] at moves
    repeat' split at moves
    all_goals cases moves
    rfl
  | template =>
    simp only [move, moveTemplate] at moves
    split at moves
    · cases moves
      rfl
    split at moves
    · cases moves
    split at moves
    · next opens => exact absurd opens.2 (by decide)
    · cases moves
  | substitution braces =>
    simp only [move, moveSubstitution] at moves
    repeat' split at moves
    all_goals cases moves

theorem move_withReturns (l : Layer) (c : Char) (rest : List Char) :
    l.move c (withReturns rest).head? = l.move c rest.head? :=
  l.move_congr c (Text.head?_withReturns_eq_some (by decide) (by decide) rest)

end Layer

namespace Literal

/-- A backslash in quotes hides a line feed before the outermost layer is closed. -/
def continues : List Layer → List Char → Bool
  | [], _ => false
  | _ :: _, [] => false
  | layer :: outer, c :: rest =>
    match layer.move c rest.head? with
    | .read layers => continues (layers ++ outer) rest
    | .readTwo layers =>
      match rest with
      | [] => false
      | d :: rest => (layer.isQuoted && d == '\n') || continues (layers ++ outer) rest
    | .broken => false

variable {layer : Layer} {layers outer : List Layer} {c d : Char} {rest : List Char}

theorem continues_read (moves : layer.move c rest.head? = .read layers) :
    continues (layer :: outer) (c :: rest) = continues (layers ++ outer) rest := by
  rw [continues, moves]

theorem continues_readTwo (moves : layer.move c (d :: rest).head? = .readTwo layers) :
    continues (layer :: outer) (c :: d :: rest) =
      (layer.isQuoted && d == '\n' || continues (layers ++ outer) rest) := by
  rw [continues, moves]

theorem ne_lineFeed_of_readTwo {next : Option Char} (moves : layer.move c next = .readTwo layers) :
    c ≠ '\n' := by
  rintro rfl
  rw [layer.move_lineFeed] at moves
  split at moves <;> cases moves

/-- The carriage return before a line feed is read as a part of the text. -/
theorem close_read_withReturns (proper : layer.Proper)
    (moves : layer.move c rest.head? = .read layers) (n : Nat) :
    close (layer :: outer) n (withReturns (c :: rest)) =
      close (layers ++ outer) (n + stretch (c :: rest) 1) (withReturns rest) := by
  by_cases feed : c = '\n'
  · subst feed
    rw [layer.move_lineFeed] at moves
    split at moves
    · cases moves
    next text =>
    obtain rfl := Layer.Move.read.inj moves
    rw [Text.withReturns_lineFeed, close, Layer.move_return proper]
    dsimp only [List.singleton_append]
    rw [close, layer.move_lineFeed, if_neg text]
    rfl
  · rw [Text.stretch_one feed, Text.withReturns_cons feed, close, layer.move_withReturns, moves]

/-- A backslash hides the carriage return only: the line feed that is left ends a quoted literal and
is read in a template. -/
theorem close_readTwo_withReturns (moves : layer.move c (d :: rest).head? = .readTwo layers)
    (n : Nat) :
    close (layer :: outer) n (withReturns (c :: d :: rest)) =
      if layer.isQuoted && d == '\n' then none
      else close (layers ++ outer) (n + 1 + stretch (d :: rest) 1) (withReturns rest) := by
  have other := ne_lineFeed_of_readTwo moves
  have moves' := (layer.move_withReturns c (d :: rest)).trans moves
  by_cases feed : d = '\n'
  · subst feed
    obtain rfl := Layer.layers_of_hides moves
    have goes : close (layer :: outer) n (withReturns (c :: '\n' :: rest)) =
        close (layer :: outer) (n + 2) ('\n' :: withReturns rest) := by
      rw [Text.withReturns_cons other, close, moves']
      rfl
    rw [goes, close, layer.move_lineFeed]
    cases layer.isQuoted <;> rfl
  · have shown : (layer.isQuoted && d == '\n') = false := by simp [feed]
    rw [shown, Text.stretch_one feed, Text.withReturns_cons other, close, moves',
      Text.withReturns_cons feed]
    rfl

/-- A first character is counted with the carriage return before it. -/
theorem map_stretch_cons {end_ : Option Nat} {read : Nat}
    (bound : ∀ length, end_ = some length → read < length) (c : Char) (rest : List Char)
    (n : Nat) :
    (end_.map fun length => n + stretch (c :: rest) 1 + stretch rest (length - (read + 1))) =
      end_.map fun length => n + stretch (c :: rest) (length - read) := by
  refine Option.map_congr fun length closed => ?_
  have bound := bound length (Option.mem_def.mp closed)
  have split := Text.stretch_add (c :: rest) 1 (length - (read + 1))
  rw [show 1 + (length - (read + 1)) = length - read by omega, List.drop_one,
    List.tail_cons] at split
  rw [split, Nat.add_assoc]

/-- A literal is closed at the same place with carriage returns, and when a line goes on in quotes
it is not closed at all. -/
theorem close_withReturns (read : Nat) (proper : ∀ l ∈ layers, l.Proper) (cs : List Char)
    (n : Nat) :
    close layers n (withReturns cs) =
      if continues layers cs then none
      else (close layers read cs).map fun length => n + stretch cs (length - read) := by
  fun_induction close layers read cs generalizing n with
  | case1 read cs => simp [close, continues]
  | case2 => rfl
  | case3 layer outer read c rest layers moves ih =>
    have inner : ∀ l ∈ layers ++ outer, l.Proper := proper_append proper (by rw [moves]; rfl)
    rw [continues_read moves, close_read_withReturns (proper layer (.head _)) moves, ih inner,
      map_stretch_cons fun _ closed => (close_le closed).1]
  | case4 layer outer read c layers moves =>
    have moves' : layer.move c none = .readTwo layers := moves
    rw [continues, moves, Text.withReturns_cons (ne_lineFeed_of_readTwo moves),
      Text.withReturns_nil, close, List.head?_nil, moves']
    rfl
  | case5 layer outer read c layers d rest moves ih =>
    have inner : ∀ l ∈ layers ++ outer, l.Proper := proper_append proper (by rw [moves]; rfl)
    have bound {length : Nat} (closed : close (layers ++ outer) (read + 2) rest = some length) :
        read + 1 < length ∧ read < length := by
      have := (close_le closed).1
      omega
    rw [continues_readTwo moves, close_readTwo_withReturns moves]
    cases layer.isQuoted && d == '\n' with
    | true => rfl
    | false =>
      have first := map_stretch_cons (fun _ closed => (bound closed).2) c (d :: rest) n
      rw [Text.stretch_one (ne_lineFeed_of_readTwo moves)] at first
      rw [Bool.false_or, if_neg Bool.false_ne_true, ih inner,
        map_stretch_cons fun _ closed => (bound closed).1, first]
  | case6 layer outer read c rest moves =>
    rw [continues, moves]
    by_cases feed : c = '\n'
    · subst feed
      rw [Text.withReturns_lineFeed, close, Layer.move_return (proper layer (.head _))]
      dsimp only [List.singleton_append]
      have broken := (layer.move_lineFeed (withReturns rest).head?).trans
        ((layer.move_lineFeed rest.head?).symm.trans moves)
      rw [close, broken]
      rfl
    · rw [Text.withReturns_cons feed, close, layer.move_withReturns, moves]
      rfl

/-- A line goes on in the quotes of a literal that starts here. -/
def continuesFrom : List Char → Bool
  | [] => false
  | c :: rest => continues [if c = '\x60' then .template else .quoted c] rest

/-- The literal that starts here is closed, after a line that goes on in quotes. -/
def Continued (cs : List Char) : Prop :=
  (∃ length, extent? cs = some (.closed length)) ∧ continuesFrom cs = true

end Literal

/-- The extent that a construct at the start of a text has with carriage returns. -/
def Extent.stretched (cs : List Char) : Extent → Extent
  | closed length => .closed (stretch cs length)
  | unclosed => .unclosed

/-- The end of a construct, with its first characters read in both texts. -/
theorem Extent.ofEnd_stretched {cs : List Char} {read : Nat} {end_ : Option Nat}
    (bound : ∀ length, end_ = some length → read ≤ length) (same : stretch cs read = read) :
    (ofEnd end_).stretched cs =
      ofEnd (end_.map fun length => read + stretch (cs.drop read) (length - read)) := by
  cases end_ with
  | none => rfl
  | some length =>
    have split := Text.stretch_add cs read (length - read)
    rw [same, Nat.add_sub_cancel' (bound length rfl)] at split
    exact congrArg closed split

namespace Literal

/-- A literal has the same extent with carriage returns, unless a line goes on in its quotes. -/
theorem extent?_withReturns (cs : List Char) :
    extent? (withReturns cs) =
      (extent? cs).map fun e => if continuesFrom cs then .unclosed else e.stretched cs := by
  have ends {l : Layer} (proper : l.Proper) {c : Char} (other : c ≠ '\n') (rest : List Char) :
      Extent.ofEnd (close [l] 1 (withReturns rest)) =
        if continues [l] rest then .unclosed
        else (Extent.ofEnd (close [l] 1 rest)).stretched (c :: rest) := by
    rw [close_withReturns 1 (by simpa using proper)]
    split
    · rfl
    · exact (Extent.ofEnd_stretched (fun _ closed => (close_le closed).1)
        (Text.stretch_one other rest)).symm
  cases cs with
  | nil => rfl
  | cons c rest =>
    by_cases feed : c = '\n'
    · subst feed
      rfl
    rw [Text.withReturns_cons feed, extent?, extent?, continuesFrom]
    split
    · next quote =>
      have proper : (Layer.quoted c).Proper := by rcases quote with rfl | rfl <;> rfl
      have other : c ≠ '\x60' := by rcases quote with rfl | rfl <;> decide
      rw [if_neg other, ends proper feed]
      rfl
    split
    · rw [ends (l := .template) trivial feed]
      rfl
    · rfl

theorem extent?_of_not_continued {cs : List Char} (whole : ¬ Continued cs) :
    extent? (withReturns cs) = (extent? cs).map (·.stretched cs) := by
  rw [extent?_withReturns]
  refine Option.map_congr fun e opens => ?_
  cases e with
  | unclosed => exact ite_self _
  | closed length =>
    exact if_neg fun goes => whole ⟨⟨length, Option.mem_def.mp opens⟩, goes⟩

theorem Continued.extent? {cs : List Char} (continued : Continued cs) :
    extent? (withReturns cs) = some .unclosed := by
  obtain ⟨⟨length, opens⟩, goes⟩ := continued
  rw [extent?_withReturns, opens, Option.map_some, if_pos goes]

end Literal

/-! ## Regular expressions -/

namespace Regex

variable {inClass : Bool}

/-- A first character within the line leaves the rest to be looked at. -/
theorem filter_cons {end_ : Option Nat} {read : Nat}
    (bound : ∀ length, end_ = some length → read < length) {c : Char} (other : c ≠ '\n')
    (rest : List Char) (n : Nat) :
    ((end_.filter fun length => decide ('\n' ∉ rest.take (length - (read + 1)))).map
        fun length => n + 1 + (length - (read + 1))) =
      (end_.filter fun length => decide ('\n' ∉ (c :: rest).take (length - read))).map
        fun length => n + (length - read) := by
  cases end_ with
  | none => rfl
  | some length =>
    have bound := bound length rfl
    have next : length - read = length - (read + 1) + 1 := by omega
    have held : '\n' ∈ (c :: rest).take (length - read) ↔
        '\n' ∈ rest.take (length - (read + 1)) := by
      rw [next, List.take_succ_cons, List.mem_cons, or_iff_right (Ne.symm other)]
    simp only [Option.filter_some, held]
    split
    · rw [Option.map_some, Option.map_some, next]
      congr 1
      omega
    · rfl

/-- A regular expression is closed at the same place with carriage returns, and when a line goes on
in it, it is not closed at all. -/
theorem close_withReturns (read : Nat) (cs : List Char) (n : Nat) :
    close inClass n (withReturns cs) =
      ((close inClass read cs).filter fun length =>
        decide ('\n' ∉ cs.take (length - read))).map fun length => n + (length - read) := by
  fun_induction close inClass read cs generalizing n with
  | case1 => rfl
  | case2 inClass read rest =>
    have skipped : close inClass n ('\r' :: '\n' :: withReturns rest) =
        close inClass (n + 1) ('\n' :: withReturns rest) := by
      rw [close.eq_def]
      simp
    rw [Text.withReturns_lineFeed, skipped, close.eq_def]
    rfl
  | case3 inClass read line => rfl
  | case4 inClass read d rest line ih =>
    rw [Text.withReturns_cons (by decide)]
    by_cases feed : d = '\n'
    · -- the line feed that is left ends the line
      subst feed
      have broken : close inClass n ('\\' :: withReturns ('\n' :: rest)) = none := by
        rw [Text.withReturns_lineFeed, close.eq_def]
        show close inClass (n + 2) ('\n' :: withReturns rest) = none
        rw [close.eq_def]
        rfl
      rw [broken]
      cases closed : close inClass (read + 2) rest with
      | none => rfl
      | some length =>
        have bound := (close_le closed).1
        have held : '\n' ∈ ('\\' :: '\n' :: rest).take (length - read) := by
          rw [show length - read = length - (read + 2) + 1 + 1 by omega]
          simp
        rw [Option.filter_some, if_neg (by simpa using held)]
        rfl
    · have goes : close inClass n ('\\' :: withReturns (d :: rest)) =
          close inClass (n + 2) (withReturns rest) := by
        rw [Text.withReturns_cons feed, close.eq_def]
        rfl
      have bound {length : Nat} (closed : close inClass (read + 2) rest = some length) :
          read + 1 < length ∧ read < length := by
        have := (close_le closed).1
        omega
      rw [goes, ih, filter_cons (fun _ closed => (bound closed).1) feed,
        filter_cons (fun _ closed => (bound closed).2) (show '\\' ≠ '\n' by decide)]
  | case5 inClass read rest line escape ih =>
    rw [← filter_cons (fun _ closed => Nat.lt_of_succ_lt (close_le closed).1)
      (show '[' ≠ '\n' by decide), ← ih, Text.withReturns_cons (by decide), close.eq_def]
    rfl
  | case6 inClass read rest line escape opening ih =>
    rw [← filter_cons (fun _ closed => Nat.lt_of_succ_lt (close_le closed).1)
      (show ']' ≠ '\n' by decide), ← ih, Text.withReturns_cons (by decide), close.eq_def]
    rfl
  | case7 inClass read c rest line escape opening closing slash =>
    obtain ⟨rfl, rfl⟩ := slash
    have one : read + 1 - read = 1 := Nat.add_sub_cancel_left ..
    have oneLine : '\n' ∉ ('/' :: rest).take 1 := by simp
    rw [Text.withReturns_cons (by decide), Option.filter_some, one,
      if_pos (decide_eq_true oneLine), Option.map_some, one, close.eq_def]
    rfl
  | case8 inClass read c rest line escape opening closing slash ih =>
    rw [← filter_cons (fun _ closed => Nat.lt_of_succ_lt (close_le closed).1) line, ← ih,
      Text.withReturns_cons line, close.eq_def]
    dsimp only
    rw [if_neg line, if_neg escape, if_neg opening, if_neg closing, if_neg slash]

theorem closeFlags_withReturns (cs : List Char) :
    closeFlags (withReturns cs) =
      (closeFlags cs).filter fun length => decide ('\n' ∉ cs.take length) := by
  rw [closeFlags, closeFlags, close_withReturns 0]
  cases closed : close false 0 cs with
  | none => rfl
  | some length =>
    have bound := (close_le closed).2
    rw [Nat.zero_add] at bound
    have flags := Text.not_mem_takeWhile (p := isFlag) (by decide) (cs.drop length)
    have taken := List.prefix_iff_eq_take.mp (List.takeWhile_prefix isFlag (l := cs.drop length))
    have held : '\n' ∈ cs.take (length + ((cs.drop length).takeWhile isFlag).length) ↔
        '\n' ∈ cs.take length := by
      rw [List.take_add, List.mem_append, ← taken, or_iff_left flags]
    simp only [Option.filter_some, Option.map_some, Nat.sub_zero, Nat.zero_add, held]
    split
    · next oneLine =>
      have same : stretch cs length = length :=
        Text.stretch_of_oneLine (of_decide_eq_true oneLine) bound
      have left := Text.drop_withReturns cs length
      rw [same] at left
      rw [Option.map_some, Option.map_some, left,
        Text.takeWhile_withReturns (by decide) (by decide)]
    · rfl

/-- With carriage returns those regular expressions are left that lie in one line. -/
theorem extent?_closed_withReturns {prev prev' : Option String}
    (same : prev'.any endsOperand = prev.any endsOperand) (cs : List Char) (length : Nat) :
    extent? prev' (withReturns cs) = some (.closed length) ↔
      extent? prev cs = some (.closed length) ∧ '\n' ∉ cs.take length := by
  rw [extent?_congr same]
  cases cs with
  | nil => simp [extent?]
  | cons c rest =>
    by_cases slash : c = '/'
    · subst slash
      rw [Text.withReturns_cons (by decide)]
      simp only [extent?, Text.head?_withReturns_eq_some (c := '/') (by decide) (by decide),
        Text.head?_withReturns_eq_some (c := '*') (by decide) (by decide), closeFlags_withReturns]
      split
      · simp
      split
      · simp
      · cases closeFlags rest with
        | none => simp [Extent.ofEnd]
        | some body =>
          have first : '\n' ∈ ('/' :: rest).take (body + 1) ↔ '\n' ∈ rest.take body := by
            simp
          by_cases held : '\n' ∈ rest.take body
          · simp only [Option.filter_some, held, not_true, decide_false, Extent.ofEnd,
              Option.map_some, Option.some.injEq, Extent.closed.injEq]
            refine iff_of_false (by simp) ?_
            rintro ⟨rfl, oneLine⟩
            exact oneLine (first.mpr held)
          · simp only [Option.filter_some, held, not_false_eq_true, decide_true, if_true,
              Extent.ofEnd, Option.map_some, Option.some.injEq, Extent.closed.injEq]
            refine ⟨?_, And.left⟩
            rintro rfl
            exact ⟨rfl, fun oneLine => held (first.mp oneLine)⟩
    · have other : ∃ d more, withReturns (c :: rest) = d :: more ∧ d ≠ '/' := by
        by_cases feed : c = '\n'
        · exact ⟨'\r', _, by rw [feed, Text.withReturns_lineFeed], by decide⟩
        · exact ⟨c, _, Text.withReturns_cons feed rest, slash⟩
      obtain ⟨d, more, text, other⟩ := other
      rw [text, extent?_of_ne_slash other, extent?_of_ne_slash slash]
      simp

end Regex

/-! ## Comments -/

namespace Comment

theorem close_withReturns (read : Nat) (cs : List Char) (n : Nat) :
    close n (withReturns cs) =
      (close read cs).map fun length => n + stretch cs (length - read) := by
  fun_induction close read cs generalizing n with
  | case1 => rfl
  | case2 read c rest closes =>
    obtain ⟨rfl, slash⟩ := closes
    obtain ⟨more, rfl⟩ := List.head?_eq_some_iff.mp slash
    rw [Option.map_some, Nat.add_sub_cancel_left]
    rfl
  | case3 read c rest goes ih =>
    have lengths (k : Nat) (stretched : ∀ m, stretch (c :: rest) (m + 1) = stretch rest m + k) :
        ((close (read + 1) rest).map fun length => n + k + stretch rest (length - (read + 1))) =
          (close (read + 1) rest).map fun length => n + stretch (c :: rest) (length - read) := by
      refine Option.map_congr fun length closed => ?_
      have bound := (close_le (Option.mem_def.mp closed)).1
      rw [show length - read = length - (read + 1) + 1 by omega, stretched]
      omega
    by_cases feed : c = '\n'
    · subst feed
      rw [← lengths 2 (Text.stretch_lineFeed rest), ← ih]
      rfl
    · have goes' : ¬ (c = '*' ∧ (withReturns rest).head? = some '/') := by
        rwa [Text.head?_withReturns_eq_some (by decide) (by decide)]
      rw [← lengths 1 (Text.stretch_cons feed rest), ← ih, Text.withReturns_cons feed, close,
        if_neg goes']

theorem block?_withReturns (cs : List Char) :
    block? (withReturns cs) = (block? cs).map (·.stretched cs) := by
  cases cs with
  | nil => rfl
  | cons c rest =>
    by_cases feed : c = '\n'
    · subst feed
      rfl
    rw [Text.withReturns_cons feed]
    by_cases opens : c = '/' ∧ rest.head? = some '*'
    · obtain ⟨rfl, star⟩ := opens
      obtain ⟨body, rfl⟩ := List.head?_eq_some_iff.mp star
      have same : stretch ('/' :: '*' :: body) 2 = 2 := rfl
      have bound : ∀ length, close 2 body = some length → 2 ≤ length :=
        fun length closed => (close_le closed).1
      have ends := Extent.ofEnd_stretched bound same
      rw [List.drop_succ_cons, List.drop_succ_cons, List.drop_zero, ← close_withReturns 2] at ends
      exact congrArg some ends.symm
    · have opens' : ¬ (c = '/' ∧ (withReturns rest).head? = some '*') := by
        rwa [Text.head?_withReturns_eq_some (by decide) (by decide)]
      rw [block?_eq_none.mpr opens, block?_eq_none.mpr opens', Option.map_none]

end Comment

end Host

end Gloss

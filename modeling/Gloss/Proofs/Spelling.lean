import Gloss.Proofs.NoteEnd

/-!
# How an annotation is spelled

`Note.Spells` is the grammar of the five forms: an opening, a payload and a closing, with what a
form asks of the text after it. An annotation that is found is spelled by the text at its place, and
its spans cut this text where the grammar does. Where nothing but a word can stand, one is found
exactly when a word or a special character comes after the opening (`Note.scan_spelled`).
-/

namespace Gloss

open Host

/-! ## Cursors between two parts of a text -/

namespace Cursor

/-- The cursor between two parts of a text. -/
def between (before rest : List Char) : Cursor := (start (before ++ rest)).advance before.length

variable (before rest : List Char)

@[simp] theorem between_rest : (between before rest).rest = rest :=
  rest_advance_append rfl

@[simp] theorem between_prev : (between before rest).prev = before.getLast? := by
  simp [between, advance_prev, start]

@[simp] theorem between_position :
    (between before rest).position = Position.origin.advance before := by
  simp [between, start]

@[simp] theorem between_offset : (between before rest).offset = Text.width before := by
  simp [offset, Position.origin]

theorem isBoundary_between : (between before rest).IsBoundary (before ++ rest) := ⟨_, rfl⟩

end Cursor

/-! ## The grammar -/

/-- A line without its end: the carriage return before the line feed is a part of the end. -/
structure LineBody (payload after : List Char) : Prop where
  line : '\n' ∉ payload
  ends : (EndsLine after ∧ payload.getLast? ≠ some '\r') ∨
    ∃ more, after = '\r' :: more ∧ EndsLine more

/-- The introducer, with the disambiguator wherever it comes next. -/
inductive Dialect.OpensWord (d : Dialect) : List Char → List Char → Prop
  | bare {rest : List Char} :
    (∀ mark, d.disambiguator = some mark → rest.head? ≠ some mark) → d.OpensWord [d.introducer] rest
  | marked {mark : Char} {rest : List Char} :
    d.disambiguator = some mark → d.OpensWord [d.introducer, mark] rest

/-- The longest run of `?` and `!` in which none is repeated, with what it says. -/
structure Marker.Spelled (flags after : List Char) (marker : Option Marker) : Prop where
  known : ∀ c ∈ flags, c = '?' ∨ c = '!'
  once : flags.Nodup
  none_iff : marker = Option.none ↔ flags = []
  optional_iff : ∀ m, marker = some m → (m.optional = true ↔ '?' ∈ flags)
  nonNull_iff : ∀ m, marker = some m → (m.nonNull = true ↔ '!' ∈ flags)
  longest : ∀ c, after.head? = some c → c = '?' ∨ c = '!' → c ∈ flags

/-- How the opening, the payload and the closing of an annotation are written, in front of the
given text. -/
inductive Note.Spells (d : Dialect) :
    Form → Option Marker → List Char → List Char → List Char → List Char → Prop
  | hashbang {mark : Char} {payload after : List Char} :
    d.hashbang = some mark → LineBody payload after →
    Spells d .hashbang none [d.introducer, mark] payload [] after
  | block {own : Bracket} {payload after : List Char} :
    d.acceptsBlock own = true →
    Spells d (.block own) none [d.introducer, own.opening] payload [own.closing] after
  | quoted {quote : Char} {payload after : List Char} :
    d.quotedBlocks = true → isQuote quote = true →
    Spells d (.quoted quote) none [d.introducer, quote] payload [quote] after
  | word {opening word flags after : List Char} {first : Char} {marker : Option Marker} :
    d.OpensWord opening (first :: (word ++ (flags ++ after))) → isIdentifierStart first = true →
    (∀ c ∈ word, isIdentifierPart c = true) →
    (∀ c, (flags ++ after).head? = some c → isIdentifierPart c = false) →
    Marker.Spelled flags after marker →
    Spells d .word marker opening (first :: word) flags after
  | special {opening flags after : List Char} {c : Char} {marker : Option Marker} :
    d.OpensWord opening (c :: (flags ++ after)) → isIdentifierStart c = false →
    d.isSpecial c = true → Marker.Spelled flags after marker →
    Spells d .special marker opening [c] flags after

/-- The annotation of the given parts, after the given text. -/
def Note.ofParts (before : List Char) (form : Form) (opening payload closing : List Char)
    (marker : Option Marker) : Note where
  span := ⟨Text.width before, Text.width (before ++ opening ++ payload ++ closing)⟩
  form := form
  payload := String.ofList payload
  payloadSpan := ⟨Text.width (before ++ opening), Text.width (before ++ opening ++ payload)⟩
  marker := marker

/-- Only a word can stand at an introducer between these texts: no hashbang line, no block and no
quoted payload starts. -/
structure Dialect.WordAt (d : Dialect) (before more : List Char) : Prop where
  hashbang : ∀ c, more.head? = some c → ¬ (before = [] ∧ d.hashbang = some c)
  block : ∀ own : Bracket, more.head? = some own.opening → d.acceptsBlock own = false
  quoted : ∀ c, more.head? = some c → ¬ (d.quotedBlocks = true ∧ isQuote c = true)

/-- The annotation is made of the parts that the second text spells after the first, with all of its
text covered by its span and its payload by the span of the payload. -/
def Note.SpelledIn (d : Dialect) (before rest : List Char) (a : Note) : Prop :=
  ∃ opening payload closing after, rest = opening ++ (payload ++ (closing ++ after)) ∧
    Spells d a.form a.marker opening payload closing after ∧
    a = ofParts before a.form opening payload closing a.marker ∧
    a.Fits (String.ofList (before ++ rest)) ∧
    a.span.Covers (String.ofList (before ++ rest)) (String.ofList (opening ++ payload ++ closing))

/-- After the opening comes a word, which is neither a property nor a private name, or a special
character. -/
def Dialect.WordStands (d : Dialect) (memberStart : Bool) (before rest : List Char) : Prop :=
  ∃ opening x tail, rest = opening ++ x :: tail ∧ d.OpensWord opening (x :: tail) ∧
    (isIdentifierStart x = true ∧ before.getLast? ≠ some '.' ∧
        (memberStart = true → opening ≠ [d.introducer]) ∨
      isIdentifierStart x = false ∧ d.isSpecial x = true)

/-! ## Lines -/

theorem lineBody_spec (cs : List Char) :
    ∃ after, cs = Note.lineBody cs ++ after ∧ LineBody (Note.lineBody cs) after := by
  have free : '\n' ∉ cs.takeWhile (· ≠ '\n') := by
    intro held
    simpa using List.all_eq_true.mp List.all_takeWhile _ held
  have ends : EndsLine (cs.dropWhile (· ≠ '\n')) := by
    intro c first
    have stops := List.head?_dropWhile_not (· ≠ '\n') cs
    rw [first] at stops
    simpa using stops
  have whole := (List.takeWhile_append_dropWhile (p := (· ≠ '\n')) (l := cs)).symm
  unfold Note.lineBody
  dsimp only
  split
  · next return_ =>
    obtain ⟨init, line⟩ := List.getLast?_eq_some_iff.mp return_
    rw [line] at whole free
    rw [line, List.dropLast_concat]
    exact ⟨'\r' :: cs.dropWhile (· ≠ '\n'), by simpa using whole,
      fun held => free (List.mem_append_left _ held), .inr ⟨_, rfl, ends⟩⟩
  · next plain => exact ⟨_, whole, free, .inl ⟨ends, plain⟩⟩

/-! ## Flags -/

/-- The flags that are read after those that are known already. -/
structure Marker.Adds (m : Marker) (flags after : List Char) (m' : Marker) : Prop where
  known : ∀ c ∈ flags, c = '?' ∨ c = '!'
  once : flags.Nodup
  optional : m'.optional = true ↔ m.optional = true ∨ '?' ∈ flags
  nonNull : m'.nonNull = true ↔ m.nonNull = true ∨ '!' ∈ flags
  newOptional : '?' ∈ flags → m.optional = false
  newNonNull : '!' ∈ flags → m.nonNull = false
  lastOptional : after.head? = some '?' → m'.optional = true
  lastNonNull : after.head? = some '!' → m'.nonNull = true

theorem Marker.Adds.optional_cons {m m' : Marker} {flags after : List Char}
    (adds : Adds { m with optional := true } flags after m') (unset : m.optional = false) :
    Adds m ('?' :: flags) after m' where
  known := List.forall_mem_cons.mpr ⟨.inl rfl, adds.known⟩
  once := List.nodup_cons.mpr ⟨fun held => Bool.noConfusion (adds.newOptional held), adds.once⟩
  optional := by simp [adds.optional]
  nonNull := by simp [adds.nonNull]
  newOptional _ := unset
  newNonNull held := adds.newNonNull (by simpa using held)
  lastOptional := adds.lastOptional
  lastNonNull := adds.lastNonNull

theorem Marker.Adds.nonNull_cons {m m' : Marker} {flags after : List Char}
    (adds : Adds { m with nonNull := true } flags after m') (unset : m.nonNull = false) :
    Adds m ('!' :: flags) after m' where
  known := List.forall_mem_cons.mpr ⟨.inr rfl, adds.known⟩
  once := List.nodup_cons.mpr ⟨fun held => Bool.noConfusion (adds.newNonNull held), adds.once⟩
  optional := by simp [adds.optional]
  nonNull := by simp [adds.nonNull]
  newOptional held := adds.newOptional (by simpa using held)
  newNonNull _ := unset
  lastOptional := adds.lastOptional
  lastNonNull := adds.lastNonNull

theorem Marker.read_adds (m : Marker) (length : Nat) (cs : List Char) :
    ∃ flags after, cs = flags ++ after ∧ (m.read length cs).2 = length + flags.length ∧
      m.Adds flags after (m.read length cs).1 := by
  fun_induction read m length cs with
  | case1 m => exact ⟨[], [], rfl, rfl, by constructor <;> simp⟩
  | case2 m length c rest flag ih =>
    obtain ⟨rfl, unset⟩ := flag
    obtain ⟨flags, after, rfl, total, adds⟩ := ih
    refine ⟨'?' :: flags, after, rfl, ?_, adds.optional_cons unset⟩
    rw [total, List.length_cons]
    omega
  | case3 m length c rest other flag ih =>
    obtain ⟨rfl, unset⟩ := flag
    obtain ⟨flags, after, rfl, total, adds⟩ := ih
    refine ⟨'!' :: flags, after, rfl, ?_, adds.nonNull_cons unset⟩
    rw [total, List.length_cons]
    omega
  | case4 m length c rest noOptional noNull =>
    refine ⟨[], c :: rest, rfl, rfl, ?_⟩
    constructor <;> simp_all

theorem Marker.run_eq (cs : List Char) :
    run cs = (if (none.read 0 cs).2 = 0 then Option.none else some (none.read 0 cs).1,
      (none.read 0 cs).2) := by
  unfold run
  split <;> simp_all

/-- The flags that stand at a place are spelled there. -/
theorem Marker.run_spelled (cs : List Char) :
    ∃ flags after, cs = flags ++ after ∧ (run cs).2 = flags.length ∧
      Spelled flags after (run cs).1 := by
  obtain ⟨flags, after, whole, total, adds⟩ := Marker.none.read_adds 0 cs
  rw [Nat.zero_add] at total
  have optional : (none.read 0 cs).1.optional = true ↔ '?' ∈ flags :=
    adds.optional.trans (or_iff_right (by decide))
  have nonNull : (none.read 0 cs).1.nonNull = true ↔ '!' ∈ flags :=
    adds.nonNull.trans (or_iff_right (by decide))
  rw [run_eq]
  refine ⟨flags, after, whole, total, adds.known, adds.once, ?_, ?_, ?_, ?_⟩
  · simp [total]
  · intro m marker
    split at marker
    · cases marker
    · rwa [← Option.some.inj marker]
  · intro m marker
    split at marker
    · cases marker
    · rwa [← Option.some.inj marker]
  · intro c first mark
    rcases mark with rfl | rfl
    · exact optional.mp (adds.lastOptional first)
    · exact nonNull.mp (adds.lastNonNull first)

/-! ## Literals -/

/-- The character that closes a layer. -/
def Host.Layer.closer : Layer → Char
  | .quoted quote => quote
  | .template => '\x60'
  | .substitution _ => '}'

/-- A layer of quotes or of a template stays open until its own character. -/
theorem Host.Layer.getLast?_of_move {l : Layer} (literal : ∀ braces, l ≠ .substitution braces)
    {c : Char} {after : Option Char} {layers : List Layer} (moves : l.move c after = .read layers) :
    layers = [] ∧ c = l.closer ∨ layers.getLast? = some l := by
  cases l with
  | quoted quote =>
    simp only [move, moveQuoted] at moves
    repeat' split at moves
    all_goals cases moves
    · next same => exact .inl ⟨rfl, same⟩
    · exact .inr rfl
  | template =>
    simp only [move, moveTemplate] at moves
    repeat' split at moves
    all_goals cases moves
    · next same => exact .inl ⟨rfl, same⟩
    · exact .inr rfl
  | substitution braces => exact absurd rfl (literal braces)

theorem Host.Layer.getLast?_of_move_two {l : Layer}
    {c : Char} {after : Option Char} {layers : List Layer}
    (moves : l.move c after = .readTwo layers) : layers.getLast? = some l := by
  cases l with
  | quoted quote =>
    simp only [move, moveQuoted] at moves
    repeat' split at moves
    all_goals cases moves
    rfl
  | template =>
    simp only [move, moveTemplate] at moves
    repeat' split at moves
    all_goals cases moves
    · rfl
    · rfl
  | substitution braces =>
    simp only [move, moveSubstitution] at moves
    repeat' split at moves
    all_goals cases moves

/-- The outermost layer is the same above other inner layers. -/
theorem Host.Layer.getLast?_append {l bottom : Layer} {layers outer : List Layer}
    (outermost : (l :: outer).getLast? = some bottom)
    (alone : outer = [] → layers.getLast? = some l) :
    (layers ++ outer).getLast? = some bottom := by
  cases outer with
  | nil => rw [List.append_nil, alone rfl, ← outermost, List.getLast?_singleton]
  | cons l' outer =>
    rw [List.getLast?_cons_cons] at outermost
    rw [List.getLast?_append, outermost, Option.some_or]

/-- The end of a literal is the character that closes its outermost layer. -/
theorem Host.Literal.exists_append_of_close {layers : List Layer} {read length : Nat}
    {cs : List Char} {bottom : Layer} (outermost : layers.getLast? = some bottom)
    (literal : ∀ braces, bottom ≠ .substitution braces)
    (closed : close layers read cs = some length) :
    ∃ inside after, cs = inside ++ bottom.closer :: after ∧ length = read + inside.length + 1 := by
  fun_induction close layers read cs with
  | case1 => cases outermost
  | case2 => cases closed
  | case3 layer outer read c rest layers moves ih =>
    by_cases last : layers ++ outer = []
    · obtain ⟨rfl, rfl⟩ := List.append_eq_nil_iff.mp last
      rw [List.getLast?_singleton, Option.some.injEq] at outermost
      rw [List.append_nil, close, Option.some.injEq] at closed
      subst outermost closed
      rcases layer.getLast?_of_move literal moves with ⟨-, rfl⟩ | open_
      · exact ⟨[], rest, rfl, rfl⟩
      · cases open_
    · have stays : (layers ++ outer).getLast? = some bottom := by
        refine Layer.getLast?_append outermost fun alone => ?_
        subst alone
        rw [List.getLast?_singleton, Option.some.injEq] at outermost
        subst outermost
        rcases layer.getLast?_of_move literal moves with ⟨rfl, -⟩ | open_
        · exact absurd rfl last
        · exact open_
      obtain ⟨inside, after, rfl, total⟩ := ih stays closed
      refine ⟨c :: inside, after, rfl, ?_⟩
      rw [total, List.length_cons]
      omega
  | case4 => cases closed
  | case5 layer outer read c layers d rest moves ih =>
    have stays : (layers ++ outer).getLast? = some bottom :=
      Layer.getLast?_append outermost fun _ => layer.getLast?_of_move_two moves
    obtain ⟨inside, after, rfl, total⟩ := ih stays closed
    refine ⟨c :: d :: inside, after, rfl, ?_⟩
    rw [total, List.length_cons, List.length_cons]
    omega
  | case6 => cases closed

/-- A closed literal stands between two quotes of one kind. -/
theorem Host.Literal.exists_append_of_extent? {quote : Char} {rest : List Char} {length : Nat}
    (closed : extent? (quote :: rest) = some (.closed length)) :
    ∃ inside after, rest = inside ++ quote :: after ∧ length = inside.length + 2 := by
  have ends (layer : Layer) (literal : ∀ braces, layer ≠ .substitution braces)
      (closed : Extent.ofEnd (close [layer] 1 rest) = .closed length) :
      ∃ inside after, rest = inside ++ layer.closer :: after ∧ length = inside.length + 2 := by
    obtain ⟨inside, after, whole, total⟩ :=
      exists_append_of_close rfl literal (ofEnd_eq_closed.mp closed)
    exact ⟨inside, after, whole, by omega⟩
  rw [extent?] at closed
  split at closed
  · exact ends (.quoted quote) (by simp) (Option.some.inj closed)
  split at closed
  · next same =>
    rw [same]
    exact ends .template (by simp) (Option.some.inj closed)
  · cases closed

/-! ## The parts of an annotation -/

namespace Note

variable {d : Dialect} {memberStart : Bool} {c : Cursor} {a : Note} {length : Nat}

theorem scan_single (text : c.rest = [d.introducer]) :
    scan d memberStart c = scanWord d memberStart c := by
  rw [scan, text]
  simp

theorem scan_cons {ch : Char} {rest : List Char} (text : c.rest = d.introducer :: ch :: rest) :
    scan d memberStart c =
      if c.offset = 0 ∧ d.hashbang = some ch then scanHashbang ch c
      else
        match (Bracket.ofOpening? ch).filter d.acceptsBlock with
        | some own => scanBlock d own c
        | none =>
          if d.quotedBlocks ∧ isQuote ch then scanQuoted ch c else scanWord d memberStart c := by
  rw [scan, text]
  exact if_neg (by simp)

/-- An annotation starts with the introducer. -/
theorem exists_cons_of_scan (found : scan d memberStart c = .found a length) :
    ∃ more, c.rest = d.introducer :: more := by
  unfold scan at found
  split at found
  · cases found
  next first rest text =>
  split at found
  · cases found
  · next same => exact ⟨rest, by rw [text, Decidable.not_not.mp same]⟩

/-- An annotation in front of the given text, with what is cut out for it. -/
def SpelledAt (d : Dialect) (c : Cursor) (a : Note) (length : Nat) : Prop :=
  ∃ opening payload closing after, c.rest = opening ++ (payload ++ (closing ++ after)) ∧
    Spells d a.form a.marker opening payload closing after ∧
    a = cut c a.form opening.length payload.length closing.length a.marker ∧
    length = opening.length + payload.length + closing.length

/-- The opening of a word stands at its introducer. -/
theorem exists_opensWord {more : List Char} (here : c.rest = d.introducer :: more) :
    ∃ opening rest, c.rest = opening ++ rest ∧ opening.length = wordOpening d c ∧
      d.OpensWord opening rest := by
  have bare (off : ∀ mark, d.disambiguator = some mark → more.head? ≠ some mark) :
      ∃ opening rest, c.rest = opening ++ rest ∧ opening.length = 1 ∧ d.OpensWord opening rest :=
    ⟨[d.introducer], more, here, rfl, .bare off⟩
  have next : (c.rest.drop 1).head? = more.head? := by rw [here]; rfl
  unfold wordOpening
  rw [next]
  split
  · next mark ch set first =>
    split
    · next same =>
      subst same
      obtain ⟨rest, rfl⟩ := List.head?_eq_some_iff.mp first
      exact ⟨[d.introducer, mark], rest, here, rfl, .marked set⟩
    · next other =>
      refine bare fun mark' set' first' => other ?_
      obtain rfl := Option.some.inj (set.symm.trans set')
      exact Option.some.inj (first'.symm.trans first)
  · next absent =>
    exact bare fun mark set first => absent mark mark set first

theorem wordOpening_eq_one {opening rest : List Char} (size : opening.length = wordOpening d c)
    (opens : d.OpensWord opening rest) : wordOpening d c = 1 ↔ opening = [d.introducer] := by
  rw [← size]
  cases opens <;> simp

/-- The opening of a word is determined by the text. -/
theorem opensWord_unique {opening rest opening' rest' : List Char}
    (opens : d.OpensWord opening rest) (opens' : d.OpensWord opening' rest')
    (same : opening ++ rest = opening' ++ rest') : opening = opening' ∧ rest = rest' := by
  cases opens with
  | bare off =>
    cases opens' with
    | bare => simpa using same
    | @marked mark _ set =>
      simp only [List.cons_append, List.nil_append, List.cons.injEq, true_and] at same
      exact absurd (by rw [same]; rfl) (off mark set)
  | @marked mark _ set =>
    cases opens' with
    | bare off =>
      simp only [List.cons_append, List.nil_append, List.cons.injEq, true_and] at same
      exact absurd (by rw [← same]; rfl) (off mark set)
    | @marked mark' _ set' =>
      obtain rfl := Option.some.inj (set.symm.trans set')
      simpa using same

theorem spelledAt_flagged {form : Form} {opening payload : List Char} (rest : List Char)
    (here : c.rest = opening ++ (payload ++ rest))
    (spells : ∀ flags after marker, rest = flags ++ after → Marker.Spelled flags after marker →
      Spells d form marker opening payload flags after)
    (found : flagged c form opening.length payload.length = .found a length) :
    SpelledAt d c a length := by
  have left : c.rest.drop (opening.length + payload.length) = rest := by
    rw [here, ← List.drop_drop, List.drop_left, List.drop_left]
  obtain ⟨flags, after, whole, total, spelled⟩ := Marker.run_spelled rest
  rw [flagged, left, total] at found
  obtain ⟨rfl, rfl⟩ := Scan.found.inj found
  exact ⟨opening, payload, flags, after, by rw [here, whole], spells flags after _ whole spelled,
    rfl, rfl⟩

theorem spelledAt_scanWord {more : List Char} (here : c.rest = d.introducer :: more)
    (found : scanWord d memberStart c = .found a length) : SpelledAt d c a length := by
  obtain ⟨opening, rest, text, size, opens⟩ := exists_opensWord here
  obtain ⟨x, more, left, forms⟩ := scanWord_eq_found.mp found
  rw [text, ← size, List.drop_left] at left
  subst left
  rw [← size] at forms
  rcases forms with ⟨start, -, -, found⟩ | ⟨other, special, found⟩
  · have run : more = more.takeWhile isIdentifierPart ++ more.dropWhile isIdentifierPart :=
      List.takeWhile_append_dropWhile.symm
    have long : 1 + identifierRun more = (x :: more.takeWhile isIdentifierPart).length := by
      rw [List.length_cons, Nat.add_comm]
      rfl
    rw [long] at found
    refine spelledAt_flagged (more.dropWhile isIdentifierPart) ?_ ?_ found
    · rw [text, List.cons_append, ← run]
    · intro flags after marker whole spelled
      rw [whole] at run
      refine .word (by rwa [← run]) start (fun c => List.all_eq_true.mp List.all_takeWhile c) ?_
        spelled
      intro c first
      rw [← whole] at first
      have stops := List.head?_dropWhile_not isIdentifierPart more
      rw [first] at stops
      simpa using stops
  · have here : c.rest = opening ++ ([x] ++ more) := text
    refine spelledAt_flagged more here ?_ found
    intro flags after marker whole spelled
    exact .special (by rwa [← whole]) other special spelled

theorem spelledAt_scanHashbang {mark : Char} {more : List Char}
    (here : c.rest = d.introducer :: mark :: more) (set : d.hashbang = some mark)
    (found : scanHashbang mark c = .found a length) : SpelledAt d c a length := by
  obtain ⟨after, whole, body⟩ := lineBody_spec more
  have left : c.rest.drop 2 = more := by rw [here]; rfl
  unfold scanHashbang at found
  rw [left] at found
  split at found
  · cases found
  · obtain ⟨rfl, rfl⟩ := Scan.found.inj found
    exact ⟨[d.introducer, mark], lineBody more, [], after, by simpa [here] using whole,
      .hashbang set body, rfl, rfl⟩

theorem spelledAt_scanBlock {own : Bracket} {more : List Char}
    (here : c.rest = d.introducer :: own.opening :: more) (accepted : d.acceptsBlock own = true)
    (found : scanBlock d own c = .found a length) : SpelledAt d c a length := by
  unfold scanBlock at found
  split at found
  · cases found
  next deep =>
  split at found
  · next size closed =>
    obtain ⟨rfl, rfl⟩ := Scan.found.inj found
    obtain ⟨items, payload, after, cut, -, -, total⟩ :=
      Block.close_sound 0 (follows_body here) closed
    obtain rfl : payload.length = size := by simpa using total
    have text : more = payload ++ own.closing :: after := by
      simpa [here] using cut.append_eq
    exact ⟨[d.introducer, own.opening], payload, [own.closing], after, by simp [here, text],
      .block accepted, rfl, rfl⟩
  · cases found

theorem spelledAt_scanQuoted {quote : Char} {more : List Char}
    (here : c.rest = d.introducer :: quote :: more) (quoted : d.quotedBlocks = true)
    (isQuote : isQuote quote = true) (found : scanQuoted quote c = .found a length) :
    SpelledAt d c a length := by
  have left : c.rest.drop 1 = quote :: more := by rw [here]; rfl
  unfold scanQuoted at found
  rw [left] at found
  split at found
  · cases found
  · cases found
  · next size closed =>
    obtain ⟨rfl, rfl⟩ := Scan.found.inj found
    obtain ⟨payload, after, rfl, rfl⟩ := Literal.exists_append_of_extent? closed
    exact ⟨[d.introducer, quote], payload, [quote], after, by simp [here],
      .quoted quoted isQuote, rfl, rfl⟩

/-- An annotation that is found is spelled by the text at its place. -/
theorem spelledAt_of_scan (found : scan d memberStart c = .found a length) :
    SpelledAt d c a length := by
  obtain ⟨more, text⟩ := exists_cons_of_scan found
  cases more with
  | nil =>
    rw [scan_single text] at found
    exact spelledAt_scanWord text found
  | cons ch more =>
    rw [scan_cons text] at found
    split at found
    · next mark => exact spelledAt_scanHashbang text mark.2 found
    split at found
    · next own opens =>
      obtain ⟨opening, accepted⟩ := Option.filter_eq_some_iff.mp opens
      obtain rfl := Bracket.ofOpening?_eq_some.mp opening
      exact spelledAt_scanBlock text accepted found
    split at found
    · next quoted => exact spelledAt_scanQuoted text quoted.1 quoted.2 found
    · exact spelledAt_scanWord text found

/-- What is cut out between two parts of a text is made of its parts. -/
theorem cut_between (before opening payload closing after : List Char) (form : Form)
    (marker : Option Marker) :
    cut (.between before (opening ++ (payload ++ (closing ++ after)))) form opening.length
      payload.length closing.length marker =
      ofParts before form opening payload closing marker := by
  have whole : (opening ++ (payload ++ (closing ++ after))).take
      (opening.length + payload.length + closing.length) = opening ++ payload ++ closing := by
    rw [← List.append_assoc, ← List.append_assoc, ← List.length_append, ← List.length_append,
      List.take_left]
  simp only [cut, ofParts, Cursor.span, Cursor.lexeme, Cursor.advance_offset, Cursor.advance_rest,
    Cursor.between_rest, Cursor.between_offset, whole, List.take_left, List.drop_left]
  simp only [Text.width_append, Nat.add_assoc]

/-- Where nothing but a word can stand, a word is looked for. -/
theorem scan_eq_scanWord {before more : List Char} (word : d.WordAt before more) :
    scan d memberStart (.between before (d.introducer :: more)) =
      scanWord d memberStart (.between before (d.introducer :: more)) := by
  have text := Cursor.between_rest before (d.introducer :: more)
  cases more with
  | nil => exact scan_single text
  | cons ch more =>
    have noMark : ¬ ((Cursor.between before (d.introducer :: ch :: more)).offset = 0 ∧
        d.hashbang = some ch) := by
      rintro ⟨zero, mark⟩
      rw [Cursor.between_offset] at zero
      have short := Text.length_le_width before
      exact word.hashbang ch rfl ⟨List.length_eq_zero_iff.mp (by omega), mark⟩
    have noBlock : (Bracket.ofOpening? ch).filter d.acceptsBlock = none := by
      refine Option.filter_eq_none_iff.mpr fun own opens => ?_
      obtain rfl := Bracket.ofOpening?_eq_some.mp opens
      rw [word.block own rfl]
      decide
    rw [scan_cons text, if_neg noMark, noBlock]
    dsimp only
    rw [if_neg (word.quoted ch rfl)]

theorem scanWord_cases (d : Dialect) (memberStart : Bool) (c : Cursor) :
    scanWord d memberStart c = .plain ∨ ∃ a length, scanWord d memberStart c = .found a length := by
  unfold scanWord flagged
  repeat' split
  all_goals first | exact .inl rfl | exact .inr ⟨_, _, rfl⟩

/-- A word is found exactly when one stands after the opening. -/
theorem exists_scanWord_iff {before more : List Char} :
    (∃ a length, scanWord d memberStart (.between before (d.introducer :: more)) =
        .found a length) ↔
      d.WordStands memberStart before (d.introducer :: more) := by
  have here := Cursor.between_rest before (d.introducer :: more)
  have prev := Cursor.between_prev before (d.introducer :: more)
  generalize Cursor.between before (d.introducer :: more) = c at here prev ⊢
  rw [Dialect.WordStands, ← here, ← prev]
  obtain ⟨opening, rest, text, size, opens⟩ := exists_opensWord here
  have left : c.rest.drop (wordOpening d c) = rest := by rw [text, ← size, List.drop_left]
  have one := wordOpening_eq_one size opens
  constructor
  · rintro ⟨a, length, found⟩
    obtain ⟨x, tail, after, forms⟩ := scanWord_eq_found.mp found
    obtain rfl := left.symm.trans after
    refine ⟨opening, x, tail, text, opens, ?_⟩
    rcases forms with ⟨start, dot, member, -⟩ | ⟨other, special, -⟩
    · exact .inl ⟨start, dot, fun expected bare => member ⟨expected, one.mpr bare⟩⟩
    · exact .inr ⟨other, special⟩
  · rintro ⟨opening', x, tail, text', opens', forms⟩
    obtain ⟨rfl, rfl⟩ := opensWord_unique opens opens' (text.symm.trans text')
    rcases forms with ⟨start, dot, member⟩ | ⟨other, special⟩
    · have unexpected : ¬ (memberStart = true ∧ wordOpening d c = 1) :=
        fun both => member both.1 (one.mp both.2)
      exact ⟨_, _, scanWord_eq_found.mpr ⟨x, tail, left, .inl ⟨start, dot, unexpected, rfl⟩⟩⟩
    · exact ⟨_, _, scanWord_eq_found.mpr ⟨x, tail, left, .inr ⟨other, special, rfl⟩⟩⟩

/-- An annotation is made of the parts that the text spells at its place, and its spans cover them.
Where nothing but a word can stand nothing is malformed, and an annotation is found exactly when a
word or a special character stands there. -/
theorem scan_spelled (d : Dialect) (memberStart : Bool) (before rest : List Char) :
    (∀ a length, scan d memberStart (.between before rest) = .found a length →
      a.SpelledIn d before rest) ∧
    ∀ more, rest = d.introducer :: more → d.WordAt before more →
      (scan d memberStart (.between before rest) = .plain ∨
        ∃ a length, scan d memberStart (.between before rest) = .found a length) ∧
      ((∃ a length, scan d memberStart (.between before rest) = .found a length) ↔
        d.WordStands memberStart before rest) := by
  constructor
  · intro a length found
    obtain ⟨opening, payload, closing, after, text, spells, parts, total⟩ := spelledAt_of_scan found
    rw [Cursor.between_rest] at text
    subst text
    have boundary := Cursor.isBoundary_between before (opening ++ (payload ++ (closing ++ after)))
    rw [← String.toList_ofList (l := before ++ _)] at boundary
    have fits := fits_cut boundary a.form opening.length payload.length closing.length a.marker
    have covers := boundary.covers (opening.length + payload.length + closing.length)
    have whole : (Cursor.between before (opening ++ (payload ++ (closing ++ after)))).lexeme
        (opening.length + payload.length + closing.length) =
        String.ofList (opening ++ payload ++ closing) := by
      rw [Cursor.lexeme, Cursor.between_rest, ← List.append_assoc, ← List.append_assoc,
        ← List.length_append, ← List.length_append, List.take_left]
    rw [← parts] at fits
    rw [cut_between] at parts
    rw [← total, ← span_of_scan found, total, whole] at covers
    exact ⟨opening, payload, closing, after, rfl, spells, parts, fits, covers⟩
  · rintro more rfl word
    rw [scan_eq_scanWord word]
    exact ⟨scanWord_cases .., exists_scanWord_iff⟩

theorem scan_spelled_word :
    (scan .hash false (.between "x ".toList "#T? y".toList) =
        .found (ofParts "x ".toList .word ['#'] ['T'] ['?'] (some ⟨true, false⟩)) 3 ∧
      (ofParts "x ".toList .word ['#'] ['T'] ['?'] (some ⟨true, false⟩)).SpelledIn .hash
        "x ".toList "#T? y".toList) ∧
    Dialect.hash.WordAt "x ".toList "T? y".toList ∧
      (scan .hash false (.between "x ".toList "#T? y".toList) = .plain ∨
        ∃ a length, scan .hash false (.between "x ".toList "#T? y".toList) = .found a length) ∧
      ((∃ a length, scan .hash false (.between "x ".toList "#T? y".toList) = .found a length) ↔
        Dialect.hash.WordStands false "x ".toList "#T? y".toList) := by
  have found : scan .hash false (.between "x ".toList "#T? y".toList) =
      .found (ofParts "x ".toList .word ['#'] ['T'] ['?'] (some ⟨true, false⟩)) 3 := by
    decide +kernel
  have word : Dialect.hash.WordAt "x ".toList "T? y".toList := by
    constructor
    · rintro c - ⟨none, -⟩
      cases none
    · intro own first
      cases own <;> first | rfl | cases first
    · rintro c - ⟨quoted, -⟩
      cases quoted
  have spelled := scan_spelled .hash false "x ".toList "#T? y".toList
  exact ⟨⟨found, spelled.1 _ _ found⟩, word, spelled.2 _ rfl word⟩

/-- A special character is an annotation, and it starts no word. -/
theorem not_found_iff_word_special :
    Dialect.hash.WordAt [] ['*'] ∧
    ¬ ((∃ a length, scan .hash false (.between [] "#*".toList) = .found a length) ↔
      ∃ opening x tail, "#*".toList = opening ++ x :: tail ∧
        Dialect.hash.OpensWord opening (x :: tail) ∧ isIdentifierStart x = true ∧
        [].getLast? ≠ some '.' ∧ (false = true → opening ≠ ['#'])) := by
  refine ⟨⟨?_, ?_, ?_⟩, fun word_iff => ?_⟩
  · rintro c first ⟨-, mark⟩
    obtain rfl := Option.some.inj first
    cases mark
  · intro own first
    cases own <;> cases first
  · rintro c - ⟨quoted, -⟩
    cases quoted
  · have found : scan .hash false (.between [] "#*".toList) =
        .found (ofParts [] .special ['#'] ['*'] [] none) 2 := by
      decide +kernel
    obtain ⟨opening, x, tail, text, opens, start, -⟩ := word_iff.mp ⟨_, _, found⟩
    cases opens with
    | bare =>
      obtain ⟨rfl, -⟩ := List.cons.inj (List.cons.inj text).2
      exact absurd start (by decide)
    | marked set => cases set

end Note

end Gloss

import Gloss.Proofs.Sites

/-!
# The frames of the walk

A step opens one frame, closes one or leaves the stack, and it changes the innermost frame as it
passes it (`Walk.step_stacks`). `Token.nest?` follows the brackets of a file with their kinds. Where
they are properly nested, the tokens after an opening one come to the bracket that closes it
(`Token.exists_closing`).
-/

namespace Gloss

open Token (Seated)

/-! ## Properly nested brackets -/

namespace Token

/-- The kind of bracket that a token opens. -/
def opens? (t : Token) : Option Bracket :=
  if t.isPunct "(" then some .paren
  else if t.isPunct "[" then some .square
  else if t.isPunct "\x7b" then some .curly
  else none

/-- The kind of bracket that a token closes. -/
def closes? (t : Token) : Option Bracket :=
  if t.isPunct ")" then some .paren
  else if t.isPunct "]" then some .square
  else if t.isPunct "\x7d" then some .curly
  else none

/-- The open brackets after a token, innermost first. Only the innermost one can be closed, by a
bracket of its kind. -/
def enter (stack : List Bracket) (t : Token) : Option (List Bracket) :=
  match t.opens?, t.closes? with
  | some b, _ => some (b :: stack)
  | none, some b => if stack.head? = some b then some stack.tail else none
  | none, none => some stack

/-- The open brackets after some tokens. Properly nested tokens leave none. -/
def nest? (stack : List Bracket) (ts : List Token) : Option (List Bracket) := ts.foldlM enter stack

/-- No word that starts a clause stands in parentheses. -/
def clausesOutside : List Bracket → List Token → Bool
  | _, [] => true
  | stack, t :: ts =>
    !(stack.contains .paren && t.isClauseWord) && (enter stack t).all (clausesOutside · ts)

/-- The number of commas outside of the brackets of a list. -/
def commas : Nat → List Token → Nat
  | _, [] => 0
  | height, t :: ts =>
    (if height = 0 ∧ t.isPunct "," = true then 1 else 0) + (turn height t).elim 0 (commas · ts)

variable {t : Token} {b : Bracket} {stack stack' : List Bracket} {ts us : List Token}

theorem isSome_opens? (t : Token) : t.opens?.isSome = t.opensBracket := by
  unfold opens? opensBracket
  split_ifs <;> simp [*]

theorem isSome_closes? (t : Token) : t.closes?.isSome = t.closesBracket := by
  unfold closes? closesBracket
  split_ifs <;> simp [*]

theorem isPunct_of_closes? (closes : t.closes? = some .paren) : t.isPunct ")" = true := by
  unfold closes? at closes
  split_ifs at closes with paren
  · exact paren
  all_goals cases closes

theorem enter_of_paren (paren : t.isPunct "(" = true) : enter stack t = some (.paren :: stack) := by
  rw [enter, opens?, if_pos paren]

theorem enter_of_plain (opens : t.opensBracket = false) (closes : t.closesBracket = false) :
    enter stack t = some stack := by
  rw [← isSome_opens?, Option.isSome_eq_false_iff, Option.isNone_iff_eq_none] at opens
  rw [← isSome_closes?, Option.isSome_eq_false_iff, Option.isNone_iff_eq_none] at closes
  rw [enter, opens, closes]

/-- A token opens a bracket, closes the innermost one, or is none. -/
theorem enter_cases (entered : enter stack t = some stack') :
    (∃ b, t.opens? = some b ∧ stack' = b :: stack) ∨
    (∃ b, t.opens? = none ∧ t.closes? = some b ∧ stack = b :: stack') ∨
      t.opens? = none ∧ t.closes? = none ∧ stack' = stack := by
  unfold enter at entered
  split at entered
  · next b opens => exact .inl ⟨b, opens, (Option.some.inj entered).symm⟩
  · next b opens closes =>
    split at entered
    · next innermost =>
      obtain ⟨outer, rfl⟩ := List.head?_eq_some_iff.mp innermost
      exact .inr (.inl ⟨b, opens, closes, congrArg _ (Option.some.inj entered)⟩)
    · cases entered
  · next opens closes => exact .inr (.inr ⟨opens, closes, (Option.some.inj entered).symm⟩)

theorem nest?_cons : nest? stack (t :: ts) = (enter stack t).bind (nest? · ts) := rfl

theorem nest?_append : nest? stack (ts ++ us) = (nest? stack ts).bind (nest? · us) :=
  List.foldlM_append

/-- The number of open brackets, whatever their kinds. -/
theorem turn_of_enter (entered : enter stack t = some stack') :
    turn stack.length t = some stack'.length := by
  rcases enter_cases entered with ⟨b, opens, rfl⟩ | ⟨b, opens, closes, rfl⟩ | ⟨opens, closes, rfl⟩
  · rw [turn_of_opens (by rw [← isSome_opens?, opens]; rfl), List.length_cons]
  · rw [turn_of_closes (by rw [← isSome_closes?, closes]; rfl), List.length_cons,
      if_neg (Nat.succ_ne_zero _), Nat.add_sub_cancel]
  · exact turn_of_plain (by rw [← isSome_opens?, opens]; rfl)
      (by rw [← isSome_closes?, closes]; rfl)

theorem height?_of_nest? (nested : nest? stack ts = some stack') :
    height? stack.length ts = some stack'.length := by
  induction ts generalizing stack with
  | nil => exact congrArg _ (congrArg _ (Option.some.inj nested))
  | cons t ts ih =>
    obtain ⟨inner, entered, later⟩ := Option.bind_eq_some_iff.mp nested
    rw [height?_cons, turn_of_enter entered]
    exact ih later

theorem clausesOutside_cons : clausesOutside stack (t :: ts) = true ↔
    (.paren ∈ stack → t.isClauseWord = false) ∧
      ∀ inner, enter stack t = some inner → clausesOutside inner ts = true := by
  rw [clausesOutside, Bool.and_eq_true, Option.all_eq_true]
  simp [← Decidable.imp_iff_not_or]

theorem clausesOutside_of_append (nested : nest? stack ts = some stack')
    (outside : clausesOutside stack (ts ++ us) = true) : clausesOutside stack' us = true := by
  induction ts generalizing stack with
  | nil => rwa [← Option.some.inj nested]
  | cons t ts ih =>
    obtain ⟨inner, entered, later⟩ := Option.bind_eq_some_iff.mp nested
    exact ih later ((clausesOutside_cons.mp outside).2 inner entered)

/-- Properly nested tokens that close an open bracket close those that are open inside it first. -/
theorem exists_closing_of_inside {inside : List Bracket}
    (nested : nest? (inside ++ b :: stack) ts = some [])
    (outside : clausesOutside (inside ++ b :: stack) ts = true) :
    ∃ inner close after, ts = inner ++ close :: after ∧ nest? inside inner = some [] ∧
      close.closes? = some b ∧ (b = .paren → ∀ t ∈ inner, t.isClauseWord = false) := by
  induction ts generalizing inside with
  | nil => exact absurd (Option.some.inj nested) (by simp)
  | cons t ts ih =>
    obtain ⟨open_, entered, later⟩ := Option.bind_eq_some_iff.mp nested
    obtain ⟨here, others⟩ := clausesOutside_cons.mp outside
    have onward {inside' : List Bracket} (same : open_ = inside' ++ b :: stack)
        (entered' : enter inside t = some inside') :
        ∃ inner close after, t :: ts = inner ++ close :: after ∧ nest? inside inner = some [] ∧
          close.closes? = some b ∧ (b = .paren → ∀ t ∈ inner, t.isClauseWord = false) := by
      obtain ⟨inner, close, after, rfl, nested, closes, clauses⟩ :=
        ih (same ▸ later) (same ▸ others _ entered)
      refine ⟨t :: inner, close, after, rfl, ?_, closes, fun paren => ?_⟩
      · rw [nest?_cons, entered']
        exact nested
      · exact List.forall_mem_cons.mpr ⟨here (by simp [paren]), clauses paren⟩
    rcases enter_cases entered with
      ⟨c, opens, rfl⟩ | ⟨c, opens, closes, split⟩ | ⟨opens, closes, rfl⟩
    · exact onward rfl (by rw [enter, opens])
    · cases inside with
      | nil =>
        obtain ⟨rfl, rfl⟩ := List.cons.inj split
        exact ⟨[], t, ts, rfl, rfl, closes, fun _ => List.forall_mem_nil _⟩
      | cons d inside =>
        obtain ⟨rfl, same⟩ := List.cons.inj split
        exact onward same.symm (by rw [enter, opens, closes]; exact if_pos rfl)
    · exact onward rfl (by rw [enter, opens, closes])

theorem plain_of_isCarried (carried : t.isCarried = true) :
    t.opensBracket = false ∧ t.closesBracket = false ∧ t.isPunct "," = false := by
  simp only [isCarried, Bool.or_eq_true] at carried
  have mark {text : String} (mark : t.isPunct text = true) (quiet : text = "*" ∨ text = "=") :
      t.opensBracket = false ∧ t.closesBracket = false ∧ t.isPunct "," = false := by
    rw [opensBracket, closesBracket]
    simp only [isPunct_eq_beq mark]
    rcases quiet with rfl | rfl <;> decide
  rcases carried with (name | star) | equals
  · obtain ⟨opens, closes⟩ := plain_of_ne (ne_punct_of_isName name)
    exact ⟨opens, closes, isPunct_eq_false (ne_punct_of_isName name) _⟩
  · exact mark star (.inl rfl)
  · exact mark equals (.inr rfl)

theorem isCarried_of_closes? (closes : t.closes? = some b) : t.isCarried = false := by
  rw [Bool.eq_false_iff]
  intro carried
  have none_ := (plain_of_isCarried carried).2.1
  rw [← isSome_closes?, closes] at none_
  cases none_

/-! Annotations are no brackets. -/

theorem plain_of_isNote (note : t.isNote = true) :
    t.opensBracket = false ∧ t.closesBracket = false := by
  refine plain_of_ne fun punct => ?_
  rw [isNote, punct] at note
  cases note

theorem nest?_hosts (stack : List Bracket) (ts : List Token) :
    nest? stack (ts.filter (!·.isNote)) = nest? stack ts := by
  induction ts generalizing stack with
  | nil => rfl
  | cons t ts ih =>
    cases note : t.isNote with
    | true =>
      obtain ⟨opens, closes⟩ := plain_of_isNote note
      rw [List.filter_cons_of_neg (by simp [note]), ih, nest?_cons, enter_of_plain opens closes]
      rfl
    | false =>
      rw [List.filter_cons_of_pos (by simp [note]), nest?_cons, nest?_cons]
      exact congrArg _ (funext ih)

theorem clausesOutside_hosts (outside : clausesOutside stack ts = true) :
    clausesOutside stack (ts.filter (!·.isNote)) = true := by
  induction ts generalizing stack with
  | nil => rfl
  | cons t ts ih =>
    obtain ⟨here, others⟩ := clausesOutside_cons.mp outside
    cases note : t.isNote with
    | true =>
      obtain ⟨opens, closes⟩ := plain_of_isNote note
      rw [List.filter_cons_of_neg (by simp [note])]
      exact ih (others stack (enter_of_plain opens closes))
    | false =>
      rw [List.filter_cons_of_pos (by simp [note])]
      exact clausesOutside_cons.mpr ⟨here, fun inner entered => ih (others inner entered)⟩

/-- In a properly nested file a parenthesis matches an opening one, and no clause starts in between
when none starts in parentheses. -/
theorem exists_closing (nested : nest? [] ts = some []) (outside : clausesOutside [] ts = true)
    {xs rest : List Seated} {paren : Seated} (split : hosts ts = xs ++ paren :: rest)
    (opens : paren.isPunct "(" = true) :
    ∃ list close after, rest = list ++ close :: after ∧
      nest? [] (list.map (·.toToken)) = some [] ∧ close.closes? = some .paren ∧
      ∀ t ∈ list, t.isClauseWord = false := by
  have seats : (hosts ts).map (·.toToken) = ts.filter (!·.isNote) := map_seatFrom ..
  have outside := clausesOutside_hosts outside
  rw [← nest?_hosts, ← seats, split, List.map_append, nest?_append] at nested
  rw [← seats, split, List.map_append] at outside
  obtain ⟨stack, before, nested⟩ := Option.bind_eq_some_iff.mp nested
  have entered : enter stack paren.toToken = some ([] ++ .paren :: stack) := enter_of_paren opens
  rw [List.map_cons, nest?_cons, entered] at nested
  have outside := (clausesOutside_cons.mp (clausesOutside_of_append before outside)).2 _ entered
  obtain ⟨list, close, after, here, inner, closes, clauses⟩ :=
    exists_closing_of_inside nested outside
  obtain ⟨list, others, rfl, rfl, last⟩ := List.map_eq_append_iff.mp here
  obtain ⟨close, after, rfl, rfl, rfl⟩ := List.map_eq_cons_iff.mp last
  exact ⟨list, close, after, rfl, inner, closes,
    fun t held => clauses rfl _ (List.mem_map_of_mem held)⟩

/-! Commas are counted along the tokens. -/

theorem height?_append {height : Nat} :
    height? height (ts ++ us) = (height? height ts).bind (height? · us) := List.foldlM_append

theorem commas_cons {height height' : Nat} (turned : turn height t = some height') :
    commas height (t :: ts) =
      (if height = 0 ∧ t.isPunct "," = true then 1 else 0) + commas height' ts := by
  rw [commas, turned]
  rfl

theorem commas_append {height height' : Nat} (turned : height? height ts = some height') :
    commas height (ts ++ us) = commas height ts + commas height' us := by
  induction ts generalizing height with
  | nil =>
    obtain rfl := Option.some.inj turned
    exact (Nat.zero_add _).symm
  | cons t ts ih =>
    obtain ⟨next, first, later⟩ := Option.bind_eq_some_iff.mp turned
    rw [List.cons_append, commas_cons first, commas_cons first, ih later, Nat.add_assoc]

/-- What is carried along is neither a bracket nor a comma. -/
theorem commas_of_isCarried (height : Nat) (carried : ∀ t ∈ ts, t.isCarried = true) :
    height? height ts = some height ∧ commas height ts = 0 := by
  induction ts with
  | nil => exact ⟨rfl, rfl⟩
  | cons t ts ih =>
    obtain ⟨first, others⟩ := List.forall_mem_cons.mp carried
    obtain ⟨opens, closes, comma⟩ := plain_of_isCarried first
    obtain ⟨turned, none_⟩ := ih others
    have here : turn height t = some height := turn_of_plain opens closes
    rw [height?_cons, commas_cons here, here, none_, comma]
    exact ⟨turned, by simp⟩

end Token

/-! ## What a step does to the frames -/

/-- A frame of a parameter list that a token may open. -/
def Frame.StartsAt (t : Token) : Frame → Prop
  | .params _ slot fresh => t.isPunct "(" = true ∧ slot = 0 ∧ fresh = true
  | _ => True

/-- All that a step can do to the frames. -/
inductive Place.Stacks (p : Place) (frames : List Frame) (s : Stride) : Prop
  | opens (f : Frame) : p.token.opensBracket = true → f.StartsAt p.token.toToken → s.length = 1 →
    s.walk.frames = f :: frames → Stacks p frames s
  | closes : p.token.closesBracket = true → s.length = 1 → s.walk.frames = frames.tail →
    Stacks p frames s
  | plain : p.token.opensBracket = false → p.token.closesBracket = false →
    s.walk.frames = frames → Stacks p frames s

namespace Walk

variable {w : Walk} {p : Place} {s : Stride}

theorem ReadsPlain.stacks (reads : w.ReadsPlain p s) : p.Stacks w.frames s := by
  have quiet {s : Stride} (quiet : p.token.isQuiet = true) (frames : s.walk.frames = w.frames) :
      p.Stacks w.frames s :=
    .plain (Token.opensBracket_of_quiet quiet) (Token.closesBracket_of_quiet quiet) frames
  have word {s : Stride} (kind : p.token.kind = .keyword) (frames : s.walk.frames = w.frames) :
      p.Stacks w.frames s := by
    have plain := Token.plain_of_ne (t := p.token.toToken) (by rw [kind]; decide)
    exact .plain plain.1 plain.2 frames
  have opens {text : String} (mark : p.token.isPunct text = true)
      (bracket : text ∈ ["(", "[", "\x7b"]) (f : Frame) (starts : f.StartsAt p.token.toToken)
      {s : Stride} (one : s.length = 1) (frames : s.walk.frames = f :: w.frames) :
      p.Stacks w.frames s :=
    .opens f (Token.opensBracket_of_isPunct mark bracket) starts one frames
  cases reads with
  | still _ still => exact .plain still.plain.1 still.plain.2 rfl
  | comma comma => exact quiet (Token.isQuiet_of_isPunct comma (by decide)) rfl
  | declares kind | function _ _ _ kind | heading _ _ _ kind | imports kind | exports _ kind =>
    exact word kind rfl
  | paren frame _ paren opened =>
    refine opens paren (by decide) frame ?_ rfl rfl
    rcases opened with rfl | ⟨owner, rfl⟩
    · trivial
    · exact ⟨paren, rfl, rfl⟩
  | square square => exact opens square (by decide) .group trivial rfl rfl
  | body name brace => exact opens brace (by decide) (.classBody name) trivial rfl rfl
  | block brace => exact opens brace (by decide) .block trivial rfl rfl
  | closing text bracket mark =>
    exact .closes (Token.closesBracket_of_isPunct mark bracket) rfl rfl
  | arrow _ ident => exact quiet (Token.isQuiet_of_ident ident) rfl

/-- The head of a member starts with a modifier, a star or its name. -/
theorem ReadsHead.stacks {owner : String} (reads : w.ReadsHead p owner s) :
    p.Stacks w.frames s := by
  obtain ⟨mods, t, sign, rest, params, binding, -, split, modifiers, name, -⟩ := reads
  have plain : p.token.opensBracket = false ∧ p.token.closesBracket = false := by
    cases mods with
    | nil =>
      obtain ⟨first, -⟩ := List.cons.inj split
      exact first ▸ Token.plain_of_ne (Token.ne_punct_of_isName name)
    | cons u mods =>
      obtain ⟨first, -⟩ := List.cons.inj split
      refine first ▸ Token.plain_of_quiet ?_
      exact (modifiers u (.head _)).elim Token.isQuiet_of_isMemberModifier
        (Token.isQuiet_of_isPunct · (by decide))
  exact .plain plain.1 plain.2 rfl

/-- The step at a token of a parameter list, after the list has read it. -/
def afterParam (p : Place) : Walk × Option (List Placement) → Stride
  | (w, some placements) => ⟨w, 1, placements⟩
  | (w, none) => w.openStep p

/-- Directly in a parameter list the step is what the list makes of the token. -/
theorem step_of_params {owner : Owner} {slot : Nat} {fresh : Bool} {outer : List Frame}
    (inside : w.frames = .params owner slot fresh :: outer) :
    w.step p = afterParam p ((w.trackDeclaration p).paramStep p owner slot fresh outer) := by
  rw [step, w.frames_trackDeclaration p, inside]
  rfl

theorem modifyHead_past (outside : w.inParams = false) :
    w.frames.modifyHead (·.past p) = w.frames := by
  cases frames : w.frames with
  | nil => rfl
  | cons f outer =>
    cases f with
    | params owner slot fresh => rw [inParams_eq_true frames] at outside; cases outside
    | group | block | classBody => rfl

/-- A step does one thing to the frames, after the innermost one has passed the token. -/
theorem step_stacks (w : Walk) (p : Place) :
    p.Stacks (w.frames.modifyHead (·.past p)) (w.step p) := by
  have reads := w.step_reads p
  rw [← w.frames_trackDeclaration p]
  generalize w.step p = s at reads ⊢
  generalize w.trackDeclaration p = w at reads ⊢
  cases reads with
  | head owner outer inside reads =>
    rw [modifyHead_past (by rw [inParams, inside])]
    exact reads.stacks
  | plain _ outside reads =>
    rw [modifyHead_past outside]
    exact reads.stacks
  | param owner slot fresh outer inside reads =>
    rw [inside, List.modifyHead_cons]
    have quiet {s : Stride} (quiet : p.token.isQuiet = true)
        (frames : s.walk.frames = (Frame.params owner slot fresh).past p :: outer) :
        p.Stacks ((Frame.params owner slot fresh).past p :: outer) s :=
      .plain (Token.opensBracket_of_quiet quiet) (Token.closesBracket_of_quiet quiet) frames
    cases reads with
    | skipped skips => exact quiet (isQuiet_of_skipped skips) rfl
    | closing closing => exact .closes (by simp [Token.closesBracket, closing]) rfl rfl
    | name _ ident past => exact quiet (Token.isQuiet_of_ident ident) (past ▸ rfl)
  | inner owner slot fresh outer inside reads later =>
    cases reads
    rw [inside, List.modifyHead_cons]
    exact later.stacks

end Walk

end Gloss

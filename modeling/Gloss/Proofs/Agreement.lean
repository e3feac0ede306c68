import Gloss.Proofs.Strides

/-!
# The reader and the walk on class bodies

The reader decides which braces open class bodies while it reads, and the walk
decides it again over the tokens. `Walk.Parts` lists the five ways in which a step
of the walk can leave the two with different nests. Before and after every step
they have the same nest exactly when no step does (`Outline.inStep_iff`), and
then the same braces open class bodies (`Reading.classBodies_agree`).
-/

namespace Gloss

open Token (Seated)

/-! ## Steps that part the two -/

section Parts

variable (d : Dialect) (source : List Char) (ts : List Token)

/-- The ways in which a step of the walk can leave the reader with another nest. -/
inductive Walk.Parts (w : Walk) (p : Place) : Prop
  /-- The name of a member is a class head for the reader, and no head waits here. -/
  | member {t : Seated} : w.memberAt? p = some t → t.heads source ts = true →
    w.nest.waitsHere = false → Parts w p
  /-- Only one of the two takes the word for a class head, and no head waits here. -/
  | word : w.memberAt? p = none → p.token.heads source ts ≠ p.headsClass →
    w.nest.waitsHere = false → Parts w p
  /-- Only the reader gives up a class head inside a parameter list that is closed. -/
  | params : w.inParams = true → p.token.isPunct ")" = true →
    w.nest.leave.waiting ≠ w.nest.waiting → Parts w p
  /-- Only the reader gives up a class head before a semicolon. -/
  | semicolon : w.memberAt? p = none → p.token.isPunct ";" = true → d.introducer ≠ ';' →
    w.nest.waitsHere = true → Parts w p
  /-- The reader comes out of a clause with another nest, or it opens a class body there. -/
  | clause : w.memberAt? p = none → p.startsClause = true →
    w.nest.through d source ts (w.taken p) ≠ w.nest ∨
      w.nest.opensBody d source ts (w.taken p) = true → Parts w p

end Parts

/-! ## When a step parts the two -/

namespace Nest

variable {d : Dialect} {source : List Char} {ts : List Token} {n : Nest}

theorem await_eq_iff : n.await = n ↔ n.waitsHere = true := by
  rw [await, waitsHere, beq_iff_eq]
  exact ⟨fun same => (congrArg waiting same).symm, fun here => by rw [← here]⟩

theorem endStatement_eq_iff : n.endStatement = n ↔ n.waitsHere = false := by
  rw [endStatement, filter_ne_eq_ite, ← Bool.not_eq_true, waitsHere, beq_iff_eq]
  constructor
  · intro same here
    rw [if_pos here] at same
    exact Option.some_ne_none _ (here.symm.trans (congrArg waiting same).symm)
  · intro other
    rw [if_neg other]

/-- A class head that is the only token that need not be quiet. -/
theorem through_word {mods more : List Seated} {t : Seated} (before : ∀ u ∈ mods, u.isQuiet = true)
    (after_ : ∀ u ∈ more, u.isQuiet = true) (word : t.kind ≠ .punct) :
    n.through d source ts (mods ++ t :: more) =
      if t.heads source ts = true then n.await else n := by
  rw [through_append, through_quiet before, through_cons, through_quiet after_]
  cases heads : t.heads source ts with
  | true => rfl
  | false => exact after_of_ne word

end Nest

theorem Token.Seated.heads_of_ne {source : List Char} {ts : List Token} {t : Seated}
    (kind : t.kind ≠ .keyword) : t.heads source ts = false := headsClass_of_ne kind

theorem Place.headsClass_of_ne {p : Place} (kind : p.token.kind ≠ .keyword) :
    p.headsClass = false := by
  simp [headsClass, kind]

section Parting

variable {d : Dialect} {source : List Char} {ts : List Token} {w : Walk} {p : Place}

/-- A punctuator can part the two in two ways only. -/
theorem Walk.Parts.of_punct (parts : w.Parts d source ts p) (kind : p.token.kind = .punct)
    (none_ : w.memberAt? p = none) :
    (w.inParams = true ∧ p.token.isPunct ")" = true ∧ w.nest.leave.waiting ≠ w.nest.waiting) ∨
      (p.token.isPunct ";" = true ∧ d.introducer ≠ ';' ∧ w.nest.waitsHere = true) := by
  have word : p.token.kind ≠ .keyword := by
    rw [kind]
    decide
  cases parts with
  | member member =>
    rw [none_] at member
    cases member
  | word _ differ => exact absurd ((Token.Seated.heads_of_ne word).trans
      (Place.headsClass_of_ne word).symm) differ
  | params inside closing differ => exact .inl ⟨inside, closing, differ⟩
  | semicolon _ semicolon other waits => exact .inr ⟨semicolon, other, waits⟩
  | clause _ starts =>
    rw [Place.startsClause, kind] at starts
    cases starts

theorem Token.kind_of_isPunct {t : Token} {text : String} (here : t.isPunct text = true) :
    t.kind = .punct := by
  simp only [isPunct, Bool.and_eq_true, beq_iff_eq] at here
  exact here.1

/-- What a step leaves of the nest, for the reader and for the walk, and whether the reader opens a
class body past the first token. -/
def Walk.Keeps (d : Dialect) (source : List Char) (ts : List Token) (w : Walk) (p : Place) : Prop :=
  w.nest.through d source ts (w.taken p) = (w.step p).walk.nest ∧
    (w.nest.after d (p.token.heads source ts) p.token.toToken).opensBody d source ts
      (p.rest.take ((w.step p).length - 1)) = false

theorem Walk.taken_eq : w.taken p = p.token :: p.rest.take ((w.step p).length - 1) := by
  rw [taken, ← Place.take_succ, Nat.sub_add_cancel (w.step_length_pos p)]

/-- Without a brace only the nests have to be compared. -/
theorem Walk.keeps_iff_of_plain (plain : ∀ t ∈ w.taken p, t.isPunct "\x7b" = false) :
    w.Keeps d source ts p ↔ w.nest.through d source ts (w.taken p) = (w.step p).walk.nest := by
  rw [taken_eq] at plain
  exact and_iff_left (Nest.opensBody_eq_false (List.forall_mem_cons.mp plain).2)

theorem Token.isPunct_of_quiet {t : Token} (quiet : t.isQuiet = true) :
    t.isPunct "\x7b" = false := isPunct_of_opens (opensBracket_of_quiet quiet)

theorem Walk.keeps_iff_of_member (reads : w.ReadsMember p w.nest (w.step p)) :
    w.Keeps d source ts p ↔ ¬ w.Parts d source ts p := by
  obtain ⟨mods, t, more, member, taken, before, after_, nest⟩ := reads
  have name := isName_of_memberAt? member
  have word : t.kind ≠ .punct := by
    intro punct
    rw [Token.isName, punct] at name
    cases name
  have plain : ∀ u ∈ w.taken p, u.isPunct "\x7b" = false := by
    intro u held
    rw [Walk.taken, taken] at held
    rcases List.mem_append.mp held with held | held
    · exact Token.isPunct_of_quiet (before u held)
    rcases List.mem_cons.mp held with rfl | held
    · exact Token.isPunct_eq_false word _
    · exact Token.isPunct_of_quiet (after_ u held)
  have parts : w.Parts d source ts p ↔
      t.heads source ts = true ∧ w.nest.waitsHere = false := by
    constructor
    · intro parts
      cases parts with
      | member member' heads waits =>
        obtain rfl := Option.some.inj (member.symm.trans member')
        exact ⟨heads, waits⟩
      | params inside =>
        rw [Walk.memberAt?_of_inParams inside] at member
        cases member
      | word none_ | semicolon none_ | clause none_ =>
        rw [none_] at member
        cases member
    · exact fun both => .member member both.1 both.2
  rw [keeps_iff_of_plain plain, parts, nest, Walk.taken, taken,
    Nest.through_word before after_ word]
  split
  · next heads => rw [Nest.await_eq_iff, heads]; simp
  · next heads => simp [heads]

theorem Walk.keeps_iff_of_params (none_ : w.memberAt? p = none) (inside : w.inParams = true)
    (closing : p.token.isPunct ")" = true) (one : (w.step p).length = 1)
    (nest : (w.step p).walk.nest = ⟨w.nest.bodies.tail, w.nest.waiting⟩) :
    w.Keeps d source ts p ↔ ¬ w.Parts d source ts p := by
  have kind := Token.kind_of_isPunct closing
  have closes : p.token.closesBracket = true := by simp [Token.closesBracket, closing]
  have taken : w.taken p = [p.token] := by rw [taken_eq, one]; rfl
  have heads : p.token.heads source ts = false :=
    Token.Seated.heads_of_ne (by rw [kind]; decide)
  have parts : w.Parts d source ts p ↔ w.nest.leave.waiting ≠ w.nest.waiting := by
    constructor
    · intro parts
      rcases parts.of_punct kind none_ with ⟨-, -, differ⟩ | ⟨semicolon, -⟩
      · exact differ
      · rw [Token.isPunct_eq_beq closing] at semicolon
        exact absurd semicolon (by decide)
    · exact .params inside closing
  rw [keeps_iff_of_plain, parts, not_ne_iff, taken, nest, Nest.through_cons, heads,
    Nest.after_closes closes]
  · exact ⟨congrArg Nest.waiting, fun same => by rw [← same]; rfl⟩
  · intro t held
    rw [taken] at held
    rw [List.mem_singleton.mp held, Token.isPunct_eq_beq closing]
    decide

section Other

variable (none_ : w.memberAt? p = none) (open_ : (w.inParams && p.token.isPunct ")") = false)
include none_ open_

theorem Walk.keeps_iff_of_quiet (quiet : ∀ t ∈ w.taken p, t.isQuiet = true)
    (nest : (w.step p).walk.nest = w.nest) :
    w.Keeps d source ts p ↔ ¬ w.Parts d source ts p := by
  have head : p.token.isQuiet = true := quiet _ (by rw [taken_eq]; exact .head _)
  have plain : ∀ t ∈ w.taken p, t.isPunct "\x7b" = false :=
    fun t held => Token.isPunct_of_quiet (quiet t held)
  have through : w.nest.through d source ts (w.taken p) = w.nest := Nest.through_quiet quiet
  have heads : p.token.heads source ts = false := Token.headsClass_of_quiet head ..
  simp only [Token.isQuiet, Bool.not_eq_true', Bool.or_eq_false_iff] at head
  rw [keeps_iff_of_plain plain, through, nest]
  refine iff_of_true rfl fun parts => ?_
  cases parts with
  | member member =>
    rw [none_] at member
    cases member
  | word _ differ =>
    refine differ (heads.trans ?_)
    rw [Place.headsClass, head.2, Bool.false_and]
  | params inside closing =>
    rw [inside, closing] at open_
    cases open_
  | semicolon _ semicolon =>
    rw [head.1.2] at semicolon
    cases semicolon
  | clause _ _ differ =>
    rcases differ with differ | opens
    · exact differ through
    · rw [Nest.opensBody_eq_false plain] at opens
      cases opens

theorem Walk.keeps_iff_of_word {more : List Seated} (kind : p.token.kind = .keyword)
    (text : p.token.text = "class") (taken : w.taken p = p.token :: more)
    (quiet : ∀ t ∈ more, t.isQuiet = true)
    (nest : (w.step p).walk.nest = if p.headsClass = true then w.nest.await else w.nest) :
    w.Keeps d source ts p ↔ ¬ w.Parts d source ts p := by
  have word : p.token.kind ≠ .punct := by
    rw [kind]
    decide
  have plain : ∀ t ∈ w.taken p, t.isPunct "\x7b" = false := by
    rw [taken]
    exact List.forall_mem_cons.mpr
      ⟨Token.isPunct_eq_false word _, fun t held => Token.isPunct_of_quiet (quiet t held)⟩
  have through : w.nest.through d source ts (p.token :: more) =
      if p.token.heads source ts = true then w.nest.await else w.nest :=
    Nest.through_word (List.forall_mem_nil _) quiet word
  have parts : w.Parts d source ts p ↔
      p.token.heads source ts ≠ p.headsClass ∧ w.nest.waitsHere = false := by
    constructor
    · intro parts
      cases parts with
      | member member =>
        rw [none_] at member
        cases member
      | word _ differ waits => exact ⟨differ, waits⟩
      | params inside closing =>
        rw [inside, closing] at open_
        cases open_
      | semicolon _ semicolon => exact absurd (Token.kind_of_isPunct semicolon) word
      | clause _ starts =>
        rw [Place.startsClause, kind, text] at starts
        cases starts
    · exact fun both => .word none_ both.1 both.2
  rw [keeps_iff_of_plain plain, parts, nest, taken, through]
  cases p.token.heads source ts <;> cases p.headsClass <;>
    simp [Nest.await_eq_iff, eq_comm (b := w.nest.await)]

theorem Walk.keeps_iff_of_clause (starts : p.startsClause = true)
    (nest : (w.step p).walk.nest = w.nest) :
    w.Keeps d source ts p ↔ ¬ w.Parts d source ts p := by
  have keyword : p.token.kind = .keyword ∧ p.token.text ≠ "class" := by
    simp only [Place.startsClause, Bool.and_eq_true, Bool.or_eq_true, beq_iff_eq] at starts
    refine ⟨starts.1, ?_⟩
    rcases starts.2 with text | ⟨text, -⟩ <;>
      · rw [text]
        decide
  have head : p.token.isQuiet = true := Token.isQuiet_of_word keyword.1 keyword.2
  have heads : p.token.heads source ts = false := Token.headsClass_of_quiet head ..
  have opens : w.nest.opensBody d source ts (w.taken p) =
      (w.nest.after d (p.token.heads source ts) p.token.toToken).opensBody d source ts
        (p.rest.take ((w.step p).length - 1)) := by
    rw [taken_eq, Nest.opensBody, Token.isPunct_of_quiet head]
    rfl
  have parts : w.Parts d source ts p ↔ w.nest.through d source ts (w.taken p) ≠ w.nest ∨
      w.nest.opensBody d source ts (w.taken p) = true := by
    constructor
    · intro parts
      cases parts with
      | member member =>
        rw [none_] at member
        cases member
      | word _ differ =>
        refine absurd (heads.trans ?_) differ
        simp [Place.headsClass, keyword.2]
      | params inside closing =>
        rw [inside, closing] at open_
        cases open_
      | semicolon _ semicolon =>
        rw [Token.isPunct_eq_false (by rw [keyword.1]; decide)] at semicolon
        cases semicolon
      | clause _ _ differ => exact differ
    · exact .clause none_ starts
  rw [Keeps, nest, ← opens, parts, not_or, not_ne_iff, Bool.not_eq_true]

theorem Walk.keeps_iff_of_bracket
    (bracket : p.token.opensBracket = true ∨ p.token.closesBracket = true)
    (one : (w.step p).length = 1)
    (nest : (w.step p).walk.nest = w.nest.after d false p.token.toToken) :
    w.Keeps d source ts p ↔ ¬ w.Parts d source ts p := by
  have taken : w.taken p = [p.token] := by rw [taken_eq, one]; rfl
  have kind : p.token.kind = .punct := by
    by_contra other
    rw [Token.opensBracket_of_ne other, Token.closesBracket_of_ne other] at bracket
    rcases bracket with absurd_ | absurd_ <;> cases absurd_
  have heads : p.token.heads source ts = false :=
    Token.Seated.heads_of_ne (by rw [kind]; decide)
  refine iff_of_true ⟨?_, ?_⟩ fun parts => ?_
  · rw [taken, nest, Nest.through_cons, heads]
    rfl
  · rw [one]
    rfl
  · rcases parts.of_punct kind none_ with ⟨inside, closing, -⟩ | ⟨semicolon, -⟩
    · rw [inside, closing] at open_
      cases open_
    · rw [Token.opensBracket_of_semicolon semicolon, Token.closesBracket_of_semicolon semicolon]
        at bracket
      rcases bracket with absurd_ | absurd_ <;> cases absurd_

theorem Walk.keeps_iff_of_semicolon (semicolon : p.token.isPunct ";" = true)
    (one : (w.step p).length = 1) (nest : (w.step p).walk.nest = w.nest) :
    w.Keeps d source ts p ↔ ¬ w.Parts d source ts p := by
  have taken : w.taken p = [p.token] := by rw [taken_eq, one]; rfl
  have kind := Token.kind_of_isPunct semicolon
  have heads : p.token.heads source ts = false :=
    Token.Seated.heads_of_ne (by rw [kind]; decide)
  have opens := Token.opensBracket_of_semicolon semicolon
  have closes := Token.closesBracket_of_semicolon semicolon
  have parts : w.Parts d source ts p ↔ d.introducer ≠ ';' ∧ w.nest.waitsHere = true := by
    constructor
    · intro parts
      rcases parts.of_punct kind none_ with ⟨inside, closing, -⟩ | ⟨-, other, waits⟩
      · rw [inside, closing] at open_
        cases open_
      · exact ⟨other, waits⟩
    · exact fun both => .semicolon none_ semicolon both.1 both.2
  rw [keeps_iff_of_plain, parts, nest, taken, Nest.through_cons, heads,
    Nest.after_plain opens closes]
  · show (if p.token.isPunct ";" = true ∧ d.introducer ≠ ';' then w.nest.endStatement
      else w.nest) = w.nest ↔ _
    by_cases other : d.introducer ≠ ';'
    · rw [if_pos ⟨semicolon, other⟩, Nest.endStatement_eq_iff]
      simp [other]
    · rw [if_neg (fun both => other both.2)]
      simp [other]
  · intro t held
    rw [taken] at held
    rw [List.mem_singleton.mp held, Token.isPunct_of_opens opens]

end Other

/-- From a nest that the two have in common a step leads them to one nest, with no class body for
the reader alone, exactly when it does not part them. -/
theorem Walk.keeps_iff : w.Keeps d source ts p ↔ ¬ w.Parts d source ts p := by
  cases w.step_moves (d := d) p with
  | member reads => exact keeps_iff_of_member reads
  | params none_ inside closing one nest => exact keeps_iff_of_params none_ inside closing one nest
  | other none_ open_ moves =>
    cases moves with
    | quiet quiet nest => exact keeps_iff_of_quiet none_ open_ quiet nest
    | word _ kind text taken quiet nest =>
      exact keeps_iff_of_word none_ open_ kind text taken quiet nest
    | clause starts nest => exact keeps_iff_of_clause none_ open_ starts nest
    | bracket bracket one nest => exact keeps_iff_of_bracket none_ open_ bracket one nest
    | semicolon semicolon one nest => exact keeps_iff_of_semicolon none_ open_ semicolon one nest

end Parting

/-! ## Braces -/

section Brace

variable {w : Walk} {p : Place} (brace : p.token.isPunct "\x7b" = true)
include brace

/-- A brace that is the current token is read as a bracket, wherever it stands. -/
theorem Walk.step_nest_of_brace : (w.step p).walk.nest = w.nest.enterBrace := by
  have loud : p.token.isQuiet ≠ true := fun quiet => by
    rw [Token.isPunct_of_quiet quiet] at brace
    cases brace
  have kind := Token.kind_of_isPunct brace
  have first : p.token ∈ w.taken p := by
    rw [taken_eq]
    exact .head _
  cases w.step_moves (d := .hash) p with
  | member reads =>
    obtain ⟨mods, t, more, member, taken, before, after_, -⟩ := reads
    rw [Walk.taken, taken] at first
    rcases List.mem_append.mp first with held | held
    · exact absurd (before _ held) loud
    rcases List.mem_cons.mp held with rfl | held
    · have name := Walk.isName_of_memberAt? member
      rw [Token.isName, kind] at name
      cases name
    · exact absurd (after_ _ held) loud
  | params _ _ closing =>
    rw [Token.isPunct_eq_beq brace] at closing
    exact absurd closing (by decide)
  | other none_ open_ moves =>
    cases moves with
    | quiet quiet => exact absurd (quiet _ first) loud
    | word _ word =>
      rw [kind] at word
      cases word
    | clause starts =>
      rw [Place.startsClause, kind] at starts
      cases starts
    | bracket bracket one nest => rw [nest, Nest.after_brace brace]
    | semicolon semicolon =>
      rw [Token.isPunct_eq_beq brace] at semicolon
      exact absurd semicolon (by decide)

/-- A brace opens a class body for the walk where a class head waits. -/
theorem Walk.opened?_of_brace :
    (∃ name, (Step.mk p w (w.step p)).opened? = some (.classBody name)) ↔
      w.nest.waitsHere = true := by
  have nest := step_nest_of_brace (w := w) brace
  have bodies := congrArg Nest.bodies nest
  obtain ⟨f, frames, stack, body, outer⟩ := List.map_eq_cons_iff.mp bodies
  have deeper : w.depth < (w.step p).walk.depth := by
    have same := congrArg List.length outer
    rw [List.length_map, Walk.nest, List.length_map] at same
    rw [depth, depth, stack, List.length_cons, same]
    exact Nat.lt_succ_self _
  have opened : (Step.mk p w (w.step p)).opened? = some f := by
    rw [Step.opened?, if_pos deeper, stack]
    rfl
  rw [opened, ← body]
  cases f <;> simp [Frame.isClassBody]

end Brace

/-! ## The whole walk -/

/-- Before a step the reader and the walk have one nest, and after it they have one again. -/
structure Step.InStep (d : Dialect) (source : List Char) (ts : List Token) (s : Step) : Prop where
  before : Token.nest d source (ts.take s.place.token.index) = s.before.nest
  keeps : s.before.Keeps d source ts s.place

section Outline

variable {d : Dialect} {source : List Char} {ts : List Token}

theorem Nest.waitsHere_of_opensBody {n : Nest} {us vs : List Seated} {u : Seated}
    (none_ : n.opensBody d source ts (us ++ u :: vs) = false)
    (brace : u.isPunct "\x7b" = true) : (n.through d source ts us).waitsHere = false := by
  induction us generalizing n with
  | nil =>
    rw [List.nil_append, opensBody, brace, Bool.true_and, Bool.or_eq_false_iff] at none_
    exact none_.1
  | cons t us ih =>
    rw [List.cons_append, opensBody, Bool.or_eq_false_iff] at none_
    exact ih none_.2

theorem Token.index_of_seatFrom {us : List Token} (index : Nat) (notes : List Token) :
    (seatFrom index notes us).Pairwise (fun t u => t.index < u.index) ∧
      ∀ t ∈ seatFrom index notes us, index ≤ t.index := by
  induction us generalizing index notes with
  | nil => exact ⟨.nil, List.forall_mem_nil _⟩
  | cons t us ih =>
    rw [seatFrom]
    split
    · obtain ⟨ascending, later⟩ := ih (index + 1) (notes ++ [t])
      exact ⟨ascending, fun u held => Nat.le_of_succ_le (later u held)⟩
    · obtain ⟨ascending, later⟩ := ih (index + 1) []
      refine ⟨.cons (fun u held => later u held) ascending,
        List.forall_mem_cons.mpr ⟨Nat.le_refl _, ?_⟩⟩
      exact fun u held => Nat.le_of_succ_le (later u held)

theorem Token.pairwise_hosts (ts : List Token) : (hosts ts).Pairwise fun t u => t.index < u.index :=
  (index_of_seatFrom 0 []).1

/-- The seats of a file have indices of their own. -/
theorem Token.eq_of_index {t v : Seated} (first : t ∈ hosts ts) (second : v ∈ hosts ts)
    (same : t.index = v.index) : t = v := by
  obtain ⟨xs, ys, split⟩ := List.append_of_mem first
  have ascending := pairwise_hosts ts
  rw [split] at ascending second
  obtain ⟨-, late, early⟩ := List.pairwise_append.mp ascending
  rcases List.mem_append.mp second with held | held
  · have := early v held t (.head _)
    omega
  rcases List.mem_cons.mp held with rfl | held
  · rfl
  · have := (List.pairwise_cons.mp late).1 v held
    omega

namespace Outline

theorem token_mem_of_walk {w : Walk} {n : Nat} {prev : Option Seated} {us : List Seated} :
    ∀ s ∈ walk w n prev us, s.place.token ∈ us := by
  fun_induction walk w n prev us with
  | case1 => exact List.forall_mem_nil _
  | case2 w n prev t rest place stride more ih =>
    refine List.forall_mem_cons.mpr ⟨.head _, fun s held => ?_⟩
    exact .tail _ (List.mem_of_mem_drop (ih s held))

theorem stride_of_walk {w : Walk} {n : Nat} {prev : Option Seated} {us : List Seated} :
    ∀ s ∈ walk w n prev us, s.stride = s.before.step s.place := by
  fun_induction walk w n prev us with
  | case1 => exact List.forall_mem_nil _
  | case2 w n prev t rest place stride more ih => exact List.forall_mem_cons.mpr ⟨rfl, ih⟩

/-- A brace opens a class body for the walk when a step comes to it and a class head waits there. -/
theorem exists_classBody_iff {u : Seated} (brace : u.isPunct "\x7b" = true)
    (host : u ∈ Token.hosts ts) :
    (∃ s ∈ steps ts, s.place.token.index = u.index ∧
      ∃ name, s.opened? = some (.classBody name)) ↔
      ∃ s ∈ steps ts, s.place.token.index = u.index ∧ s.before.nest.waitsHere = true := by
  refine exists_congr fun s => and_congr_right fun held => and_congr_right fun same => ?_
  obtain rfl := Token.eq_of_index (token_mem_of_walk s held) host same
  rw [show s = ⟨s.place, s.before, s.before.step s.place⟩ from
    congrArg (Step.mk s.place s.before) (stride_of_walk s held)]
  exact Walk.opened?_of_brace brace

/-- The tokens of a step and those after it make up the tokens before the step. -/
theorem taken_append_drop {w : Walk} {p : Place} :
    w.taken p ++ p.rest.drop ((w.step p).length - 1) = p.tokens := by
  rw [Walk.taken_eq, List.cons_append, List.take_append_drop]
  rfl

/-- As long as no step parts them, the reader and the walk are in step. -/
theorem walk_inStep (w : Walk) (n : Nat) (prev : Option Seated) (us : List Seated) :
    ∀ done, Token.hosts ts = done ++ us → w.nest = Nest.initial.through d source ts done →
      (∀ s ∈ walk w n prev us, ¬ s.before.Parts d source ts s.place) →
      ∀ s ∈ walk w n prev us, s.InStep d source ts := by
  fun_induction walk w n prev us with
  | case1 => exact fun _ _ _ _ => List.forall_mem_nil _
  | case2 w n prev t rest place stride more ih =>
    intro done seats same together
    obtain ⟨first, later⟩ := List.forall_mem_cons.mp together
    have keeps : w.Keeps d source ts place := Walk.keeps_iff.mpr first
    have parted : w.taken place ++ rest.drop more = t :: rest := taken_append_drop (p := place)
    have before : Token.nest d source (ts.take t.index) = w.nest :=
      (Token.nest_take seats).trans same.symm
    refine List.forall_mem_cons.mpr ⟨⟨before, keeps⟩, ih (done ++ w.taken place) ?_ ?_ later⟩
    · rw [seats, List.append_assoc, parted]
    · rw [Nest.through_append, ← same, keeps.1]

/-- Before and after every step the reader and the walk have the same nest, and within a step the
reader opens no class body, exactly when no step parts them. -/
theorem inStep_iff :
    (∀ s ∈ steps ts, s.InStep d source ts) ↔
      ∀ s ∈ steps ts, ¬ s.before.Parts d source ts s.place :=
  ⟨fun all s held => Walk.keeps_iff.mp (all s held).keeps, walk_inStep _ _ _ _ [] rfl rfl⟩

/-- In step, a brace opens a class body for the walk where a class head waits for the reader. -/
theorem exists_opened_iff {u : Seated} (brace : u.isPunct "\x7b" = true) (w : Walk) (n : Nat)
    (prev : Option Seated) (us : List Seated) :
    ∀ done, Token.hosts ts = done ++ us → (us.Pairwise fun t u => t.index < u.index) →
      (∀ s ∈ walk w n prev us, s.InStep d source ts) → u ∈ us →
      ((∃ s ∈ walk w n prev us, s.place.token.index = u.index ∧
        ∃ name, s.opened? = some (.classBody name)) ↔
        (Token.nest d source (ts.take u.index)).waitsHere = true) := by
  fun_induction walk w n prev us with
  | case1 => exact fun _ _ _ _ host => absurd host List.not_mem_nil
  | case2 w n prev t rest place stride more ih =>
    intro done seats ascending inStep host
    obtain ⟨first, later⟩ := List.forall_mem_cons.mp inStep
    obtain ⟨least, ascending⟩ := List.pairwise_cons.mp ascending
    have onward : ∀ s ∈ walk stride.walk (n + 1 + more) place.tokens[more]? (rest.drop more),
        s.place.token ∈ rest.drop more := token_mem_of_walk
    have parted : w.taken place ++ rest.drop more = t :: rest := taken_append_drop (p := place)
    have taken : w.taken place = t :: rest.take more := Walk.taken_eq
    simp only [List.exists_mem_cons_iff]
    rcases List.mem_cons.mp host with rfl | host
    -- the token of this step
    · rw [or_iff_left]
      · rw [first.before, ← Walk.opened?_of_brace (p := place) brace]
        exact and_iff_right rfl
      · rintro ⟨s, held, same, -⟩
        have := least _ (List.mem_of_mem_drop (onward s held))
        omega
    have after_ := least u host
    rw [or_iff_right (fun both => absurd both.1 (Nat.ne_of_lt after_))]
    have seats' : Token.hosts ts = (done ++ w.taken place) ++ rest.drop more := by
      rw [seats, List.append_assoc, parted]
    rw [← List.take_append_drop more rest] at host ascending
    rcases List.mem_append.mp host with inside | host
    -- a token inside this step
    · obtain ⟨xs, ys, split⟩ := List.append_of_mem inside
      refine iff_of_false ?_ ?_
      · rintro ⟨s, held, same, -⟩
        have := (List.pairwise_append.mp ascending).2.2 u inside _ (onward s held)
        omega
      · have seats₁ : Token.hosts ts = (done ++ t :: xs) ++ u :: (ys ++ rest.drop more) := by
          rw [seats', taken, split]
          simp
        have here : Nest.initial.through d source ts done = w.nest :=
          (Token.nest_take seats).symm.trans first.before
        have none_ : (w.nest.after d (t.heads source ts) t.toToken).opensBody d source ts
            (xs ++ u :: ys) = false := by
          rw [← split]
          exact first.keeps.2
        rw [Token.nest_take seats₁, Nest.through_append, here, Nest.through_cons,
          Nest.waitsHere_of_opensBody none_ brace]
        exact Bool.false_ne_true
    -- a token of a later step
    · exact ih _ seats' (List.pairwise_append.mp ascending).2.1 later host

end Outline

end Outline

theorem Token.exists_seat (done notes : List Token) {ts : List Token} {i : Nat} {t : Token}
    (found : ts[i]? = some t) (host : t.isNote = false) :
    ∃ u ∈ seatFrom done.length notes ts, u.index = done.length + i ∧ u.toToken = t := by
  induction ts generalizing done notes i with
  | nil => cases found
  | cons r ts ih =>
    have shift : (done ++ [r]).length = done.length + 1 := List.length_append
    rw [seatFrom]
    cases i with
    | zero =>
      obtain rfl := Option.some.inj found
      rw [host]
      exact ⟨_, .head _, rfl, rfl⟩
    | succ i =>
      split
      · obtain ⟨u, held, index, same⟩ := ih (done ++ [r]) (notes ++ [r]) found
        rw [shift] at held index
        exact ⟨u, held, by omega, same⟩
      · obtain ⟨u, held, index, same⟩ := ih (done ++ [r]) [] found
        rw [shift] at held index
        exact ⟨u, .tail _ held, by omega, same⟩

instance (d : Dialect) (source : List Char) (ts : List Token) (w : Walk) (p : Place) :
    Decidable (w.Keeps d source ts p) := inferInstanceAs (Decidable (_ ∧ _))

instance (d : Dialect) (source : List Char) (ts : List Token) (s : Step) :
    Decidable (s.InStep d source ts) :=
  decidable_of_iff
    (Token.nest d source (ts.take s.place.token.index) = s.before.nest ∧
      s.before.Keeps d source ts s.place)
    ⟨fun both => ⟨both.1, both.2⟩, fun both => ⟨both.1, both.2⟩⟩

/-- A class head waits at the token for the reader, and for a step that comes to the token, or it
waits for neither. -/
def Reading.WaitsAlike (d : Dialect) (source : String) (i : Nat) : Prop :=
  (Token.nest d source.toList ((ofSource d source).tokens.take i)).waitsHere = true ↔
    ∃ s ∈ Outline.steps (ofSource d source).tokens, s.place.token.index = i ∧
      s.before.nest.waitsHere = true

/-- The reader and the walk agree on class bodies. They are in step exactly when no step of the walk
parts them, and then the reader opens a brace as a class body exactly when the walk opens a class
body at it. They may also agree on all braces and be out of step: on one brace they agree exactly
when a class head waits there for both or for neither. -/
theorem Reading.classBodies_agree {d : Dialect} (spares : d.sparesBrackets = true)
    (source : String) :
    ((∀ s ∈ Outline.steps (ofSource d source).tokens,
        s.InStep d source.toList (ofSource d source).tokens) ↔
      ∀ s ∈ Outline.steps (ofSource d source).tokens,
        ¬ s.before.Parts d source.toList (ofSource d source).tokens s.place) ∧
    ((∀ s ∈ Outline.steps (ofSource d source).tokens,
        ¬ s.before.Parts d source.toList (ofSource d source).tokens s.place) →
      ∀ (i : Nat) (p : Piece), (piecesOf d source)[i]? = some p →
        p.token.isPunct "\x7b" = true →
        (p.opened = some .classBody ↔
          ∃ s ∈ Outline.steps (ofSource d source).tokens, s.place.token.index = i ∧
            ∃ name, s.opened? = some (.classBody name))) ∧
    ∀ (i : Nat) (p : Piece), (piecesOf d source)[i]? = some p →
      p.token.isPunct "\x7b" = true →
      ((p.opened = some .classBody ↔
          ∃ s ∈ Outline.steps (ofSource d source).tokens, s.place.token.index = i ∧
            ∃ name, s.opened? = some (.classBody name)) ↔
        WaitsAlike d source i) := by
  have seat {i : Nat} {p : Piece} (piece : (piecesOf d source)[i]? = some p)
      (brace : p.token.isPunct "\x7b" = true) :
      ∃ u ∈ Token.hosts (ofSource d source).tokens, u.index = i ∧ u.isPunct "\x7b" = true := by
    have found : (ofSource d source).tokens[i]? = some p.token := by
      rw [ofSource, ofPieces, List.getElem?_map, piece]
      rfl
    obtain ⟨u, host, index, same⟩ := Token.exists_seat [] [] found (Token.isNote_of_isPunct brace)
    exact ⟨u, host, index.trans (Nat.zero_add i), same ▸ brace⟩
  refine ⟨Outline.inStep_iff, fun together i p piece brace => ?_, fun i p piece brace => ?_⟩
  · obtain ⟨u, host, rfl, brace'⟩ := seat piece brace
    rw [opened_iff spares piece, and_iff_right brace]
    exact (Outline.exists_opened_iff brace' .initial 0 none _ [] rfl (Token.pairwise_hosts _)
      (Outline.inStep_iff.mpr together) host).symm
  · obtain ⟨u, host, rfl, brace'⟩ := seat piece brace
    rw [opened_iff spares piece, and_iff_right brace, WaitsAlike,
      Outline.exists_classBody_iff brace' host]

/-- A method whose name is `class` has a plain block, and the class in it a class body. -/
theorem Reading.classBodies_agree_method :
    let source := "class A \x7b class() \x7b class B \x7b #p \x7d \x7d \x7d"
    Dialect.hash.sparesBrackets = true ∧
      (∀ s ∈ Outline.steps (ofSource .hash source).tokens,
        ¬ s.before.Parts .hash source.toList (ofSource .hash source).tokens s.place) ∧
      ∃ block body, (piecesOf .hash source)[6]? = some block ∧ block.opened = some .brace ∧
        (piecesOf .hash source)[9]? = some body ∧ body.opened = some .classBody ∧
        ∃ s ∈ Outline.steps (ofSource .hash source).tokens, s.place.token.index = 9 ∧
          ∃ name, s.opened? = some (.classBody name) := by
  intro source
  have spares : Dialect.hash.sparesBrackets = true := by decide
  have inStep : ∀ s ∈ Outline.steps (ofSource .hash source).tokens,
      s.InStep .hash source.toList (ofSource .hash source).tokens := by decide +kernel
  obtain ⟨inStep_iff, agree, -⟩ := classBodies_agree spares source
  have together := inStep_iff.mp inStep
  have body : (piecesOf .hash source)[9]? =
      some ⟨⟨.punct, "\x7b", ⟨28, 29⟩, 0⟩, 1, none, some .classBody⟩ := by decide +kernel
  have block : (piecesOf .hash source)[6]? =
      some ⟨⟨.punct, "\x7b", ⟨18, 19⟩, 0⟩, 1, none, some .brace⟩ := by decide +kernel
  exact ⟨spares, together, _, _, block, rfl, body, rfl, (agree together 9 _ body rfl).mp rfl⟩

/-- A field whose name is `class`, on a line of its own, heads a class for the reader alone. It
takes the body of the method after the field for a class body, and `#x` in it for a private name. -/
theorem Reading.classBodies_disagree_field :
    let source := "class A \x7b class\n m() \x7b #x \x7d \x7d"
    Dialect.hash.Valid ∧
      (∃ p field, (piecesOf .hash source)[7]? = some p ∧ p.token.isPunct "\x7b" = true ∧
        p.opened = some .classBody ∧ (piecesOf .hash source)[8]? = some field ∧
        field.token.text = "#x" ∧ field.token.kind = .privateName) ∧
      (∃ s ∈ Outline.steps (ofSource .hash source).tokens, s.place.token.index = 7) ∧
      ∀ s ∈ Outline.steps (ofSource .hash source).tokens, s.place.token.index = 7 →
        s.opened? = some .block := by
  intro source
  refine ⟨Dialect.hash_valid, ?_, ?_, ?_⟩
  · exact ⟨⟨⟨.punct, "\x7b", ⟨21, 22⟩, 0⟩, 1, none, some .classBody⟩,
      ⟨⟨.privateName, "#x", ⟨23, 25⟩, 0⟩, 2, some .plain, none⟩, by decide +kernel⟩
  · decide +kernel
  · decide +kernel

end Gloss
import Gloss.Proofs.Agreement
import Gloss.Proofs.ClassBody
import Gloss.Proofs.Invisibility

/-!
# What a step of the walk does

Besides its brackets a step of the walk can open a declaration and place sites. It opens one only at
a declaration word that is no class member, and its sites are about the tokens that it takes up or
about the next one (`Walk.step_acts`). The number of open brackets after it is that of its tokens
(`Walk.step_depth`).
-/

namespace Gloss

open Token (Seated)

/-! ## What a step does besides its nest -/

namespace Token

/-- One of the words that start a declaration. -/
def isDeclarationWord (t : Token) : Bool :=
  t.kind == .keyword && (t.text == "let" || t.text == "const" || t.text == "var")

/-- One of the words that start a clause. -/
def isClauseWord (t : Token) : Bool :=
  t.kind == .keyword && (t.text == "import" || t.text == "export")

/-- A token that a step of the walk takes up together with the one before it. -/
def isCarried (t : Token) : Bool := t.isName || t.isPunct "*" || t.isPunct "="

variable {t : Token}

theorem kind_of_isDeclarationWord (word : t.isDeclarationWord = true) : t.kind = .keyword := by
  simp only [isDeclarationWord, Bool.and_eq_true, beq_iff_eq] at word
  exact word.1

theorem isDeclarationWord_of_ne (kind : t.kind ≠ .keyword) : t.isDeclarationWord = false := by
  simp [isDeclarationWord, kind]

theorem isCarried_of_ident (ident : t.kind = .ident) : t.isCarried = true := by
  simp [isCarried, isName, ident]

end Token

/-- What a step does besides its nest: it opens a declaration or leaves the open one as it is, it
carries names, stars and equals signs along with its first token, and its sites are about the tokens
that it takes up or about the next one. -/
structure Walk.Acts (w : Walk) (p : Place) (declares : Bool) (s : Stride) : Prop where
  declaration : s.walk.declaration = if declares = true then some w.depth else w.declaration
  carried : ∀ t ∈ p.rest.take (s.length - 1), t.isCarried = true
  placed : ∀ q ∈ s.placements, ∀ i, q.host? = some i →
    ∃ t ∈ p.tokens.take (s.length + 1), t.index = i

/-- Whether the walk reads the current token as the start of a declaration. -/
def Walk.declares (w : Walk) (p : Place) : Bool :=
  p.token.isDeclarationWord && (w.memberAt? p).isNone

namespace Walk

variable {w : Walk} {p : Place} {s : Stride}

/-- A step that carries some tokens along, places nothing and leaves the declaration as it is. -/
theorem Acts.of_more {more : List Seated} (same : s.walk.declaration = w.declaration)
    (length : s.length = more.length + 1) (first : more <+: p.rest)
    (carried : ∀ t ∈ more, t.isCarried = true) (nothing : s.placements = []) :
    w.Acts p false s where
  declaration := same
  carried := by rwa [length, Nat.add_sub_cancel, ← List.prefix_iff_eq_take.mp first]
  placed q held := by
    rw [nothing] at held
    cases held

/-- A step over one token that places nothing and leaves the declaration as it is. -/
theorem Acts.of_pass (same : s.walk.declaration = w.declaration) (one : s.length = 1)
    (nothing : s.placements = []) : w.Acts p false s :=
  have length : s.length = ([] : List Seated).length + 1 := one
  .of_more same length List.nil_prefix (List.forall_mem_nil _) nothing

theorem host?_of_both {q : Placement} {index i : Nat} {site : Site}
    (held : q ∈ Placement.both index site) (host : q.host? = some i) : index = i := by
  rcases List.mem_cons.mp held with rfl | held
  · exact Option.some.inj host
  · rw [List.mem_singleton.mp held] at host
    exact Option.some.inj host

/-- A step over one token whose sites are about this token. -/
theorem Acts.of_token (same : s.walk.declaration = w.declaration) (one : s.length = 1)
    (own : ∀ q ∈ s.placements, ∀ i, q.host? = some i → p.token.index = i) : w.Acts p false s where
  declaration := same
  carried t held := by
    rw [one] at held
    cases held
  placed q held i host := by
    rw [one]
    exact ⟨p.token, List.mem_cons_self .., own q held i host⟩

/-- A step over one token that finds a declarator next. -/
theorem Acts.of_declaredName {declares : Bool}
    (declaration : s.walk.declaration = if declares = true then some w.depth else w.declaration)
    (one : s.length = 1) (name : s.placements = declaredName p.rest.head?) :
    w.Acts p declares s where
  declaration := declaration
  carried t held := by
    rw [one] at held
    cases held
  placed q held i host := by
    rw [name] at held
    rw [one]
    unfold declaredName at held
    split at held
    · next t first =>
      split at held
      · obtain ⟨more, rest⟩ := List.head?_eq_some_iff.mp first
        exact ⟨t, by simp [Place.tokens, rest], host?_of_both held host⟩
      · cases held
    · cases held

/-- What a step does from a walk with the same declaration at the same depth. -/
theorem Acts.of_eq {w' : Walk} {declares : Bool} (acts : w'.Acts p declares s)
    (declaration : w'.declaration = w.declaration) (depth : w'.depth = w.depth) :
    w.Acts p declares s :=
  ⟨by rw [acts.declaration, declaration, depth], acts.carried, acts.placed⟩

theorem ReadsPlain.acts (reads : w.ReadsPlain p s) (clause : p.token.isClauseWord = false) :
    w.Acts p p.token.isDeclarationWord s := by
  have ne_word {text : String} (same : p.token.text = text)
      (other : text ∉ ["let", "const", "var"]) :
      p.token.isDeclarationWord = false := by
    rw [Bool.eq_false_iff]
    intro word
    simp only [Token.isDeclarationWord, Bool.and_eq_true, Bool.or_eq_true, beq_iff_eq, same] at word
    exact other (by simpa [or_assoc] using word.2)
  have ne_kind (kind : p.token.kind ≠ .keyword) := Token.isDeclarationWord_of_ne kind
  have ne_mark {text : String} (mark : p.token.isPunct text = true) :
      p.token.isDeclarationWord = false :=
    ne_kind (by rw [Token.kind_of_isPunct mark]; decide)
  cases reads with
  | still _ still =>
    have other : p.token.isDeclarationWord = false := by
      by_cases kind : p.token.kind = .keyword
      · exact ne_word rfl (still.declaration kind)
      · exact ne_kind kind
    exact other ▸ .of_pass rfl rfl rfl
  | declares kind word =>
    have declares : p.token.isDeclarationWord = true := by
      simpa [Token.isDeclarationWord, kind, or_assoc] using word
    exact .of_declaredName (if_pos declares).symm rfl rfl
  | comma comma => exact ne_mark comma ▸ .of_declaredName rfl rfl rfl
  | function _ _ more _ text first marks =>
    rw [ne_word text (by decide)]
    refine .of_more rfl rfl first (fun t held => ?_) rfl
    rcases marks t held with star | ident
    · simp [Token.isCarried, star]
    · exact Token.isCarried_of_ident ident
  | heading _ _ more _ text _ first idents =>
    rw [ne_word text (by decide)]
    exact .of_more rfl rfl first (fun t held => Token.isCarried_of_ident (idents t held)) rfl
  | imports kind text | exports position kind text =>
    simp [Token.isClauseWord, kind, text] at clause
  | paren _ _ mark | square mark | body _ mark | block mark | closing _ _ mark =>
    exact ne_mark mark ▸ .of_pass rfl rfl rfl
  | arrow _ ident =>
    rw [ne_kind (by rw [ident]; decide)]
    refine .of_token rfl rfl fun q held i host => ?_
    rcases List.mem_cons.mp held with rfl | held
    · exact Option.some.inj host
    · rw [List.mem_singleton.mp held] at host
      exact Option.some.inj host

/-- The head of a class member: its modifiers, its name and the sign after it are carried along. -/
theorem ReadsHead.acts {owner : String} (reads : w.ReadsHead p owner s) : w.Acts p false s := by
  obtain ⟨mods, t, sign, rest, params, binding, -, split, modifiers, name, equals⟩ := reads
  have taken : p.tokens.take (mods ++ t :: sign).length = mods ++ t :: sign := by
    rw [split, ← List.cons_append, ← List.append_assoc, List.take_left]
  have carried : ∀ u ∈ mods ++ t :: sign, u.isCarried = true := by
    refine List.forall_mem_append.mpr ⟨fun u held => ?_, List.forall_mem_cons.mpr
      ⟨by simp [Token.isCarried, name], fun u held => by simp [Token.isCarried, equals u held]⟩⟩
    rcases modifiers u held with modifier | star
    · simp only [Token.isMemberModifier, Bool.and_eq_true, beq_iff_eq] at modifier
      exact Token.isCarried_of_ident modifier.1
    · simp [Token.isCarried, star]
  have pos : 1 ≤ (mods ++ t :: sign).length := by
    rw [List.length_append, List.length_cons]
    omega
  refine ⟨rfl, fun u held => carried u ?_, fun q held i host => ⟨t, ?_, host?_of_both held host⟩⟩
  · rw [← taken, ← Nat.sub_add_cancel pos]
    exact .tail _ held
  · have inside : t ∈ p.tokens.take (mods ++ t :: sign).length := by
      rw [taken]
      simp
    exact (List.take_prefix_take_left (Nat.le_succ _)).subset inside

/-- What a parameter list reads starts no declaration. -/
theorem ReadsParam.acts {w' : Walk} {owner : Owner} {slot : Nat} {fresh : Bool}
    {outer : List Frame} {placements : List Placement}
    (reads : w.ReadsParam p owner slot fresh outer (w', some placements)) :
    p.token.isDeclarationWord = false ∧ w.Acts p false ⟨w', 1, placements⟩ := by
  have word (kind : p.token.kind ≠ .keyword) := Token.isDeclarationWord_of_ne kind
  have mark {text : String} (mark : p.token.isPunct text = true) :
      p.token.isDeclarationWord = false :=
    word (by rw [Token.kind_of_isPunct mark]; decide)
  cases reads with
  | skipped skips =>
    refine ⟨?_, .of_pass rfl rfl rfl⟩
    rcases skips with comma | stop | ident
    · exact mark comma
    · exact mark stop
    · exact word (by rw [ident]; decide)
  | closing closing =>
    refine ⟨mark closing, .of_token rfl rfl fun q held i host => ?_⟩
    rw [List.mem_singleton.mp held] at host
    exact Option.some.inj host
  | name _ ident =>
    exact ⟨word (by rw [ident]; decide), .of_token rfl rfl fun q held i host =>
      host?_of_both held host⟩

/-- What a step of the walk does to the open declaration, after this one was tracked. -/
theorem step_acts (w : Walk) (p : Place) (clause : p.token.isClauseWord = false) :
    (w.trackDeclaration p).Acts p (w.declares p) (w.step p) := by
  obtain ⟨declaration, track⟩ := w.exists_trackDeclaration p
  have same : w.declares p = (w.trackDeclaration p).declares p := by rw [track]; rfl
  have reads := w.step_reads p
  rw [same]
  generalize w.step p = s at reads ⊢
  generalize w.trackDeclaration p = w at reads ⊢
  have plain (none_ : w.memberAt? p = none) : w.declares p = p.token.isDeclarationWord := by
    rw [declares, none_, Option.isNone_none, Bool.and_true]
  cases reads with
  | head owner outer inside reads =>
    have none_ : w.declares p = false := by
      obtain ⟨mods, t, sign, rest, params, binding, member, -⟩ := reads
      rw [declares, member, Option.isNone_some, Bool.and_false]
    exact none_ ▸ reads.acts
  | plain none_ outside reads => exact plain none_ ▸ reads.acts clause
  | param owner slot fresh outer inside reads =>
    obtain ⟨word, acts⟩ := reads.acts
    rwa [declares, word, Bool.false_and]
  | inner owner slot fresh outer inside reads later =>
    cases reads
    rw [plain (memberAt?_of_inParams (inParams_eq_true inside))]
    exact (later.acts clause).of_eq rfl (by rw [depth, depth, inside]; rfl)

end Walk

/-! ## Brackets along the walk -/

namespace Token

/-- Some tokens without brackets leave the number of open brackets as it is. -/
theorem height?_of_plain {height : Nat} {ts : List Token}
    (plain : ∀ t ∈ ts, t.opensBracket = false ∧ t.closesBracket = false) :
    height? height ts = some height := by
  induction ts with
  | nil => rfl
  | cons t ts ih =>
    obtain ⟨first, others⟩ := List.forall_mem_cons.mp plain
    rw [height?_cons, turn_of_plain first.1 first.2]
    exact ih others

variable {t : Token}

theorem plain_of_quiet (quiet : t.isQuiet = true) :
    t.opensBracket = false ∧ t.closesBracket = false :=
  ⟨opensBracket_of_quiet quiet, closesBracket_of_quiet quiet⟩

theorem plain_of_ne (kind : t.kind ≠ .punct) : t.opensBracket = false ∧ t.closesBracket = false :=
  ⟨opensBracket_of_ne kind, closesBracket_of_ne kind⟩

theorem ne_punct_of_isName (name : t.isName = true) : t.kind ≠ .punct := by
  intro kind
  rw [isName, kind] at name
  cases name

end Token

namespace Walk

section Turned

variable {w : Walk} {p : Place} {height : Nat}
  (turned : Token.height? w.depth ((w.taken p).map (·.toToken)) = some height)

include turned

/-- Over tokens without brackets the depth stays. -/
theorem step_depth_of_plain
    (nest : (w.step p).walk.nest.bodies.length = w.nest.bodies.length)
    (plain : ∀ t ∈ w.taken p, t.opensBracket = false ∧ t.closesBracket = false) :
    (w.step p).walk.depth = height := by
  have still : Token.height? w.depth ((w.taken p).map (·.toToken)) = some w.depth :=
    Token.height?_of_plain fun t held => by
      obtain ⟨u, member, rfl⟩ := List.mem_map.mp held
      exact plain u member
  rw [still] at turned
  rw [depth_eq, nest, ← depth_eq]
  exact Option.some.inj turned

/-- Over one token the depth turns once. -/
theorem turn_of_single (one : (w.step p).length = 1) :
    Token.turn w.depth p.token.toToken = some height := by
  rw [taken, one, Place.take_one, List.map_cons, Token.height?_cons] at turned
  obtain ⟨height', first, last⟩ := Option.bind_eq_some_iff.mp turned
  rwa [← Option.some.inj last]

theorem step_depth_of_closes (one : (w.step p).length = 1)
    (closes : p.token.closesBracket = true)
    (nest : (w.step p).walk.nest.bodies.length = w.nest.bodies.length - 1) :
    (w.step p).walk.depth = height := by
  have turned := turn_of_single turned one
  rw [Token.turn_of_closes closes] at turned
  split at turned
  · cases turned
  · rw [depth_eq, nest, ← depth_eq]
    exact Option.some.inj turned

theorem step_depth_of_opens (one : (w.step p).length = 1) (opens : p.token.opensBracket = true)
    (nest : (w.step p).walk.nest.bodies.length = w.nest.bodies.length + 1) :
    (w.step p).walk.depth = height := by
  have turned := turn_of_single turned one
  rw [Token.turn_of_opens opens] at turned
  rw [depth_eq, nest, ← depth_eq]
  exact Option.some.inj turned

end Turned

/-- The depth after a step is the number of brackets that are open after its tokens. -/
theorem step_depth (w : Walk) (p : Place) (clause : p.token.isClauseWord = false)
    {height : Nat} (turned : Token.height? w.depth ((w.taken p).map (·.toToken)) = some height) :
    (w.step p).walk.depth = height := by
  cases w.step_moves (d := .hash) p with
  | member reads =>
    obtain ⟨mods, t, more, member, split, before, after, nest⟩ := reads
    refine step_depth_of_plain turned (by rw [nest]) fun u held => ?_
    rw [taken, split] at held
    rcases List.mem_append.mp held with held | held
    · exact Token.plain_of_quiet (before u held)
    rcases List.mem_cons.mp held with rfl | held
    · exact Token.plain_of_ne (Token.ne_punct_of_isName (isName_of_memberAt? member))
    · exact Token.plain_of_quiet (after u held)
  | params none_ inside closing one nest =>
    have closes : p.token.closesBracket = true := by simp [Token.closesBracket, closing]
    exact step_depth_of_closes turned one closes (by rw [nest, List.length_tail])
  | other none_ apart moves =>
    cases moves with
    | quiet quiet nest =>
      exact step_depth_of_plain turned (by rw [nest]) fun t held =>
        Token.plain_of_quiet (quiet t held)
    | word more kind text split quiet nest =>
      refine step_depth_of_plain turned ?_ fun t held => ?_
      · rw [nest]
        split <;> rfl
      · rw [taken, split] at held
        rcases List.mem_cons.mp held with rfl | held
        · exact Token.plain_of_ne (by rw [kind]; decide)
        · exact Token.plain_of_quiet (quiet t held)
    | clause starts =>
      simp only [Place.startsClause, Bool.and_eq_true, Bool.or_eq_true] at starts
      rw [Token.isClauseWord, starts.1, Bool.true_and, Bool.or_eq_false_iff] at clause
      rcases starts.2 with text | text
      · exact absurd text (by rw [clause.1]; decide)
      · exact absurd text.1 (by rw [clause.2]; decide)
    | bracket bracket one nest =>
      rcases bracket with opens | closes
      · refine step_depth_of_opens turned one opens ?_
        rw [nest]
        cases brace : p.token.isPunct "\x7b" with
        | true => rw [Nest.after_brace brace, Nest.enterBrace, List.length_cons]
        | false => rw [Nest.after_opens opens brace, Nest.enter, List.length_cons]
      · refine step_depth_of_closes turned one closes ?_
        rw [nest, Nest.after_closes closes, Nest.leave, List.length_tail]
    | semicolon semicolon one nest =>
      have turned := turn_of_single turned one
      rw [Token.turn_of_semicolon semicolon] at turned
      rw [depth_eq, nest, ← depth_eq]
      exact Option.some.inj turned

end Walk

end Gloss

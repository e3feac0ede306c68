import Gloss.Proofs.Nesting
import Gloss.Proofs.Safety
import Gloss.Proofs.StepCases

/-!
# What the walk does to its nest

`Walk.nest` is what the walk keeps of the open brackets. `Walk.Moves` lists all
that a step can do to it: the head of a class member and the end of a parameter
list are read in ways of their own, and everything else by the kind of the current
token (`Place.Moves`). Most tokens are quiet: neither the reader nor the walk
changes its nest over them.
-/

namespace Gloss

open Token (Seated)

/-! ## The nest of the walk -/

/-- The body of a class. -/
def Frame.isClassBody : Frame → Bool
  | .classBody _ => true
  | _ => false

/-- The nest of the walk. -/
def Walk.nest (w : Walk) : Nest := ⟨w.frames.map (·.isClassBody), w.heading.map (·.2)⟩

/-- Whether the walk takes a token for a class head. -/
def Place.headsClass (p : Place) : Bool :=
  p.token.kind == .keyword && p.token.text == "class" && !p.namesProperty

/-- Whether an import or export clause with a list of names may start here. -/
def Place.startsClause (p : Place) : Bool :=
  p.token.kind == .keyword &&
    (p.token.text == "import" || p.token.text == "export" && (Walk.exportBrace? p).isSome)

/-- The tokens that a step of the walk takes up. -/
def Walk.taken (w : Walk) (p : Place) : List Seated := p.tokens.take (w.step p).length

/-! ## Tokens that do nothing -/

/-- A token that is no bracket, no semicolon and no word `class`. -/
def Token.isQuiet (t : Token) : Bool :=
  !(t.opensBracket || t.closesBracket || t.isPunct ";" || t.kind == .keyword && t.text == "class")

namespace Token

variable {t : Token}

theorem isQuiet_of_kind (punct : t.kind ≠ .punct) (keyword : t.kind ≠ .keyword) :
    t.isQuiet = true := by
  simp [isQuiet, opensBracket_of_ne punct, closesBracket_of_ne punct, isPunct_eq_false punct,
    keyword]

theorem isQuiet_of_word (kind : t.kind = .keyword) (other : t.text ≠ "class") :
    t.isQuiet = true := by
  have punct : t.kind ≠ .punct := by
    rw [kind]
    decide
  simp [isQuiet, opensBracket_of_ne punct, closesBracket_of_ne punct, isPunct_eq_false punct, other]

theorem isQuiet_of_isPunct {text : String} (here : t.isPunct text = true)
    (plain : text ∉ ["(", "[", "\x7b", ")", "]", "\x7d", ";"]) : t.isQuiet = true := by
  have kind : t.kind = .punct := by
    simp only [isPunct, Bool.and_eq_true, beq_iff_eq] at here
    exact here.1
  have apart : ∀ other ∈ ["(", "[", "\x7b", ")", "]", "\x7d", ";"], t.isPunct other = false := by
    intro other bracket
    rw [isPunct_eq_beq here, beq_eq_false_iff_ne]
    rintro rfl
    exact plain bracket
  simp [isQuiet, opensBracket, closesBracket, kind, apart "(" (by decide), apart "[" (by decide),
    apart "\x7b" (by decide), apart ")" (by decide), apart "]" (by decide),
    apart "\x7d" (by decide), apart ";" (by decide)]

theorem opensBracket_of_isPunct {text : String} (mark : t.isPunct text = true)
    (bracket : text ∈ ["(", "[", "\x7b"]) : t.opensBracket = true := by
  simp only [List.mem_cons, List.not_mem_nil, or_false] at bracket
  rw [opensBracket]
  rcases bracket with rfl | rfl | rfl <;> simp [mark]

theorem closesBracket_of_isPunct {text : String} (mark : t.isPunct text = true)
    (bracket : text ∈ [")", "]", "\x7d"]) : t.closesBracket = true := by
  simp only [List.mem_cons, List.not_mem_nil, or_false] at bracket
  rw [closesBracket]
  rcases bracket with rfl | rfl | rfl <;> simp [mark]

theorem isQuiet_of_isMemberModifier (modifier : t.isMemberModifier = true) : t.isQuiet = true := by
  simp only [isMemberModifier, Bool.and_eq_true, beq_iff_eq] at modifier
  exact isQuiet_of_kind (by rw [modifier.1]; decide) (by rw [modifier.1]; decide)

section Quiet

variable (quiet : t.isQuiet = true)
include quiet

theorem opensBracket_of_quiet : t.opensBracket = false := by
  simp only [isQuiet, Bool.not_eq_true', Bool.or_eq_false_iff] at quiet
  exact quiet.1.1.1

theorem closesBracket_of_quiet : t.closesBracket = false := by
  simp only [isQuiet, Bool.not_eq_true', Bool.or_eq_false_iff] at quiet
  exact quiet.1.1.2

theorem headsClass_of_quiet (source : List Char) (before : List Token) :
    headsClass source before t = false := by
  simp only [isQuiet, Bool.not_eq_true', Bool.or_eq_false_iff] at quiet
  rw [headsClass, quiet.2, Bool.false_and, Bool.false_and]

end Quiet

end Token

namespace Nest

variable {d : Dialect} {source : List Char} {ts : List Token} {n : Nest}

theorem after_quiet {t : Token} (quiet : t.isQuiet = true) (before : List Token) :
    n.after d (Token.headsClass source before t) t = n := by
  have semicolon : t.isPunct ";" = false := by
    simp only [Token.isQuiet, Bool.not_eq_true', Bool.or_eq_false_iff] at quiet
    exact quiet.1.2
  rw [Token.headsClass_of_quiet quiet, after_plain (Token.opensBracket_of_quiet quiet)
    (Token.closesBracket_of_quiet quiet), semicolon, if_neg (fun both => Bool.false_ne_true both.1)]

theorem through_quiet {us : List Seated} (quiet : ∀ t ∈ us, t.isQuiet = true) :
    n.through d source ts us = n := by
  induction us with
  | nil => rfl
  | cons t us ih =>
    obtain ⟨first, others⟩ := List.forall_mem_cons.mp quiet
    rw [through, List.foldl_cons, Seated.heads, after_quiet first]
    exact ih others

theorem through_append (us vs : List Seated) :
    n.through d source ts (us ++ vs) = (n.through d source ts us).through d source ts vs :=
  List.foldl_append

theorem through_cons (t : Seated) (us : List Seated) :
    n.through d source ts (t :: us) =
      (n.after d (t.heads source ts) t.toToken).through d source ts us :=
  rfl

/-- Without a brace no class body is opened. -/
theorem opensBody_eq_false {us : List Seated} (plain : ∀ t ∈ us, t.isPunct "\x7b" = false) :
    n.opensBody d source ts us = false := by
  induction us generalizing n with
  | nil => rfl
  | cons t us ih =>
    obtain ⟨first, others⟩ := List.forall_mem_cons.mp plain
    rw [opensBody, first, ih others]
    rfl

end Nest

/-! ## What a step of the walk does to its nest -/

/-- What a step that reads no member head does to a nest. -/
inductive Place.Moves (d : Dialect) (p : Place) (n : Nest) (s : Stride) : Prop
  | quiet : (∀ t ∈ p.tokens.take s.length, t.isQuiet = true) → s.walk.nest = n → Moves d p n s
  | word (more : List Seated) : p.token.kind = .keyword → p.token.text = "class" →
    p.tokens.take s.length = p.token :: more → (∀ t ∈ more, t.isQuiet = true) →
    s.walk.nest = (if p.headsClass = true then n.await else n) → Moves d p n s
  | clause : p.startsClause = true → s.walk.nest = n → Moves d p n s
  | bracket : p.token.opensBracket = true ∨ p.token.closesBracket = true → s.length = 1 →
    s.walk.nest = n.after d false p.token.toToken → Moves d p n s
  | semicolon : p.token.isPunct ";" = true → s.length = 1 → s.walk.nest = n → Moves d p n s

theorem Place.take_succ (p : Place) (k : Nat) :
    p.tokens.take (k + 1) = p.token :: p.rest.take k := rfl

theorem Token.isQuiet_of_ident {t : Token} (ident : t.kind = .ident) : t.isQuiet = true :=
  isQuiet_of_kind (by rw [ident]; decide) (by rw [ident]; decide)

namespace Place

variable {d : Dialect} {p : Place}

/-- A step over one quiet token that leaves the nest as it is. -/
theorem Moves.of_quiet {n : Nest} {s : Stride} (one : s.length = 1)
    (quiet : p.token.isQuiet = true) (same : s.walk.nest = n) : p.Moves d n s := by
  refine .quiet (fun t held => ?_) same
  rw [one] at held
  rwa [List.mem_singleton.mp held]

theorem Still.plain (still : p.Still) :
    p.token.opensBracket = false ∧ p.token.closesBracket = false := by
  simp [Token.opensBracket, Token.closesBracket, still.bracket]

/-- A semicolon or a word `class` that heads no class is no quiet token, but does nothing to the
nest of the walk either. -/
theorem Moves.of_still {n : Nest} {s : Stride} (one : s.length = 1) (still : p.Still)
    (same : s.walk.nest = n) : p.Moves d n s := by
  by_cases semicolon : p.token.isPunct ";" = true
  · exact .semicolon semicolon one same
  by_cases word : p.token.kind = .keyword ∧ p.token.text = "class"
  · have names : p.headsClass = false := by
      rw [headsClass, still.heading word.1 word.2, Bool.not_true, Bool.and_false]
    refine .word [] word.1 word.2 (by rw [one, take_one]) (List.forall_mem_nil _) ?_
    rw [same, names]
    rfl
  · have head : (p.token.kind == .keyword && p.token.text == "class") = false := by
      rw [Bool.eq_false_iff, ne_eq, Bool.and_eq_true, beq_iff_eq, beq_iff_eq]
      exact word
    exact .of_quiet one (by simp [Token.isQuiet, still.plain, semicolon, head]) same

end Place

namespace Walk

variable {d : Dialect} {w : Walk} {p : Place} {s : Stride}

theorem depth_eq (w : Walk) : w.depth = w.nest.bodies.length := (List.length_map ..).symm

theorem nest_pop : w.pop.nest = w.nest.leave := by
  have waiting : (w.heading.filter (·.2 ≤ w.frames.tail.length)).map (·.2) =
      (w.heading.map (·.2)).filter (· ≤ w.frames.tail.length) := by
    rw [Option.filter_map]
    rfl
  simp only [pop, nest, Nest.leave, List.map_tail, List.length_tail, List.length_map] at waiting ⊢
  rw [waiting]

theorem waitsHere_nest :
    w.nest.waitsHere = true ↔ ∃ name, w.heading = some (name, w.depth) := by
  rw [Nest.waitsHere, beq_iff_eq, ← depth_eq, nest, Option.map_eq_some_iff]
  constructor
  · rintro ⟨⟨name, n⟩, heading, rfl⟩
    exact ⟨name, heading⟩
  · rintro ⟨name, heading⟩
    exact ⟨(name, w.depth), heading, rfl⟩

/-- A token that is read like any other moves the nest by its kind. -/
theorem ReadsPlain.moves (reads : w.ReadsPlain p s) : p.Moves d w.nest s := by
  cases reads with
  | still _ still => exact .of_still rfl still rfl
  | declares kind word =>
    exact .of_quiet rfl (Token.isQuiet_of_word kind fun text => absurd word (by rw [text]; decide))
      rfl
  | comma comma => exact .of_quiet rfl (Token.isQuiet_of_isPunct comma (by decide)) rfl
  | function _ _ more kind text first marks =>
    refine .quiet ?_ rfl
    rw [Place.take_more first]
    refine List.forall_mem_cons.mpr ⟨Token.isQuiet_of_word kind (by rw [text]; decide), ?_⟩
    exact fun t held => (marks t held).elim (Token.isQuiet_of_isPunct · (by decide))
      Token.isQuiet_of_ident
  | heading _ _ more kind text heads first idents =>
    refine .word more kind text (Place.take_more first)
      (fun t held => Token.isQuiet_of_ident (idents t held)) ?_
    rw [if_pos (by simp [Place.headsClass, kind, text, heads]), Nest.await, ← depth_eq]
    rfl
  | imports kind text => exact .clause (by simp [Place.startsClause, kind, text]) rfl
  | exports position kind text found =>
    exact .clause (by simp [Place.startsClause, kind, text, found]) rfl
  | paren frame _ paren opened =>
    have opens := Token.opensBracket_of_isPunct paren (by decide)
    refine .bracket (.inl opens) rfl ?_
    rw [Nest.after_opens opens (by rw [Token.isPunct_eq_beq paren]; decide)]
    rcases opened with rfl | ⟨owner, rfl⟩ <;> rfl
  | square square =>
    have opens := Token.opensBracket_of_isPunct square (by decide)
    refine .bracket (.inl opens) rfl ?_
    rw [Nest.after_opens opens (by rw [Token.isPunct_eq_beq square]; decide)]
    rfl
  | body name mark heading =>
    have waits := waitsHere_nest.mpr ⟨name, heading⟩
    refine .bracket (.inl (Token.opensBracket_of_isPunct mark (by decide))) rfl ?_
    rw [Nest.after_brace mark, Nest.enterBrace, filter_ne_eq_ite, waits,
      if_pos (beq_iff_eq.mp waits)]
    rfl
  | block mark none_ =>
    have waits : ¬ w.nest.waitsHere = true := fun waits =>
      (waitsHere_nest.mp waits).elim none_
    refine .bracket (.inl (Token.opensBracket_of_isPunct mark (by decide))) rfl ?_
    rw [Nest.after_brace mark, Nest.enterBrace, filter_ne_eq_ite,
      if_neg (fun same => waits (beq_iff_eq.mpr same)), Bool.eq_false_iff.mpr waits]
    rfl
  | closing text bracket mark =>
    have closes := Token.closesBracket_of_isPunct mark bracket
    exact .bracket (.inr closes) rfl (nest_pop.trans (Nest.after_closes closes).symm)
  | arrow _ ident => exact .of_quiet rfl (Token.isQuiet_of_ident ident) rfl

/-- What a step does to a nest when it reads the head of a member: nothing, and of the tokens that
it takes up only the name of the member need not be quiet. -/
def ReadsMember (w : Walk) (p : Place) (n : Nest) (s : Stride) : Prop :=
  ∃ mods t more, w.memberAt? p = some t ∧ p.tokens.take s.length = mods ++ t :: more ∧
    (∀ u ∈ mods, u.isQuiet = true) ∧ (∀ u ∈ more, u.isQuiet = true) ∧ s.walk.nest = n

theorem ReadsHead.readsMember {owner : String} (reads : w.ReadsHead p owner s) :
    w.ReadsMember p w.nest s := by
  obtain ⟨mods, t, sign, rest, params, binding, member, split, modifiers, -, equals⟩ := reads
  refine ⟨mods, t, sign, member, ?_, fun u held => ?_, fun u held => ?_, rfl⟩
  · rw [split, ← List.cons_append, ← List.append_assoc, List.take_left]
  · exact (modifiers u held).elim Token.isQuiet_of_isMemberModifier
      (Token.isQuiet_of_isPunct · (by decide))
  · exact Token.isQuiet_of_isPunct (equals u held) (by decide)

/-- A token that a parameter list takes no notice of is quiet. -/
theorem isQuiet_of_skipped (skips : p.token.isPunct "," = true ∨ p.token.isPunct "." = true ∨
    p.token.kind = .ident) : p.token.isQuiet = true := by
  rcases skips with comma | stop | ident
  · exact Token.isQuiet_of_isPunct comma (by decide)
  · exact Token.isQuiet_of_isPunct stop (by decide)
  · exact Token.isQuiet_of_ident ident

theorem nest_past {f : Frame} {outer : List Frame} {declaration : Option Nat} (w : Walk)
    (inside : w.frames = f :: outer) (p : Place) :
    ({ w with frames := f.past p :: outer, declaration := declaration } : Walk).nest = w.nest := by
  have same : (f.past p).isClassBody = f.isClassBody := by
    unfold Frame.past
    split
    · split <;> rfl
    · rfl
  rw [nest, nest, inside, List.map_cons, List.map_cons, same]

end Walk

section Walk

variable {d : Dialect} (w : Walk) (p : Place)

/-- All that a step of the walk can do to its nest. -/
inductive Walk.Moves (d : Dialect) : Prop
  | member : w.ReadsMember p w.nest (w.step p) → Moves d
  | params : w.memberAt? p = none → w.inParams = true → p.token.isPunct ")" = true →
    (w.step p).length = 1 → (w.step p).walk.nest = ⟨w.nest.bodies.tail, w.nest.waiting⟩ → Moves d
  | other : w.memberAt? p = none → (w.inParams && p.token.isPunct ")") = false →
    p.Moves d w.nest (w.step p) → Moves d

theorem Walk.step_moves : w.Moves p d := by
  obtain ⟨declaration, track⟩ := w.exists_trackDeclaration p
  have reads := w.step_reads p
  rw [track] at reads
  generalize step : w.step p = s at reads
  cases reads with
  | head owner outer inside reads => exact .member (step ▸ reads.readsMember)
  | plain none_ outside reads =>
    have outside : w.inParams = false := outside
    exact .other none_ (by rw [outside, Bool.false_and]) (step ▸ reads.moves)
  | param owner slot fresh outer inside reads =>
    have none_ : w.memberAt? p = none := memberAt?_of_inParams (inParams_eq_true inside)
    have quiet {s : Stride} (here : w.step p = s) (one : s.length = 1)
        (quiet : p.token.isQuiet = true) (same : s.walk.nest = w.nest) : w.Moves p d := by
      refine .other none_ ?_ (.of_quiet (here ▸ one) quiet (here ▸ same))
      have open_ := Token.closesBracket_of_quiet quiet
      simp only [Token.closesBracket, Bool.or_eq_false_iff] at open_
      rw [open_.1.1, Bool.and_false]
    cases reads with
    | skipped skips => exact quiet step rfl (isQuiet_of_skipped skips) (w.nest_past inside p)
    | closing closing =>
      refine .params none_ (inParams_eq_true inside) closing (by rw [step]) ?_
      rw [step, nest, nest, show w.frames = _ from inside]
      rfl
    | name _ ident past =>
      exact quiet step rfl (Token.isQuiet_of_ident ident) (past ▸ w.nest_past inside p)
  | inner owner slot fresh outer inside reads plain =>
    cases reads with
    | other open_ =>
      refine .other (memberAt?_of_inParams (inParams_eq_true inside))
        (by rw [open_, Bool.and_false]) ?_
      have moves : p.Moves d _ (w.step p) := step ▸ plain.moves
      rwa [w.nest_past inside p] at moves

end Walk

end Gloss

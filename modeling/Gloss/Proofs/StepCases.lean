import Gloss.Outline
import Mathlib.Data.List.Basic
import Mathlib.Data.List.Infix

/-!
# What a step of the walk can be

A step reads its token like any other (`Walk.ReadsPlain`), as the head of a class member
(`Walk.ReadsHead`) or for the parameter list around it (`Walk.ReadsParam`). Each of the three lists
all that can come of it: what the walk knows afterwards, the tokens that are taken up and what is
placed. `Walk.Reads` puts them together, and `Walk.step_reads` says that every step is in it. What
a step does to the brackets, to an open declaration or to the sites is read off these lists, and
from none of the definitions of the walk.
-/

namespace Gloss

open Token (Seated)

namespace Place

/-- The token is no bracket, starts no declaration and heads no class. -/
structure Still (p : Place) : Prop where
  bracket : ∀ text ∈ ["(", ")", "[", "]", "\x7b", "\x7d"], p.token.isPunct text = false
  declaration : p.token.kind = .keyword → p.token.text ∉ ["let", "const", "var"]
  heading : p.token.kind = .keyword → p.token.text = "class" → p.namesProperty = true

theorem isPunct_of_kind {p : Place} {text : String} (kind : p.token.kind = .punct)
    (same : p.token.text = text) : p.token.isPunct text = true := by
  rw [Token.isPunct, kind, same]
  simp

theorem isPunct_of_ne {p : Place} (kind : p.token.kind ≠ .punct) (text : String) :
    p.token.isPunct text = false := by
  simp [Token.isPunct, kind]

theorem Still.of_kind {p : Place} (punct : p.token.kind ≠ .punct) (word : p.token.kind ≠ .keyword) :
    p.Still :=
  ⟨fun text _ => isPunct_of_ne punct text, fun kind => absurd kind word,
    fun kind => absurd kind word⟩

/-- Whether the token may stand before the name of a parameter. -/
def precedesParam (p : Place) : Bool :=
  p.token.isPunct "." ||
    Walk.isParamModifier p.token.toToken && p.rest.head?.any (·.kind == .ident)

theorem length_tokens (p : Place) : p.tokens.length = p.rest.length + 1 := rfl

theorem take_one (p : Place) : p.tokens.take 1 = [p.token] := rfl

/-- The tokens of a step that takes up more tokens after the current one. -/
theorem take_more {p : Place} {more : List Seated} (first : more <+: p.rest) :
    p.tokens.take (more.length + 1) = p.token :: more := by
  rw [tokens, List.take_succ_cons, ← List.prefix_iff_eq_take.mp first]

end Place

/-- What the innermost frame becomes when a token in it is read: a parameter list counts its commas,
and it is fresh from a comma on as long as the name of a parameter may still come. -/
def Frame.past (p : Place) : Frame → Frame
  | .params owner slot fresh =>
    if p.token.isPunct "," then .params owner (slot + 1) true
    else .params owner slot (fresh && p.precedesParam)
  | f => f

namespace Walk

/-- Whether the walk is directly in a parameter list. -/
def inParams (w : Walk) : Bool :=
  match w.frames with
  | .params _ _ _ :: _ => true
  | _ => false

/-- The name of the class member whose head the walk reads here, if it does. -/
def memberAt? (w : Walk) (p : Place) : Option Seated :=
  match w.frames with
  | .classBody _ :: _ =>
    if p.atMemberStart then (p.tokens.drop (modifierRun p.tokens)).head?.filter (·.isName) else none
  | _ => none

variable (w : Walk) (p : Place)

/-! ## The three ways to read a token -/

/-- All that can come of a token that is read like any other. -/
inductive ReadsPlain : Stride → Prop
  | still (binding : Option (String × Nat)) : p.Still →
    ReadsPlain ⟨{ w with binding := binding }, 1, []⟩
  | declares : p.token.kind = .keyword → p.token.text ∈ ["let", "const", "var"] →
    ReadsPlain ⟨{ w with declaration := some w.depth }, 1, declaredName p.rest.head?⟩
  | comma : p.token.isPunct "," = true → ReadsPlain ⟨w, 1, declaredName p.rest.head?⟩
  | function (name : String) (binding : Option (String × Nat)) (more : List Seated) :
    p.token.kind = .keyword → p.token.text = "function" → more <+: p.rest →
    (∀ t ∈ more, t.isPunct "*" = true ∨ t.kind = .ident) →
    ReadsPlain ⟨{ w with params := some (.function name, w.depth), binding := binding },
      more.length + 1, []⟩
  | heading (name : String) (binding : Option (String × Nat)) (more : List Seated) :
    p.token.kind = .keyword → p.token.text = "class" → p.namesProperty = false →
    more <+: p.rest → (∀ t ∈ more, t.kind = .ident) →
    ReadsPlain ⟨{ w with heading := some (name, w.depth), binding := binding },
      more.length + 1, []⟩
  | imports : p.token.kind = .keyword → p.token.text = "import" →
    ReadsPlain ⟨w, (Clause.readImport p.tokens).length, (Clause.readImport p.tokens).placements⟩
  | exports (position : Nat) : p.token.kind = .keyword → p.token.text = "export" →
    exportBrace? p = some position →
    ReadsPlain ⟨w, (Clause.readExport p.tokens position).length,
      (Clause.readExport p.tokens position).placements⟩
  | paren (frame : Frame) (binding : Option (String × Nat)) : p.token.isPunct "(" = true →
    (frame = .group ∨ ∃ owner, frame = .params owner 0 true) →
    ReadsPlain ⟨{ w with frames := frame :: w.frames, params := none, binding := binding }, 1, []⟩
  | square : p.token.isPunct "[" = true → ReadsPlain ⟨w.push .group, 1, []⟩
  | body (name : String) : p.token.isPunct "\x7b" = true → w.heading = some (name, w.depth) →
    ReadsPlain ⟨{ w with frames := .classBody name :: w.frames, heading := none }, 1, []⟩
  | block : p.token.isPunct "\x7b" = true → (∀ name, w.heading ≠ some (name, w.depth)) →
    ReadsPlain ⟨w.push .block, 1, []⟩
  | closing (text : String) : text ∈ [")", "]", "\x7d"] → p.token.isPunct text = true →
    ReadsPlain ⟨w.pop, 1, []⟩
  | arrow (name : String) : p.token.kind = .ident → p.rest.head?.any (·.kind == .arrow) = true →
    ReadsPlain ⟨w.unbind, 1, [.leading p.token.index (.param name 0 p.token.text),
      .trailing p.token.index (.returnSlot name)]⟩

/-- All that can come of the head of a class member: its modifiers, its name and the sign after it
are taken up. -/
inductive ReadsHead (owner : String) : Stride → Prop
  | head (mods : List Seated) (t : Seated) (sign rest : List Seated) (params : Option (Owner × Nat))
    (binding : Option (String × Nat)) : w.memberAt? p = some t →
    p.tokens = mods ++ t :: (sign ++ rest) →
    (∀ u ∈ mods, u.isMemberModifier = true ∨ u.isPunct "*" = true) → t.isName = true →
    (∀ u ∈ sign, u.isPunct "=" = true) →
    ReadsHead owner ⟨{ w with params := params, binding := binding }, (mods ++ t :: sign).length,
      Placement.both t.index (.member owner (memberName t.toToken))⟩

/-- All that can come of a token that stands directly in a parameter list: the list takes no
notice of it, ends at it, names a parameter by it, or leaves it to be read like any other. -/
inductive ReadsParam (owner : Owner) (slot : Nat) (fresh : Bool) (outer : List Frame) :
    Walk × Option (List Placement) → Prop
  | skipped : p.token.isPunct "," = true ∨ p.token.isPunct "." = true ∨ p.token.kind = .ident →
    ReadsParam owner slot fresh outer
      ({ w with frames := (Frame.params owner slot fresh).past p :: outer }, some [])
  | closing : p.token.isPunct ")" = true →
    ReadsParam owner slot fresh outer
      ({ w with frames := outer }, some [.trailing p.token.index (.returnSlot owner.name)])
  | name : fresh = true → p.token.kind = .ident →
    (Frame.params owner slot fresh).past p = .params owner slot false →
    ReadsParam owner slot fresh outer
      ({ w with frames := .params owner slot false :: outer },
        some (Placement.both p.token.index (owner.site slot p.token.text)))
  | other : p.token.isPunct ")" = false →
    ReadsParam owner slot fresh outer
      ({ w with frames := (Frame.params owner slot fresh).past p :: outer }, none)

/-- All that a step can be, once the open declaration is tracked. Directly in a parameter list it is
what the list makes of the token, or what is made of it everywhere else. -/
inductive Reads : Stride → Prop
  | head {s : Stride} (owner : String) (outer : List Frame) :
    w.frames = .classBody owner :: outer → w.ReadsHead p owner s → Reads s
  | plain {s : Stride} : w.memberAt? p = none → w.inParams = false → w.ReadsPlain p s → Reads s
  | param (owner : Owner) (slot : Nat) (fresh : Bool) (outer : List Frame) {w' : Walk}
    {placements : List Placement} : w.frames = .params owner slot fresh :: outer →
    w.ReadsParam p owner slot fresh outer (w', some placements) → Reads ⟨w', 1, placements⟩
  | inner (owner : Owner) (slot : Nat) (fresh : Bool) (outer : List Frame) {w' : Walk}
    {s : Stride} : w.frames = .params owner slot fresh :: outer →
    w.ReadsParam p owner slot fresh outer (w', none) → w'.ReadsPlain p s → Reads s

/-! ## A token like any other -/

variable {w p}

theorem functionHead_reads (kind : p.token.kind = .keyword) (text : p.token.text = "function") :
    w.ReadsPlain p (w.functionHead p) := by
  unfold functionHead
  dsimp only
  generalize stars : (if p.rest.head?.any (·.isPunct "*") then 1 else 0) = star
  obtain ⟨run, starred⟩ : (p.rest.take star).length = star ∧
      ∀ t ∈ p.rest.take star, t.isPunct "*" = true := by
    split at stars
    · next any =>
      obtain ⟨u, first, mark⟩ := (Option.any_eq_true _ _).mp any
      obtain ⟨more, rest⟩ := List.head?_eq_some_iff.mp first
      rw [← stars, rest]
      exact ⟨rfl, List.forall_mem_singleton.mpr mark⟩
    · rw [← stars]
      exact ⟨rfl, List.forall_mem_nil _⟩
  have unnamed (name : String) : w.ReadsPlain p
      ⟨{ w.unbind with params := some (.function name, w.depth) }, star + 1, []⟩ := by
    have reads : w.ReadsPlain p _ := .function name none _ kind text (List.take_prefix star _)
      fun t held => .inl (starred t held)
    rwa [run] at reads
  split
  · next t name =>
    split
    · next ident =>
      have whole : p.rest.take (star + 1) = p.rest.take star ++ [t] := by
        rw [List.take_add_one, name]
        rfl
      have reads : w.ReadsPlain p _ := .function t.text w.binding _ kind text
        (List.take_prefix (star + 1) _) fun u held => by
          rw [whole] at held
          rcases List.mem_append.mp held with held | held
          · exact .inl (starred u held)
          · rw [List.mem_singleton.mp held]
            exact .inr ident
      rwa [whole, List.length_append, run] at reads
    · exact unnamed _
  · exact unnamed _

theorem classHead_reads (kind : p.token.kind = .keyword) (text : p.token.text = "class")
    (heads : p.namesProperty = false) : w.ReadsPlain p (w.classHead p) := by
  have unnamed : w.ReadsPlain p
      ⟨{ w.unbind with heading := some (w.boundName p, w.depth) }, 1, []⟩ :=
    .heading _ none [] kind text heads List.nil_prefix (List.forall_mem_nil _)
  unfold classHead
  split
  · next t first =>
    obtain ⟨more, rest⟩ := List.head?_eq_some_iff.mp first
    split
    · next ident =>
      exact .heading t.text w.binding [t] kind text heads ⟨more, rest.symm⟩
        (List.forall_mem_singleton.mpr ident.1)
    · exact unnamed
  · exact unnamed

theorem keywordStep_reads (kind : p.token.kind = .keyword) :
    w.ReadsPlain p (w.keywordStep p) := by
  unfold keywordStep
  dsimp only
  split
  · next word => exact .declares kind (by simpa using word)
  next word =>
  split
  · next text => exact functionHead_reads kind text
  split
  · next head => exact classHead_reads kind head.1 head.2
  next head =>
  have pass : w.ReadsPlain p w.pass :=
    .still w.binding ⟨fun text _ => Place.isPunct_of_ne (by rw [kind]; decide) text,
      fun _ => by simpa using word, fun _ text => by simpa [text] using head⟩
  split
  · next text => exact .imports kind text
  split
  · next text =>
    split
    · next position found => exact .exports position kind text found
    · exact pass
  · exact pass

theorem openParen_reads (paren : p.token.isPunct "(" = true) :
    w.ReadsPlain p (w.openParen p) := by
  unfold openParen
  dsimp only
  split
  · next owner depth found => exact .paren (.params owner 0 true) w.binding paren (.inr ⟨_, rfl⟩)
  split
  · exact .paren (.params _ 0 true) none paren (.inr ⟨_, rfl⟩)
  · exact .paren .group w.binding paren (.inl rfl)

/-- A brace opens a class body where a class head waits for it. -/
theorem openBrace_reads (brace : p.token.isPunct "\x7b" = true) : w.ReadsPlain p w.openBrace := by
  unfold openBrace
  split
  · next name depth found =>
    obtain ⟨heading, here⟩ := Option.filter_eq_some_iff.mp found
    obtain rfl : depth = w.depth := beq_iff_eq.mp here
    exact .body name brace heading
  · next none_ =>
    refine .block brace fun name heading => ?_
    rw [heading] at none_
    simp at none_

theorem bind_reads (still : p.Still) : w.ReadsPlain p (w.bind p) := by
  unfold bind
  split
  · split
    · exact .still _ still
    · exact .still w.binding still
  · exact .still w.binding still

theorem rebind_reads (still : p.Still) : w.ReadsPlain p (w.rebind p) := by
  unfold rebind
  split
  · exact .still _ still
  · exact .still w.binding still

theorem punctStep_reads (kind : p.token.kind = .punct) : w.ReadsPlain p (w.punctStep p) := by
  have word : p.token.kind ≠ .keyword := by rw [kind]; decide
  have still {text : String} (same : p.token.text = text)
      (plain : text ∉ ["(", ")", "[", "]", "\x7b", "\x7d"]) : p.Still := by
    refine ⟨fun other bracket => ?_, fun kind => absurd kind word, fun kind => absurd kind word⟩
    rw [Token.isPunct, same, Bool.and_eq_false_iff]
    exact .inr (beq_eq_false_iff_ne.mpr (ne_of_mem_of_not_mem bracket plain).symm)
  unfold punctStep
  dsimp only
  split
  · next comma => exact .comma (Place.isPunct_of_kind kind comma.1)
  split
  · next equals => exact bind_reads (still equals (by decide))
  split
  · next paren => exact openParen_reads (Place.isPunct_of_kind kind paren)
  split
  · next square => exact .square (Place.isPunct_of_kind kind square)
  split
  · next brace => exact openBrace_reads (Place.isPunct_of_kind kind brace)
  split
  · next closing =>
    exact .closing p.token.text (by simpa using closing) (Place.isPunct_of_kind kind rfl)
  · next paren square brace closing =>
    simp only [not_or] at closing
    exact .still w.binding (still rfl (by simp [paren, square, brace, closing]))

theorem identStep_reads (ident : p.token.kind = .ident) : w.ReadsPlain p (w.identStep p) := by
  have still : p.Still := .of_kind (by rw [ident]; decide) (by rw [ident]; decide)
  unfold identStep
  split
  · exact rebind_reads still
  split
  · next arrow => exact .arrow _ ident arrow
  · exact .still w.binding still

theorem plainStep_reads : w.ReadsPlain p (w.plainStep p) := by
  unfold plainStep
  split
  · next kind => exact keywordStep_reads kind
  · next kind => exact punctStep_reads kind
  · next kind => exact identStep_reads kind
  · next word punct _ => exact .still w.binding (.of_kind punct word)

/-! ## The head of a class member -/

theorem memberAt?_eq {owner : String} {outer : List Frame}
    (inside : w.frames = .classBody owner :: outer) (starts : p.atMemberStart = true) :
    w.memberAt? p = (p.tokens.drop (modifierRun p.tokens)).head?.filter (·.isName) := by
  rw [memberAt?, inside]
  exact if_pos starts

theorem isName_of_memberAt? {t : Seated} (member : w.memberAt? p = some t) : t.isName = true := by
  unfold memberAt? at member
  split at member
  · split at member
    · exact (Option.filter_eq_some_iff.mp member).2
    · cases member
  · cases member

theorem memberAt?_of_inParams (inside : w.inParams = true) : w.memberAt? p = none := by
  unfold inParams at inside
  split at inside
  · next owner slot fresh outer frames => rw [memberAt?, frames]
  · cases inside

theorem inParams_eq_true {owner : Owner} {slot : Nat} {fresh : Bool} {outer : List Frame}
    (inside : w.frames = .params owner slot fresh :: outer) : w.inParams = true := by
  rw [inParams, inside]

theorem modifies_of_modifierRun (us : List Seated) :
    ∀ t ∈ us.take (modifierRun us), t.isMemberModifier = true ∨ t.isPunct "*" = true := by
  fun_induction modifierRun us with
  | case1 t next rest modifies ih =>
    simp only [Bool.and_eq_true, Bool.or_eq_true] at modifies
    rw [Nat.add_comm, List.take_succ_cons]
    exact List.forall_mem_cons.mpr ⟨modifies.1.1, ih⟩
  | case2 | case3 => exact List.forall_mem_nil _

variable {owner : String} {outer : List Frame} {s : Stride}

theorem memberStep_reads (inside : w.frames = .classBody owner :: outer)
    (starts : p.atMemberStart = true) (member : w.memberStep p owner = some s) :
    w.ReadsHead p owner s := by
  unfold memberStep at member
  dsimp only at member
  split at member
  · cases member
  next t rest after =>
  split at member
  · next name =>
    have here : w.memberAt? p = some t := by
      rw [memberAt?_eq inside starts, after]
      exact Option.filter_eq_some_iff.mpr ⟨rfl, name⟩
    have length : (p.tokens.take (modifierRun p.tokens)).length = modifierRun p.tokens := by
      have := congrArg List.length after
      rw [List.length_drop, List.length_cons] at this
      rw [List.length_take]
      omega
    -- the sign is the equals sign of a field, or none
    have reads (sign tail : List Seated) (split : rest = sign ++ tail)
        (equals : ∀ u ∈ sign, u.isPunct "=" = true) (params : Option (Owner × Nat))
        (binding : Option (String × Nat)) :
        w.ReadsHead p owner ⟨{ w with params := params, binding := binding },
          modifierRun p.tokens + (sign.length + 1),
          Placement.both t.index (.member owner (memberName t.toToken))⟩ := by
      have tokens : p.tokens = p.tokens.take (modifierRun p.tokens) ++ t :: (sign ++ tail) := by
        rw [← split, ← after, List.take_append_drop]
      have reads : w.ReadsHead p owner _ := .head _ t sign tail params binding here tokens
        (modifies_of_modifierRun p.tokens) name equals
      rwa [List.length_append, length, List.length_cons] at reads
    split at member
    · obtain rfl := Option.some.inj member
      exact reads [] rest rfl (List.forall_mem_nil _) _ w.binding
    split at member
    · next equals =>
      obtain ⟨u, first, mark⟩ := (Option.any_eq_true _ _).mp equals
      obtain ⟨tail, rest⟩ := List.head?_eq_some_iff.mp first
      obtain rfl := Option.some.inj member
      exact reads [u] tail rest (List.forall_mem_singleton.mpr mark) w.params _
    · obtain rfl := Option.some.inj member
      exact reads [] rest rfl (List.forall_mem_nil _) w.params w.binding
  · cases member

theorem memberAt?_of_memberStep (inside : w.frames = .classBody owner :: outer)
    (none_ : w.memberStep p owner = none) : w.memberAt? p = none := by
  rw [memberAt?, inside]
  dsimp only
  split
  · unfold memberStep at none_
    dsimp only at none_
    split at none_
    · next after =>
      rw [after]
      rfl
    · next t rest after =>
      rw [after]
      split at none_
      · split at none_
        · cases none_
        · split at none_ <;> cases none_
      · next other => simp [other]
  · rfl

/-- Outside of parameter lists a step reads the head of a member, or a token like any other. -/
theorem openStep_reads (w : Walk) (p : Place) :
    (∃ owner outer, w.frames = .classBody owner :: outer ∧ w.ReadsHead p owner (w.openStep p)) ∨
      w.memberAt? p = none ∧ w.ReadsPlain p (w.openStep p) := by
  unfold openStep
  split
  · next owner outer inside =>
    split
    · next starts =>
      cases member : w.memberStep p owner with
      | none => exact .inr ⟨memberAt?_of_memberStep inside member, plainStep_reads⟩
      | some s => exact .inl ⟨owner, outer, inside, memberStep_reads inside starts member⟩
    · next elsewhere =>
      refine .inr ⟨?_, plainStep_reads⟩
      rw [memberAt?, inside]
      exact if_neg elsewhere
  · next outside =>
    refine .inr ⟨?_, plainStep_reads⟩
    unfold memberAt?
    split
    · next owner outer inside => exact absurd inside (outside owner outer)
    · rfl

/-! ## A token of a parameter list -/

section Param

variable {owner : Owner} {slot : Nat} {fresh : Bool} {outer : List Frame}
  (inside : w.frames = .params owner slot fresh :: outer)
include inside

theorem paramStep_reads :
    w.ReadsParam p owner slot fresh outer (w.paramStep p owner slot fresh outer) := by
  -- where the list does not change its frame, the frame passes the token as it is
  have same (past : (Frame.params owner slot fresh).past p = .params owner slot fresh) :
      w = { w with frames := (Frame.params owner slot fresh).past p :: outer } := by
    rw [past, ← inside]
  unfold paramStep
  dsimp only
  split
  · next comma =>
    have past : (Frame.params owner slot fresh).past p = .params owner (slot + 1) true :=
      if_pos comma
    rw [← past]
    exact .skipped (.inl comma)
  next comma =>
  have past : (Frame.params owner slot fresh).past p =
      .params owner slot (fresh && p.precedesParam) := if_neg comma
  split
  · next closing => exact .closing closing
  next closing =>
  have open_ : p.token.isPunct ")" = false := Bool.eq_false_iff.mpr closing
  split
  · next stale =>
    obtain rfl : fresh = false := by simpa using stale
    have reads : w.ReadsParam p owner slot false outer _ := .other open_
    rwa [← same past] at reads
  next fresh_ =>
  obtain rfl : fresh = true := by simpa using fresh_
  rw [Bool.true_and] at past
  have skipped (quiet : p.token.isPunct "." = true ∨ p.token.kind = .ident)
      (precedes : p.precedesParam = true) :
      w.ReadsParam p owner slot true outer (w, some []) := by
    have reads : w.ReadsParam p owner slot true outer _ := .skipped (.inr quiet)
    rw [precedes] at past
    rwa [← same past] at reads
  split
  · next stop => exact skipped (.inl stop) (by rw [Place.precedesParam, stop, Bool.true_or])
  next stop =>
  split
  · next modifier =>
    have ident : p.token.kind = .ident := by
      simp only [isParamModifier, Bool.and_eq_true, beq_iff_eq] at modifier
      exact modifier.1.1
    exact skipped (.inr ident) (by rw [Place.precedesParam, modifier, Bool.or_true])
  next modifier =>
  have stale : p.precedesParam = false := by
    rw [Place.precedesParam, Bool.eq_false_iff.mpr stop, Bool.eq_false_iff.mpr modifier]
    rfl
  rw [stale] at past
  split
  · have reads : w.ReadsParam p owner slot true outer _ := .other open_
    rwa [past] at reads
  · next ident => exact .name rfl (by simpa using ident) past

end Param

/-! ## Every step -/

/-- Only the open declaration is tracked. -/
theorem exists_trackDeclaration (w : Walk) (p : Place) :
    ∃ declaration, w.trackDeclaration p = { w with declaration := declaration } := by
  unfold trackDeclaration
  split
  · exact ⟨_, rfl⟩
  split
  · exact ⟨_, rfl⟩
  split
  · exact ⟨_, rfl⟩
  · split <;> exact ⟨_, rfl⟩

theorem frames_trackDeclaration (w : Walk) (p : Place) :
    (w.trackDeclaration p).frames = w.frames := by
  obtain ⟨declaration, track⟩ := w.exists_trackDeclaration p
  rw [track]

theorem ReadsParam.inParams {w' : Walk} {owner : Owner} {slot : Nat} {fresh : Bool}
    {outer : List Frame} (reads : w.ReadsParam p owner slot fresh outer (w', none)) :
    w'.inParams = true := by
  cases reads
  rw [Frame.past]
  by_cases comma : p.token.isPunct "," = true
  · rw [if_pos comma]
    rfl
  · rw [if_neg comma]
    rfl

/-- What a step reads, once the open declaration is tracked. -/
theorem step_reads (w : Walk) (p : Place) : (w.trackDeclaration p).Reads p (w.step p) := by
  rw [step]
  generalize w.trackDeclaration p = w
  split
  · next owner slot fresh outer inside =>
    have reads := paramStep_reads (p := p) inside
    generalize w.paramStep p owner slot fresh outer = read at reads ⊢
    rcases read with ⟨w', _ | placements⟩
    · rcases w'.openStep_reads p with ⟨owner', outer', frames, -⟩ | ⟨-, plain⟩
      · have params := reads.inParams
        rw [inParams, frames] at params
        cases params
      · exact .inner owner slot fresh outer inside reads plain
    · exact .param owner slot fresh outer inside reads
  · next outside =>
    rcases w.openStep_reads p with ⟨owner, outer, inside, reads⟩ | ⟨none_, reads⟩
    · exact .head owner outer inside reads
    · refine .plain none_ ?_ reads
      unfold inParams
      split
      · next owner slot fresh outer inside => exact absurd inside (outside owner slot fresh outer)
      · rfl

end Walk

end Gloss

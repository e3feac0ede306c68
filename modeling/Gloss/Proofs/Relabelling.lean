import Gloss.Outline
import Mathlib.Data.List.Basic

/-!
# Relabelled tokens

The walk compares the texts of host tokens with words of one line, makes up a name
from an offset where a function or a class has none, and passes names and indices
on without a look. A `Relabelling` changes all that the walk does not look at: the
texts, the names that come of them, and the indices of host tokens and annotations.
Over relabelled tokens the walk does what it did before, relabelled
(`Relabelling.step_walk` for one step, `Relabelling.placements_walk` for the run).

How the texts of identifiers and the names that are made up are told apart is left to
the relabelling, so it is asked of the tokens at hand that names of identifiers are
relabelled as their texts are (`Relabelling.Names`).
-/

namespace Gloss

open Token (Seated)

/-- A change of host tokens that the walk cannot tell, with what becomes of texts, of the names of
functions and classes, and of the indices of host tokens and annotations. An annotation may get no
index at all. -/
structure Relabelling : Type where
  seat : Seated → Seated
  text : String → String
  name : String → String
  host : Nat → Nat
  note : Nat → Option Nat
  kind_seat : ∀ t : Seated, (seat t).kind = t.kind
  text_seat : ∀ t : Seated, (seat t).text = text t.text
  index_seat : ∀ t : Seated, (seat t).index = host t.index
  breaksLine_seat : ∀ t : Seated, (seat t).breaksLine = t.breaksLine
  noteIndices_seat : ∀ t : Seated, (seat t).noteIndices = t.noteIndices.filterMap note
  /-- A word of one line is kept, and only the word itself becomes it. -/
  text_eq_iff : ∀ {word : String}, '\n' ∉ word.toList → ∀ {s : String}, text s = word ↔ s = word
  unquote_text : ∀ s : String, Clause.unquote (text s) = text (Clause.unquote s)
  /-- A name that is made up follows the offset in it. -/
  name_anonymous : ∀ t : Seated,
    name s!"<anonymous@{t.span.start}>" = s!"<anonymous@{(seat t).span.start}>"
  name_member : ∀ owner member : String, name s!"{owner}.{member}" = s!"{name owner}.{text member}"

namespace Relabelling

attribute [simp] kind_seat text_seat index_seat breaksLine_seat noteIndices_seat

variable (r : Relabelling)

/-! ## What is relabelled -/

/-- The site with new names. -/
def site : Site → Site
  | .declarator n => .declarator (r.text n)
  | .param owner slot n => .param (r.name owner) slot (r.text n)
  | .constructorParam owner slot n => .constructorParam (r.name owner) slot (r.text n)
  | .returnSlot owner => .returnSlot (r.name owner)
  | .member owner n => .member (r.name owner) (r.text n)
  | .importName source n => .importName (r.text source) (r.text n)
  | .exportName n => .exportName (r.text n)

/-- The clause with a new source. -/
def clause : Clause → Clause
  | .importFrom source => .importFrom (r.text source)
  | .exported => .exported

/-- The placement by the new indices. The slot of an annotation without an index is gone. -/
def placement : Placement → Option Placement
  | .leading index site => some (.leading (r.host index) (r.site site))
  | .trailing index site => some (.trailing (r.host index) (r.site site))
  | .slot index clause => (r.note index).map fun index => .slot index (r.clause clause)

/-- The specifier by the new indices. -/
def specifier (s : Specifier) : Specifier := ⟨r.host s.first, r.host s.last, r.text s.name⟩

/-- The list in braces by the new indices. -/
def braces (b : Clause.Braces) : Clause.Braces :=
  ⟨b.specifiers.map r.specifier, b.slots.filterMap r.note, b.next⟩

/-- The clause with what becomes of its placements. -/
def reading (c : ClauseReading) : ClauseReading := ⟨c.length, c.placements.filterMap r.placement⟩

/-- The owner with a new name. -/
def owner : Owner → Owner
  | .function n => .function (r.name n)
  | .constructor n => .constructor (r.name n)

/-- The frame with a new owner. -/
def frame : Frame → Frame
  | .classBody owner => .classBody (r.name owner)
  | .params owner slot fresh => .params (r.owner owner) slot fresh
  | frame => frame

/-- What the walk knows, with new names. -/
def walk (w : Walk) : Walk where
  frames := w.frames.map r.frame
  params := w.params.map fun (owner, depth) => (r.owner owner, depth)
  heading := w.heading.map fun (owner, depth) => (r.name owner, depth)
  binding := w.binding.map fun (bound, number) => (r.name bound, number)
  declaration := w.declaration

/-- The step with what becomes of its placements. -/
def stride (s : Stride) : Stride := ⟨r.walk s.walk, s.length, s.placements.filterMap r.placement⟩

/-- The place among relabelled tokens. -/
def place (p : Place) : Place where
  number := p.number
  prev := p.prev.map r.seat
  token := r.seat p.token
  rest := p.rest.map r.seat

/-! ## Words -/

section Words

variable {word : String} (t : Seated)

theorem text_empty : r.text "" = "" := (r.text_eq_iff (by decide)).mpr rfl

theorem text_beq (oneLine : '\n' ∉ word.toList) (s : String) :
    (r.text s == word) = (s == word) := by
  rw [Bool.eq_iff_iff, beq_iff_eq, beq_iff_eq, r.text_eq_iff oneLine]

theorem contains_text {words : List String} (oneLine : ∀ w ∈ words, '\n' ∉ w.toList)
    (s : String) : words.contains (r.text s) = words.contains s := by
  induction words with
  | nil => rfl
  | cons w words ih =>
    obtain ⟨first, others⟩ := List.forall_mem_cons.mp oneLine
    rw [List.contains_cons, List.contains_cons, r.text_beq first, ih others]

theorem isPunct_seat (oneLine : '\n' ∉ word.toList) : (r.seat t).isPunct word = t.isPunct word := by
  rw [Token.isPunct, Token.isPunct, r.kind_seat, r.text_seat, r.text_beq oneLine]

@[simp] theorem isName_seat : (r.seat t).isName = t.isName := by
  rw [Token.isName, Token.isName, r.kind_seat]

@[simp] theorem isMemberModifier_seat : (r.seat t).isMemberModifier = t.isMemberModifier := by
  rw [Token.isMemberModifier, Token.isMemberModifier, r.kind_seat, r.text_seat,
    r.contains_text (by decide)]

@[simp] theorem isParamModifier_seat :
    Walk.isParamModifier (r.seat t).toToken = Walk.isParamModifier t.toToken := by
  rw [Walk.isParamModifier, Walk.isParamModifier, r.kind_seat, r.text_seat,
    r.contains_text (by decide)]

@[simp] theorem memberName_seat :
    Walk.memberName (r.seat t).toToken = r.text (Walk.memberName t.toToken) := by
  rw [Walk.memberName, Walk.memberName, r.kind_seat, r.text_seat, r.unquote_text]
  split <;> rfl

end Words

/-! ## Clauses -/

theorem single_seat (t : Seated) : Specifier.single (r.seat t) = r.specifier (.single t) := by
  rw [Specifier.single, r.index_seat, r.text_seat]
  rfl

section NameLists

theorem isTypeModifier_seat (t : Seated) (rest : List Seated) :
    NameList.isTypeModifier (r.seat t) (rest.map r.seat) = NameList.isTypeModifier t rest := by
  simp (disch := decide) only [NameList.isTypeModifier, List.head?_map, Option.any_map,
    text_seat, isName_seat, bne, text_beq]

theorem alias?_seat (ts : List Seated) :
    NameList.alias? (ts.map r.seat) = (NameList.alias? ts).map r.seat := by
  rcases ts with _ | ⟨joint, _ | ⟨name, rest⟩⟩
  · rfl
  · rfl
  · simp (disch := decide) only [List.map_cons, NameList.alias?, text_seat, text_eq_iff,
      isName_seat]
    split_ifs <;> rfl

theorem read_seat (position : Nat) (ts : List Seated) :
    NameList.read position (ts.map r.seat) =
      ((NameList.read position ts).1, (NameList.read position ts).2.map r.specifier) := by
  have brace (t : Seated) : (r.seat t).isPunct "\x7d" = t.isPunct "\x7d" :=
    r.isPunct_seat t (by decide)
  have comma (t : Seated) : (r.seat t).isPunct "," = t.isPunct "," := r.isPunct_seat t (by decide)
  fun_induction NameList.read position ts with
  | case1 => simp [NameList.read]
  | case2 position t rest close =>
    rw [List.map_cons, NameList.read, brace, if_pos close]
    rfl
  | case3 position t rest close skip ih =>
    rw [List.map_cons, NameList.read, brace, comma, r.isName_seat, if_neg close, if_pos skip, ih]
  | case4 position t rest close skip modifier ih =>
    rw [List.map_cons, NameList.read, brace, comma, r.isName_seat, r.isTypeModifier_seat,
      if_neg close, if_neg skip, if_pos modifier, ih]
  | case5 position t rest close skip modifier name found tail ih =>
    rw [List.map_cons, NameList.read, brace, comma, r.isName_seat, r.isTypeModifier_seat,
      if_neg close, if_neg skip, if_neg modifier, r.alias?_seat, found]
    simp [← List.map_drop, ih, tail, specifier]
  | case6 position t rest close skip modifier none tail ih =>
    rw [List.map_cons, NameList.read, brace, comma, r.isName_seat, r.isTypeModifier_seat,
      if_neg close, if_neg skip, if_neg modifier, r.alias?_seat, none]
    simp [ih, tail, single_seat]

theorem slots_seat (position : Nat) (ts : List Seated) :
    NameList.slots position (ts.map r.seat) = (NameList.slots position ts).filterMap r.note := by
  induction ts generalizing position with
  | nil => cases position <;> rfl
  | cons before rest ih =>
    rcases position with _ | position
    · rfl
    · rcases rest with _ | ⟨after, rest⟩
      · rfl
      · have more := ih position
        have opens : NameList.opensSlot (r.seat before) = NameList.opensSlot before := by
          simp (disch := decide) only [NameList.opensSlot, isPunct_seat]
        have closes : NameList.closesSlot (r.seat after) = NameList.closesSlot after := by
          simp (disch := decide) only [NameList.closesSlot, isPunct_seat]
        rw [List.map_cons] at more
        rw [List.map_cons, List.map_cons, NameList.slots, NameList.slots, opens, closes,
          r.noteIndices_seat, more]
        split
        · exact List.filterMap_append.symm
        · rfl

end NameLists

section Clauses

open Clause

variable (ts : List Seated) (position : Nat)

theorem textAt_seat : textAt (ts.map r.seat) position = r.text (textAt ts position) := by
  rw [textAt, textAt, List.getElem?_map]
  cases ts[position]? with
  | none => exact r.text_empty.symm
  | some t => exact r.text_seat t

theorem kindAt_seat (kind : Token.Kind) :
    kindAt (ts.map r.seat) position kind = kindAt ts position kind := by
  simp [kindAt, Option.any_map]

theorem punctAt_seat {word : String} (oneLine : '\n' ∉ word.toList) :
    punctAt (ts.map r.seat) position word = punctAt ts position word := by
  simp only [punctAt, List.getElem?_map, Option.any_map,
    r.isPunct_seat _ oneLine]

theorem braces_seat :
    Clause.braces (ts.map r.seat) position = r.braces (Clause.braces ts position) := by
  simp [Clause.braces, braces, ← List.map_drop, read_seat, slots_seat]

theorem bracesAt_seat : bracesAt (ts.map r.seat) position = r.braces (bracesAt ts position) := by
  rw [bracesAt, bracesAt, r.punctAt_seat _ _ (by decide), r.braces_seat]
  split <;> rfl

theorem module?_seat :
    module? (ts.map r.seat) position =
      ((module? ts position).1.map r.text, (module? ts position).2) := by
  simp (disch := decide) only [module?, textAt_seat, kindAt_seat, text_eq_iff, unquote_text]
  split
  · split <;> rfl
  · rfl

theorem nameAt_seat : nameAt (ts.map r.seat) position = (nameAt ts position).map r.specifier := by
  unfold nameAt
  rw [List.getElem?_map]
  rcases ts[position]? with _ | t
  · rfl
  · simp only [Option.map_some, kind_seat, single_seat]
    split_ifs <;> rfl

theorem defaultName_seat :
    defaultName (ts.map r.seat) position =
      ((defaultName ts position).1.map r.specifier, (defaultName ts position).2) := by
  simp (disch := decide) only [defaultName, textAt_seat, kindAt_seat, punctAt_seat, nameAt_seat,
    text_eq_iff, ne_eq]
  split <;> rfl

theorem namespaceName_seat :
    namespaceName (ts.map r.seat) position =
      ((namespaceName ts position).1.map r.specifier, (namespaceName ts position).2) := by
  simp (disch := decide) only [namespaceName, textAt_seat, kindAt_seat, punctAt_seat, nameAt_seat,
    text_eq_iff]
  split <;> rfl

theorem importStart_seat : importStart (ts.map r.seat) = importStart ts := by
  simp (disch := decide) only [importStart, textAt_seat, text_eq_iff, List.getElem?_map,
    Option.any_map, text_seat, bne, text_beq, isPunct_seat]

theorem place_specifiers {site site' : String → Site}
    (named : ∀ n, r.site (site n) = site' (r.text n)) (clause : Clause)
    (specifiers : List Specifier) (slots : List Nat) :
    Clause.place site' (r.clause clause) (specifiers.map r.specifier) (slots.filterMap r.note) =
      (Clause.place site clause specifiers slots).filterMap r.placement := by
  have one (s : Specifier) :
      (s.placements site).filterMap r.placement = (r.specifier s).placements site' := by
    simp [Specifier.placements, placement, specifier, named]
  rw [Clause.place, Clause.place, List.filterMap_append, List.filterMap_map, List.flatMap_map,
    List.filterMap_flatMap, List.map_filterMap]
  simp only [one]
  rfl

theorem readImport_seat : readImport (ts.map r.seat) = r.reading (readImport ts) := by
  simp only [readImport, importStart_seat, kindAt_seat]
  split
  · rfl
  · simp only [defaultName_seat, namespaceName_seat, bracesAt_seat, module?_seat, reading, braces]
    generalize (module? ts (bracesAt ts _).next).1 = source
    have sourceName : (source.map r.text).getD "" = r.text (source.getD "") := by
      cases source with
      | none => exact r.text_empty.symm
      | some => rfl
    have named (n : String) : r.site (.importName (source.getD "") n) =
        .importName (r.text (source.getD "")) (r.text n) := rfl
    rw [← r.place_specifiers named, sourceName, List.map_append, List.map_append]
    rfl

theorem readExport_seat :
    readExport (ts.map r.seat) position = r.reading (readExport ts position) := by
  simp only [readExport, braces_seat, module?_seat, reading, braces]
  rw [← r.place_specifiers (fun _ => rfl)]
  rfl

end Clauses

/-! ## Places -/

section Places

variable (p : Place)

@[simp] theorem number_place : (r.place p).number = p.number := rfl

@[simp] theorem token_place : (r.place p).token = r.seat p.token := rfl

@[simp] theorem prev_place : (r.place p).prev = p.prev.map r.seat := rfl

@[simp] theorem rest_place : (r.place p).rest = p.rest.map r.seat := rfl

@[simp] theorem tokens_place : (r.place p).tokens = p.tokens.map r.seat := rfl

theorem namesProperty_place : (r.place p).namesProperty = p.namesProperty := by
  simp (disch := decide) only [Place.namesProperty, prev_place, rest_place, List.head?_map,
    Option.any_map, isPunct_seat]

theorem atMemberStart_place : (r.place p).atMemberStart = p.atMemberStart := by
  simp (disch := decide) only [Place.atMemberStart, prev_place, token_place, Option.any_map,
    Option.isNone_map, breaksLine_seat, text_seat, text_beq]

theorem continues_place : (r.place p).continues = p.continues := by
  simp (disch := decide) only [Place.continues, prev_place, Option.any_map,
    text_seat, text_beq]

theorem closesBeforeArrow_seat (inside : Nat) (ts : List Seated) :
    Place.closesBeforeArrow inside (ts.map r.seat) = Place.closesBeforeArrow inside ts := by
  induction ts generalizing inside with
  | nil => rfl
  | cons t rest ih =>
    simp (disch := decide) only [List.map_cons, Place.closesBeforeArrow, isPunct_seat, ih]
    cases inside <;> simp [Option.any_map]

theorem opensArrow_place : (r.place p).opensArrow = p.opensArrow :=
  r.closesBeforeArrow_seat 0 p.rest

theorem anonymous_place : (r.place p).anonymous = r.name p.anonymous :=
  (r.name_anonymous p.token).symm

theorem exportBrace?_place : Walk.exportBrace? (r.place p) = Walk.exportBrace? p := by
  simp (disch := decide) only [Walk.exportBrace?, tokens_place, punctAt_seat, textAt_seat,
    text_eq_iff]

end Places

/-! ## Steps -/

/-- An identifier gives the name that its text is relabelled to. -/
def Names (t : Seated) : Prop := t.kind = .ident → r.name t.text = r.text t.text

/-- The identifiers at a place give the names that their texts are relabelled to. -/
def NamesAt (p : Place) : Prop := ∀ t, (p.prev = some t ∨ t ∈ p.tokens) → r.Names t

theorem name_owner (owner : Owner) : (r.owner owner).name = r.name owner.name := by
  cases owner with
  | function => rfl
  | constructor owner =>
    have word : r.text "constructor" = "constructor" := (r.text_eq_iff (by decide)).mpr rfl
    have member := r.name_member owner "constructor"
    rw [word, String.append_assoc, String.append_assoc] at member
    exact member.symm

theorem site_owner (owner : Owner) (slot : Nat) (param : String) :
    (r.owner owner).site slot (r.text param) = r.site (owner.site slot param) := by
  cases owner <;> rfl

section Steps

variable (w : Walk) (p : Place)

@[simp] theorem depth_walk : (r.walk w).depth = w.depth := List.length_map ..

@[simp] theorem frames_walk : (r.walk w).frames = w.frames.map r.frame := rfl

theorem pop_walk : (r.walk w).pop = r.walk w.pop := by
  simp only [Walk.pop, walk, List.map_tail, List.length_tail, List.length_map, Option.filter_map,
    Function.comp_def]

theorem trackDeclaration_walk :
    (r.walk w).trackDeclaration (r.place p) = r.walk (w.trackDeclaration p) := by
  have same : (r.walk w).declaration = w.declaration := rfl
  simp (disch := decide) only [Walk.trackDeclaration, same, depth_walk, token_place, isPunct_seat,
    breaksLine_seat, continues_place]
  split
  · rfl
  · split_ifs <;> rfl

theorem declaring_walk : (r.walk w).declaring = w.declaring := by
  rw [Walk.declaring, Walk.declaring, depth_walk]
  rfl

theorem boundName_walk : (r.walk w).boundName (r.place p) = r.name (w.boundName p) := by
  unfold Walk.boundName
  rcases here : w.binding with _ | ⟨bound, number⟩
  · simp only [walk, here, Option.map_none, anonymous_place]
  · simp only [walk, here, Option.map_some, anonymous_place, number_place]
    split <;> rfl

theorem declaredName_seat (t : Option Seated) :
    Walk.declaredName (t.map r.seat) = (Walk.declaredName t).filterMap r.placement := by
  rcases t with _ | t
  · rfl
  · simp only [Option.map_some, Walk.declaredName, kind_seat, index_seat, text_seat]
    split_ifs <;> rfl

theorem paramStep_walk (owner : Owner) (slot : Nat) (fresh : Bool) (outer : List Frame) :
    (r.walk w).paramStep (r.place p) (r.owner owner) slot fresh (outer.map r.frame) =
      (r.walk (w.paramStep p owner slot fresh outer).1,
        (w.paramStep p owner slot fresh outer).2.map (·.filterMap r.placement)) := by
  simp (disch := decide) only [Walk.paramStep, token_place, rest_place, isParamModifier_seat,
    List.head?_map, Option.any_map, isPunct_seat, kind_seat, index_seat,
    text_seat, name_owner, site_owner]
  split_ifs <;> rfl

theorem modifierRun_seat (ts : List Seated) :
    Walk.modifierRun (ts.map r.seat) = Walk.modifierRun ts := by
  induction ts with
  | nil => rfl
  | cons t rest ih =>
    rcases rest with _ | ⟨next, rest⟩
    · rfl
    · rw [List.map_cons] at ih
      simp (disch := decide) only [List.map_cons, Walk.modifierRun, isMemberModifier_seat,
        isPunct_seat, isName_seat, breaksLine_seat, ih]

theorem methodOwner_text (owner member : String) :
    Walk.methodOwner (r.name owner) (r.text member) = r.owner (Walk.methodOwner owner member) := by
  simp (disch := decide) only [Walk.methodOwner, text_eq_iff]
  split
  · rfl
  · exact congrArg Owner.function (r.name_member owner member).symm

theorem memberStep_walk (owner : String) :
    (r.walk w).memberStep (r.place p) (r.name owner) = (w.memberStep p owner).map r.stride := by
  simp only [Walk.memberStep, tokens_place, modifierRun_seat, ← List.map_drop]
  rcases p.tokens.drop (Walk.modifierRun p.tokens) with _ | ⟨t, rest⟩
  · rfl
  · simp (disch := decide) only [List.map_cons, List.head?_map, Option.any_map,
      memberName_seat, isName_seat, index_seat, isPunct_seat, number_place, depth_walk,
      methodOwner_text, ← name_member]
    split_ifs <;> rfl

theorem openParen_walk : (r.walk w).openParen (r.place p) = r.stride (w.openParen p) := by
  have params : (r.walk w).params = w.params.map fun o => (r.owner o.1, o.2) := rfl
  simp only [Walk.openParen, params, depth_walk, Option.filter_map, Function.comp_def,
    opensArrow_place, boundName_walk]
  cases w.params.filter (·.2 == w.depth) with
  | none =>
    rw [Option.map_none]
    dsimp only
    split <;> rfl
  | some => rfl

theorem openBrace_walk : (r.walk w).openBrace = r.stride w.openBrace := by
  have heading : (r.walk w).heading = w.heading.map fun h => (r.name h.1, h.2) := rfl
  simp only [Walk.openBrace, heading, depth_walk, Option.filter_map, Function.comp_def]
  cases w.heading.filter fun h => h.2 == w.depth <;> rfl

theorem rebind_walk : (r.walk w).rebind (r.place p) = r.stride (w.rebind p) := by
  rcases w with ⟨frames, params, heading, _ | ⟨bound, number⟩, declaration⟩
  · rfl
  · simp only [Walk.rebind, walk, Option.map_some, number_place, stride,
      apply_ite (Option.map _), Option.map_none]
    rfl

theorem arrowParam_walk : (r.walk w).arrowParam (r.place p) = r.stride (w.arrowParam p) := by
  simp only [Walk.arrowParam, boundName_walk, token_place, index_seat, text_seat]
  rfl

theorem identStep_walk : (r.walk w).identStep (r.place p) = r.stride (w.identStep p) := by
  simp (disch := decide) only [Walk.identStep, token_place, text_seat, text_eq_iff, rest_place,
    List.head?_map, Option.any_map, kind_seat, rebind_walk, arrowParam_walk]
  split_ifs <;> rfl

variable (named : r.NamesAt p)

include named in
theorem functionHead_walk : (r.walk w).functionHead (r.place p) = r.stride (w.functionHead p) := by
  simp (disch := decide) only [Walk.functionHead, rest_place, List.head?_map, Option.any_map,
    isPunct_seat, List.getElem?_map, boundName_walk, depth_walk]
  generalize (if p.rest.head?.any (·.isPunct "*") = true then 1 else 0) = star
  rcases next : p.rest[star]? with _ | t
  · rfl
  · simp only [Option.map_some, kind_seat, text_seat]
    split_ifs with ident
    · rw [← named t (.inr (.tail _ (List.mem_of_getElem? next))) ident]
      rfl
    · rfl

include named in
theorem classHead_walk : (r.walk w).classHead (r.place p) = r.stride (w.classHead p) := by
  simp only [Walk.classHead, rest_place, List.head?_map, boundName_walk, depth_walk]
  rcases first : p.rest.head? with _ | t
  · rfl
  · simp (disch := decide) only [Option.map_some, kind_seat, text_seat, ne_eq, text_eq_iff]
    split_ifs with ident
    · rw [← named t (.inr (.tail _ (List.mem_of_mem_head? first))) ident.1]
      rfl
    · rfl

include named in
theorem bind_walk : (r.walk w).bind (r.place p) = r.stride (w.bind p) := by
  unfold Walk.bind
  rw [prev_place]
  rcases before : p.prev with _ | t
  · rfl
  · simp only [Option.map_some, kind_seat, text_seat, number_place]
    split_ifs with ident
    · rw [← named t (.inl before) ident]
      rfl
    · rfl

include named in
theorem keywordStep_walk : (r.walk w).keywordStep (r.place p) = r.stride (w.keywordStep p) := by
  simp (disch := decide) only [Walk.keywordStep, token_place, text_seat, text_eq_iff, rest_place,
    List.head?_map, namesProperty_place, tokens_place, exportBrace?_place,
    functionHead_walk r w p named, classHead_walk r w p named, declaredName_seat, depth_walk,
    readImport_seat, readExport_seat]
  split_ifs
  · rfl
  · rfl
  · rfl
  · rfl
  · split <;> rfl
  · rfl

include named in
theorem punctStep_walk : (r.walk w).punctStep (r.place p) = r.stride (w.punctStep p) := by
  simp (disch := decide) only [Walk.punctStep, token_place, text_seat, text_eq_iff, rest_place,
    List.head?_map, declaring_walk, declaredName_seat, bind_walk r w p named, openParen_walk,
    openBrace_walk]
  split_ifs
  · rfl
  · rfl
  · rfl
  · rfl
  · rfl
  · rw [stride, ← pop_walk]
    rfl
  · rfl

include named in
theorem plainStep_walk : (r.walk w).plainStep (r.place p) = r.stride (w.plainStep p) := by
  unfold Walk.plainStep
  rw [token_place, kind_seat]
  split
  · exact keywordStep_walk r w p named
  · exact punctStep_walk r w p named
  · exact identStep_walk r w p
  · rfl

include named in
theorem openStep_walk : (r.walk w).openStep (r.place p) = r.stride (w.openStep p) := by
  unfold Walk.openStep
  rw [frames_walk, plainStep_walk r w p named]
  rcases w.frames with _ | ⟨innermost, outer⟩
  · rfl
  · cases innermost with
    | classBody owner =>
      simp only [List.map_cons, frame, atMemberStart_place, memberStep_walk]
      split
      · cases w.memberStep p owner <;> rfl
      · rfl
    | group | block | params => rfl

include named in
/-- One step over relabelled tokens is the step, relabelled. -/
theorem step_walk : (r.walk w).step (r.place p) = r.stride (w.step p) := by
  unfold Walk.step
  rw [trackDeclaration_walk]
  generalize w.trackDeclaration p = v
  dsimp only
  rw [frames_walk, openStep_walk r v p named]
  rcases v.frames with _ | ⟨innermost, outer⟩
  · rfl
  · cases innermost with
    | params owner slot fresh =>
      simp only [List.map_cons, frame, paramStep_walk]
      rcases v.paramStep p owner slot fresh outer with ⟨u, _ | placements⟩
      · exact openStep_walk r u p named
      · rfl
    | group | block | classBody => rfl

end Steps

/-! ## Runs -/

/-- Over relabelled tokens the walk places what it placed before, relabelled. -/
theorem placements_walk (w : Walk) (n : Nat) (prev : Option Seated) (ts : List Seated)
    (named : ∀ t, (prev = some t ∨ t ∈ ts) → r.Names t) :
    (Outline.walk (r.walk w) n (prev.map r.seat) (ts.map r.seat)).flatMap (·.stride.placements) =
      ((Outline.walk w n prev ts).flatMap (·.stride.placements)).filterMap r.placement := by
  fun_induction Outline.walk w n prev ts with
  | case1 => simp [Outline.walk]
  | case2 w n prev t rest place stride more ih =>
    have here : (r.walk w).step ⟨n, prev.map r.seat, r.seat t, rest.map r.seat⟩ = r.stride stride :=
      r.step_walk w place named
    have next : (r.place place).tokens[more]? = (place.tokens[more]?).map r.seat := by
      rw [tokens_place, List.getElem?_map]
    -- what comes after the step is among the tokens at its place
    have inside (u : Seated) (among : place.tokens[more]? = some u ∨ u ∈ rest.drop more) :
        u ∈ place.tokens :=
      among.elim List.mem_of_getElem? fun later => .tail _ (List.mem_of_mem_drop later)
    rw [List.map_cons, Outline.walk, List.flatMap_cons, List.flatMap_cons, List.filterMap_append,
      ← ih fun u among => named u (.inr (inside u among)), ← next, List.map_drop]
    simp only [here]
    rfl

end Relabelling

end Gloss

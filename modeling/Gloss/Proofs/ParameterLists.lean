import Gloss.Proofs.Frames

/-!
# Parameter lists

The frame that an opening parenthesis pushes stays on the stack until the parenthesis that matches
it, whatever the list contains, and it counts the commas of the list (`Outline.Leads.inList`). So
every parameter that it names has the number of its slot, the slots ascend, and the result slot is
at the matching parenthesis (`Outline.exists_readsParams`).
-/

namespace Gloss

open Token (Seated)

/-- What the parameter list that the step is directly in places for its token. -/
def Step.listed (s : Step) : List Placement :=
  let w := s.before.trackDeclaration s.place
  match w.frames with
  | .params owner slot fresh :: outer => ((w.paramStep s.place owner slot fresh outer).2).getD []
  | _ => []

/-- The slot of a parameter list that a token of it stands in: the number of commas before it that
are directly in the list. -/
def Token.slotAt (list : List Seated) (index : Nat) : Nat :=
  commas 0 ((list.takeWhile (·.index < index)).map (·.toToken))

/-! ## The frame of a list -/

/-- The frame of a parameter list lies on the outer frames, with a number of frames above it. -/
def Walk.InList (owner : Owner) (outer : List Frame) (slot : Nat) (fresh : Bool) (height : Nat)
    (w : Walk) : Prop :=
  ∃ above, above.length = height ∧ w.frames = above ++ .params owner slot fresh :: outer

namespace Outline

variable {tail us : List Seated} {a b : State} {ss : List Step} {owner : Owner} {slot : Nat}
  {fresh : Bool} {outer : List Frame} {height height' : Nat}

/-- The frame of a list passes a token when it is the innermost one. It counts the commas, and
becomes fresh only there. -/
theorem exists_modifyHead (owner : Owner) (slot : Nat) (fresh : Bool) (above outer : List Frame)
    (p : Place) :
    ∃ above' fresh', above'.length = above.length ∧
      (above ++ .params owner slot fresh :: outer).modifyHead (·.past p) =
        above' ++ .params owner
          (slot + if above.length = 0 ∧ p.token.isPunct "," = true then 1 else 0) fresh' :: outer ∧
      (fresh' = true → fresh = true ∨ above.length = 0 ∧ p.token.isPunct "," = true) := by
  cases above with
  | cons f above => exact ⟨f.past p :: above, fresh, rfl, by simp, .inl⟩
  | nil =>
    by_cases comma : p.token.isPunct "," = true
    · exact ⟨[], true, rfl, by simp [Frame.past, comma], fun _ => .inr ⟨rfl, comma⟩⟩
    · refine ⟨[], fresh && p.precedesParam, rfl, by simp [Frame.past, comma], fun still => .inl ?_⟩
      exact (Bool.and_eq_true_iff.mp still).1

/-- A step inside a parameter list keeps its frame. -/
theorem State.inList_next {t : Seated} (rest : List Seated)
    (inside : a.walk.InList owner outer slot fresh height)
    (turned : Token.turn height t.toToken = some height') :
    ∃ fresh', (a.next t rest).walk.InList owner outer
        (slot + if height = 0 ∧ t.isPunct "," = true then 1 else 0) fresh' height' ∧
      (fresh' = true → fresh = true ∨ height = 0 ∧ t.isPunct "," = true) := by
  obtain ⟨above, rfl, frames⟩ := inside
  have moves := a.walk.step_stacks (a.place t rest)
  obtain ⟨above₁, fresh₁, length, passed, stale⟩ :=
    exists_modifyHead owner slot fresh above outer (a.place t rest)
  rw [frames, passed] at moves
  refine ⟨fresh₁, ?_, stale⟩
  have turned : Token.turn above.length (a.place t rest).token.toToken = some height' := turned
  cases moves with
  | opens f opens _ _ next =>
    rw [Token.turn_of_opens opens] at turned
    exact ⟨f :: above₁, (congrArg (· + 1) length).trans (Option.some.inj turned), next⟩
  | closes closes _ next =>
    rw [Token.turn_of_closes closes, ← length] at turned
    cases above₁ with
    | nil => cases turned
    | cons f above₁ => exact ⟨above₁, Option.some.inj turned, next⟩
  | plain opens closes next =>
    rw [Token.turn_of_plain opens closes, ← length] at turned
    exact ⟨above₁, Option.some.inj turned, next⟩

/-- Over tokens that close no more brackets than they open the frame of a list stays, and it counts
their commas. -/
theorem Leads.inList (leads : Leads tail a us ss b) (clauses : ∀ u ∈ us, u.isClauseWord = false)
    (inside : a.walk.InList owner outer slot fresh height)
    (turned : Token.height? height (us.map (·.toToken)) = some height') :
    ∃ fresh', b.walk.InList owner outer (slot + Token.commas height (us.map (·.toToken))) fresh'
        height' ∧
      (fresh' = true → fresh = true ∨ 0 < Token.commas height (us.map (·.toToken))) := by
  induction leads generalizing slot fresh height with
  | done =>
    obtain rfl := Option.some.inj turned
    exact ⟨fresh, inside, .inl⟩
  | @step a b t more us ss length leads ih =>
    obtain ⟨here, others⟩ := List.forall_mem_cons.mp clauses
    have carried : ∀ u ∈ more.map (·.toToken), u.isCarried = true := by
      intro u held
      obtain ⟨u, member, rfl⟩ := List.mem_map.mp held
      refine (a.walk.step_acts (a.place t (more ++ (us ++ tail))) here).carried u ?_
      rw [length, Nat.add_sub_cancel]
      exact (List.take_left ..).symm ▸ member
    rw [List.map_cons, List.map_append] at turned ⊢
    obtain ⟨next, first, later⟩ := Option.bind_eq_some_iff.mp (Token.height?_cons .. ▸ turned)
    obtain ⟨still, none_⟩ := Token.commas_of_isCarried next carried
    rw [Token.height?_append, still] at later
    obtain ⟨fresh₁, inside₁, stale₁⟩ := a.inList_next (more ++ (us ++ tail)) inside first
    obtain ⟨fresh', inside', stale'⟩ :=
      ih (fun u held => others u (List.mem_append_right _ held)) inside₁ later
    rw [Token.commas_cons first, Token.commas_append still, none_, Nat.zero_add, ← Nat.add_assoc]
    refine ⟨fresh', inside', fun fresh => ?_⟩
    rcases stale' fresh with fresh | commas
    · refine (stale₁ fresh).imp_right fun comma => ?_
      rw [if_pos comma]
      omega
    · exact .inr (Nat.add_pos_right _ commas)

/-- The walk comes to each step over some of the tokens and goes on from it over the others. -/
theorem Leads.split {xs ys : List Step} {s : Step} (leads : Leads tail a us (xs ++ s :: ys) b) :
    ∃ vs t more ws c, us = vs ++ t :: (more ++ ws) ∧
      Leads (t :: (more ++ (ws ++ tail))) a vs xs c ∧ s = c.step t (more ++ (ws ++ tail)) ∧
      s.stride.length = more.length + 1 ∧
      Leads tail (c.next t (more ++ (ws ++ tail))) ws ys b := by
  induction xs generalizing a us with
  | nil =>
    cases leads with
    | @step _ _ t more ws _ length later =>
      exact ⟨[], t, more, ws, a, rfl, .done, rfl, length, later⟩
  | cons x xs ih =>
    cases leads with
    | @step _ _ t more us _ length later =>
      obtain ⟨vs, u, carried, ws, c, rfl, early, here, length', late⟩ := ih later
      refine ⟨t :: (more ++ vs), u, carried, ws, c, by simp, ?_, here, length', late⟩
      have whole : more ++ ((vs ++ u :: (carried ++ ws)) ++ tail) =
          more ++ (vs ++ (u :: (carried ++ (ws ++ tail)))) := by simp
      rw [whole] at length early ⊢
      exact .step length early

end Outline

/-! ## One token of a list -/

namespace Walk

variable {w : Walk} {p : Place} {owner : Owner} {slot : Nat} {fresh : Bool} {outer : List Frame}
  (inside : w.frames = .params owner slot fresh :: outer)
include inside

/-- The parenthesis that closes a list is the place of the result. -/
theorem step_of_closing (closing : p.token.isPunct ")" = true) :
    (w.step p).walk.frames = outer ∧
      (w.step p).placements = [.trailing p.token.index (.returnSlot owner.name)] := by
  rw [step_of_params inside]
  have frames := (w.frames_trackDeclaration p).trans inside
  have reads := paramStep_reads (p := p) frames
  generalize (w.trackDeclaration p).paramStep p owner slot fresh outer = read at reads ⊢
  cases reads with
  | skipped skips =>
    have none_ := Token.closesBracket_of_quiet (isQuiet_of_skipped skips)
    rw [Token.closesBracket, closing] at none_
    cases none_
  | closing => exact ⟨rfl, rfl⟩
  | name _ ident =>
    rw [Token.isPunct_eq_false (by rw [ident]; decide)] at closing
    cases closing
  | other open_ =>
    rw [open_] at closing
    cases closing

/-- A list places something before its end only when it names a parameter by an identifier in a
fresh slot, and this ends the freshness. -/
theorem step_of_listed (open_ : p.token.isPunct ")" = false)
    (listed : (Step.mk p w (w.step p)).listed ≠ []) :
    fresh = true ∧ p.token.kind = .ident ∧ (w.step p).length = 1 ∧
      (w.step p).walk.frames = .params owner slot false :: outer ∧
      (w.step p).placements = Placement.both p.token.index (owner.site slot p.token.text) := by
  have frames := (w.frames_trackDeclaration p).trans inside
  rw [step_of_params inside]
  simp only [Step.listed, frames] at listed
  have reads := paramStep_reads (p := p) frames
  generalize (w.trackDeclaration p).paramStep p owner slot fresh outer = read at reads listed ⊢
  cases reads with
  | skipped | other => exact absurd rfl listed
  | closing closing =>
    rw [open_] at closing
    cases closing
  | name fresh ident => exact ⟨fresh, ident, rfl, rfl, rfl⟩

end Walk

/-- The frame of a parameter list is pushed by an opening parenthesis, fresh for its first slot. -/
theorem Walk.step_of_opened {w : Walk} {p : Place} {owner : Owner} {slot : Nat} {fresh : Bool}
    (opened : (Step.mk p w (w.step p)).opened? = some (.params owner slot fresh)) :
    p.token.isPunct "(" = true ∧ (w.step p).length = 1 ∧
      ∃ outer, (w.step p).walk.frames = .params owner 0 true :: outer := by
  obtain ⟨deeper, head⟩ := Option.ite_none_right_eq_some.mp opened
  simp only [depth] at deeper head
  cases w.step_stacks p with
  | opens f _ starts one frames =>
    rw [frames] at head
    obtain rfl := Option.some.inj head
    obtain ⟨paren, rfl, rfl⟩ := starts
    exact ⟨paren, one, _, frames⟩
  | closes _ _ frames =>
    rw [frames, List.length_tail, List.length_modifyHead] at deeper
    omega
  | plain _ _ frames =>
    rw [frames, List.length_modifyHead] at deeper
    omega

/-! ## The tokens of a list -/

namespace Outline

section List

variable {tail list : List Seated} {a b : State} {inside : List Step} {owner : Owner}
  {outer : List Frame}

variable (leads : Leads tail a list inside b) (clauses : ∀ u ∈ list, u.isClauseWord = false)
  (opened : a.walk.frames = .params owner 0 true :: outer)
  (closed : Token.height? 0 (list.map (·.toToken)) = some 0)
  (ascending : list.Pairwise fun t u => t.index < u.index)

include leads clauses opened closed ascending

/-- Each step over a list finds its frame with the slot of its token. -/
theorem Leads.exists_inList {xs ys : List Step} {s : Step} (split : inside = xs ++ s :: ys) :
    ∃ vs more ws, ∃ c : State, ∃ fresh height, list = vs ++ s.place.token :: (more ++ ws) ∧
      s = c.step s.place.token (more ++ (ws ++ tail)) ∧ s.stride.length = more.length + 1 ∧
      Leads tail (c.next s.place.token (more ++ (ws ++ tail))) ws ys b ∧
      c.walk.InList owner outer (Token.slotAt list s.place.token.index) fresh height ∧
      Token.height? height ((s.place.token :: (more ++ ws)).map (·.toToken)) = some 0 := by
  subst split
  obtain ⟨vs, t, more, ws, c, rfl, early, rfl, length, late⟩ := leads.split
  rw [List.map_append, Token.height?_append] at closed
  obtain ⟨height, turned, later⟩ := Option.bind_eq_some_iff.mp closed
  obtain ⟨fresh, here, -⟩ := early.inList (fun u held => clauses u (List.mem_append_left _ held))
    ⟨[], rfl, opened⟩ turned
  rw [Nat.zero_add] at here
  refine ⟨vs, more, ws, c, fresh, height, rfl, rfl, length, late, ?_, later⟩
  rw [Token.slotAt]
  show c.walk.InList owner outer (Token.commas 0 (((vs ++ t :: (more ++ ws)).takeWhile
    (·.index < t.index)).map (·.toToken))) fresh height
  rwa [takeWhile_index ascending]

/-- A parameter that the list names is an identifier and has the number of its slot. The walk goes
on from it with a stale frame. -/
theorem Leads.names {xs ys : List Step} {s : Step} (split : inside = xs ++ s :: ys)
    (direct : s.before.frames.tail = outer) (listed : s.listed ≠ []) :
    s.place.token.kind = .ident ∧
      s.before.frames = .params owner (Token.slotAt list s.place.token.index) true :: outer ∧
      s.stride.placements = Placement.both s.place.token.index
        (owner.site (Token.slotAt list s.place.token.index) s.place.token.text) ∧
      ∃ vs ws, ∃ c : State, list = vs ++ s.place.token :: ws ∧
        Leads tail (c.next s.place.token (ws ++ tail)) ws ys b ∧
        Token.height? 0 (ws.map (·.toToken)) = some 0 ∧
        (c.next s.place.token (ws ++ tail)).walk.frames =
          .params owner (Token.slotAt list s.place.token.index) false :: outer := by
  obtain
    ⟨vs, more, ws, c, fresh, height, whole, same, length, late, ⟨above, rfl, frames⟩, turned⟩ :=
    leads.exists_inList clauses opened closed ascending split
  have before : s.before = c.walk := congrArg Step.before same
  have stride : s.stride = s.before.step s.place := by rw [same]; rfl
  rw [before, frames] at direct
  cases above with
  | cons f above =>
    have length := congrArg List.length direct
    simp at length
    omega
  | nil =>
    rw [← before] at frames
    -- nothing is open in the list that a parenthesis could close
    have open_ : s.place.token.isPunct ")" = false := by
      rw [Bool.eq_false_iff]
      intro closing
      rw [List.map_cons, Token.height?_cons, Token.turn_of_closes
        (by simp [Token.closesBracket, closing])] at turned
      cases turned
    rw [show s = ⟨s.place, s.before, s.before.step s.place⟩ by rw [← stride]] at listed
    obtain ⟨rfl, ident, one, next, placed⟩ := Walk.step_of_listed frames open_ listed
    rw [← stride] at one next placed
    obtain rfl : more = [] := List.eq_nil_of_length_eq_zero (by omega)
    obtain ⟨opens, closes⟩ := Token.plain_of_ne (t := s.place.token.toToken) (by rw [ident]; decide)
    rw [List.map_cons, Token.height?_cons, List.length_nil, Token.turn_of_plain opens closes]
      at turned
    refine ⟨ident, frames, placed, vs, ws, c, whole, late, turned, ?_⟩
    rw [← next, same]
    rfl

/-- The slots of the parameters that a list names ascend. -/
theorem Leads.slotAt_lt {xs ys zs : List Step} {s s' : Step}
    (split : inside = xs ++ s :: (ys ++ s' :: zs))
    (direct : s.before.frames.tail = outer) (listed : s.listed ≠ [])
    (direct' : s'.before.frames.tail = outer) (listed' : s'.listed ≠ []) :
    Token.slotAt list s.place.token.index < Token.slotAt list s'.place.token.index := by
  obtain ⟨-, -, -, vs, ws, c, whole, onward, closed', next⟩ :=
    leads.names clauses opened closed ascending split direct listed
  have split' : inside = (xs ++ s :: ys) ++ s' :: zs := by
    rw [split, List.append_assoc, List.cons_append]
  obtain ⟨-, before', -⟩ := leads.names clauses opened closed ascending split' direct' listed'
  obtain ⟨us, t, more, us', c', rfl, between, rfl, -, -⟩ := onward.split
  rw [List.map_append, Token.height?_append] at closed'
  obtain ⟨height, turned, -⟩ := Option.bind_eq_some_iff.mp closed'
  have inner : ∀ u ∈ us, u.isClauseWord = false := fun u held => clauses u (by simp [whole, held])
  obtain ⟨fresh, ⟨above, -, here⟩, stale⟩ := between.inList inner ⟨[], rfl, next⟩ turned
  -- between the two a comma has made the frame fresh again
  have same : above ++ .params owner (Token.slotAt list s.place.token.index +
      Token.commas 0 (us.map (·.toToken))) fresh :: outer =
        [] ++ .params owner (Token.slotAt list t.index) true :: outer := here.symm.trans before'
  obtain ⟨-, same⟩ := List.append_inj' same rfl
  obtain ⟨-, slot, rfl⟩ := Frame.params.inj (List.cons.inj same).1
  show _ < Token.slotAt list t.index
  rcases stale rfl with none_ | some_
  · cases none_
  · have some_ : 0 < Token.commas 0 (us.map (·.toToken)) := some_
    omega

theorem Leads.finds {s : Step} (held : s ∈ inside) :
    ∃ slot fresh height, s.before.InList owner outer slot fresh height := by
  obtain ⟨xs, ys, split⟩ := List.append_of_mem held
  obtain ⟨vs, more, ws, c, fresh, height, -, same, -, -, here, -⟩ :=
    leads.exists_inList clauses opened closed ascending split
  rw [same]
  exact ⟨_, _, _, here⟩

theorem Leads.ascends :
    inside.Pairwise fun s s' =>
      s.before.frames.tail = outer → s.listed ≠ [] →
      s'.before.frames.tail = outer → s'.listed ≠ [] →
        Token.slotAt list s.place.token.index < Token.slotAt list s'.place.token.index := by
  refine List.pairwise_iff_forall_sublist.mpr fun sub direct listed direct' listed' => ?_
  obtain ⟨front, back, parts, first, second⟩ := List.cons_sublist_iff.mp sub
  obtain ⟨xs, ys, rfl⟩ := List.append_of_mem first
  obtain ⟨ys', zs, rfl⟩ := List.append_of_mem (List.singleton_sublist.mp second)
  rw [List.append_assoc, List.cons_append, ← List.append_assoc ys] at parts
  exact leads.slotAt_lt clauses opened closed ascending parts direct listed direct' listed'

end List

/-- What a step places on both sides of its own token counts. -/
theorem sites_of_both {ts : List Token} {s : Step} (held : s ∈ steps ts) {site : Site}
    (placed : s.stride.placements = Placement.both s.place.token.index site) :
    (ofTokens ts).leading? s.place.token.index = some site ∧
      (ofTokens ts).trailing? s.place.token.index = some site := by
  constructor
  · refine last?_of_taken held (token_mem_taken held) ?_ fun _ _ => Placement.host?_of_siteBefore?
    rw [placed]
    simp [last?, Placement.both, Placement.siteBefore?]
  · refine last?_of_taken held (token_mem_taken held) ?_ fun _ _ => Placement.host?_of_siteAfter?
    rw [placed]
    simp [last?, Placement.both, Placement.siteAfter?]

/-! ## The whole list -/

/-- The walk over a parameter list, from the step that opens it to the step that closes it. -/
structure ReadsParams (ts : List Token) (owner : Owner) (first : Step) (list : List Seated)
    (inside : List Step) (last : Step) : Prop where
  steps : ∃ early late, Outline.steps ts = early ++ first :: (inside ++ last :: late)
  /-- The list stands in parentheses that match. -/
  opening : first.place.token.isPunct "(" = true
  tokens : ∃ after, first.place.rest = list ++ last.place.token :: after
  nested : Token.nest? [] (list.map (·.toToken)) = some []
  closing : last.place.token.isPunct ")" = true
  /-- Every step up to the last one finds the frame of the list where it was pushed. -/
  finds : ∀ s ∈ inside ++ [last], ∃ slot fresh height,
    s.before.InList owner first.stride.walk.frames.tail slot fresh height
  pops : last.stride.walk.frames = first.stride.walk.frames.tail
  result : (ofTokens ts).trailing? last.place.token.index = some (.returnSlot owner.name)
  /-- What the list names are identifiers, under the number of their slot. -/
  names : ∀ s ∈ inside, s.before.frames.tail = first.stride.walk.frames.tail → s.listed ≠ [] →
    s.place.token.kind = .ident ∧
      ∃ site, site = owner.site (Token.slotAt list s.place.token.index) s.place.token.text ∧
        s.stride.placements = Placement.both s.place.token.index site ∧
        (ofTokens ts).leading? s.place.token.index = some site ∧
        (ofTokens ts).trailing? s.place.token.index = some site
  /-- No slot has two names. -/
  ascends : inside.Pairwise fun s s' =>
    s.before.frames.tail = first.stride.walk.frames.tail → s.listed ≠ [] →
    s'.before.frames.tail = first.stride.walk.frames.tail → s'.listed ≠ [] →
      Token.slotAt list s.place.token.index < Token.slotAt list s'.place.token.index

/-- Where the brackets of a file are properly nested and no clause starts in parentheses, every
parameter list is read from its opening parenthesis to the one that matches. -/
theorem exists_readsParams {ts : List Token} (nested : Token.nest? [] ts = some [])
    (outside : Token.clausesOutside [] ts = true) {s : Step} (held : s ∈ steps ts) {owner : Owner}
    {slot : Nat} {fresh : Bool} (opened : s.opened? = some (.params owner slot fresh)) :
    ∃ list inside last, ReadsParams ts owner s list inside last := by
  obtain ⟨xs, ss, b, hosts, -, same, whole⟩ := exists_leads_of_mem held
  have stride := stride_of_mem held
  rw [show s = ⟨s.place, s.before, s.before.step s.place⟩ by rw [← stride]] at opened
  obtain ⟨paren, one, outer, frames⟩ := Walk.step_of_opened opened
  rw [← stride] at one frames
  obtain ⟨list, close, after, rest, nested, closes, clauses⟩ :=
    Token.exists_closing nested outside hosts paren
  have closing : close.isPunct ")" = true := Token.isPunct_of_closes? closes
  have closed : Token.height? 0 (list.map (·.toToken)) = some 0 := Token.height?_of_nest? nested
  have ascending : list.Pairwise fun t u => t.index < u.index := by
    have all := Token.pairwise_hosts ts
    rw [hosts, rest] at all
    exact (List.pairwise_append.mp (List.pairwise_cons.mp (List.pairwise_append.mp all).2.1).2).1
  rw [one, Nat.sub_self, List.drop_zero, rest] at whole
  have start : (b.next s.place.token s.place.rest).walk.frames =
      .params owner 0 true :: s.stride.walk.frames.tail := by
    have here : (b.next s.place.token s.place.rest).walk = s.stride.walk := by rw [same]; rfl
    rw [here, frames]
    rfl
  rw [rest] at start
  generalize b.next s.place.token (list ++ close :: after) = a at whole start
  -- the walk over it ends with the step at that parenthesis
  obtain ⟨inside, c, leads⟩ :=
    exists_leads a list after (Token.isCarried_of_closes? closes) clauses
  rw [leads.steps_eq, State.steps_cons] at whole
  obtain ⟨fresh', under, -⟩ := leads.inList clauses ⟨[], rfl, start⟩ closed
  obtain ⟨above, none_, under⟩ := under
  obtain rfl := List.eq_nil_of_length_eq_zero none_
  obtain ⟨pops, result⟩ := Walk.step_of_closing (p := c.place close after) under closing
  have member {s' : Step} (held : s' ∈ inside) : s' ∈ steps ts := by
    rw [whole]
    simp [held]
  have last : c.step close after ∈ steps ts := by
    rw [whole]
    simp
  refine ⟨list, inside, c.step close after, ?_⟩
  exact {
    steps := ⟨ss, _, whole⟩
    opening := paren
    tokens := ⟨after, rest⟩
    nested
    closing
    finds := fun s' held => by
      rcases List.mem_append.mp held with held | held
      · exact leads.finds clauses start closed ascending held
      · rw [List.mem_singleton.mp held]
        exact ⟨_, _, _, [], rfl, under⟩
    pops
    result := by
      refine last?_of_taken last (token_mem_taken last) ?_ fun _ _ => Placement.host?_of_siteAfter?
      rw [State.step, result]
      simp [last?, Placement.siteAfter?, State.place]
    names := fun s' held direct listed => by
      obtain ⟨before, later, split⟩ := List.append_of_mem held
      obtain ⟨ident, -, placed, -⟩ :=
        leads.names clauses start closed ascending split direct listed
      exact ⟨ident, _, rfl, placed, sites_of_both (member held) placed⟩
    ascends := leads.ascends clauses start closed ascending }

/-- The default of the first parameter has commas and parentheses of its own. -/
theorem exists_readsParams_default :
    let ts := (Reading.ofSource .hash
      "class A \x7b constructor(a = f((x) => x, [1, 2]), public b) \x7b\x7d \x7d").tokens
    Token.nest? [] ts = some [] ∧ Token.clausesOutside [] ts = true ∧
      (∃ s ∈ steps ts, s.opened? = some (.params (.constructor "A") 0 true) ∧
        ∃ list inside last, ReadsParams ts (.constructor "A") s list inside last) ∧
      (ofTokens ts).leading? 23 = some (.constructorParam "A" 1 "b") ∧
      (ofTokens ts).trailing? 24 = some (.returnSlot "A.constructor") := by
  intro ts
  have nested : Token.nest? [] ts = some [] := by decide +kernel
  have outside : Token.clausesOutside [] ts = true := by decide +kernel
  obtain ⟨s, held, opened⟩ :
      ∃ s ∈ steps ts, s.opened? = some (.params (.constructor "A") 0 true) := by decide +kernel
  refine ⟨nested, outside, ⟨s, held, opened, exists_readsParams nested outside held opened⟩, ?_⟩
  decide +kernel

end Outline

end Gloss

import Gloss.Proofs.Acts

/-!
# The open declaration

`Outline.Leads` follows the walk over some tokens in front of others. A token that no step carries
along starts a step (`Outline.exists_leads`). Where neither a semicolon outside of the brackets nor
a line ends the declaration, it is open exactly when the last one that was started stands outside of
all brackets (`Outline.Leads.declaration_iff`).
-/

namespace Gloss

open Token (Seated)

/-! ## Along the walk -/

/-- Whether the step starts a declaration. -/
def Step.declares (s : Step) : Bool := s.before.declares s.place

/-- Where the walk is: what it knows, the number of host tokens before and the last of them. -/
structure Outline.State : Type where
  walk : Walk
  number : Nat
  prev : Option Seated

namespace Outline

/-- The current token with those after it. -/
def State.place (a : State) (t : Seated) (rest : List Seated) : Place := ⟨a.number, a.prev, t, rest⟩

/-- Where the walk is after the step at a token. -/
def State.next (a : State) (t : Seated) (rest : List Seated) : State :=
  let s := a.walk.step (a.place t rest)
  ⟨s.walk, a.number + 1 + (s.length - 1), (a.place t rest).tokens[s.length - 1]?⟩

/-- The step at a token. -/
def State.step (a : State) (t : Seated) (rest : List Seated) : Step :=
  ⟨a.place t rest, a.walk, a.walk.step (a.place t rest)⟩

/-- The steps from a state on. -/
def State.steps (a : State) (us : List Seated) : List Step := Outline.walk a.walk a.number a.prev us

/-- The steps over some tokens, in front of others. -/
inductive Leads (tail : List Seated) : State → List Seated → List Step → State → Prop
  | done {a : State} : Leads tail a [] [] a
  | step {a b : State} {t : Seated} {more us : List Seated} {ss : List Step} :
    (a.walk.step (a.place t (more ++ (us ++ tail)))).length = more.length + 1 →
    Leads tail (a.next t (more ++ (us ++ tail))) us ss b →
    Leads tail a (t :: (more ++ us)) (a.step t (more ++ (us ++ tail)) :: ss) b

variable {tail us : List Seated} {a b : State} {ss : List Step}

theorem State.steps_cons (a : State) (t : Seated) (rest : List Seated) :
    a.steps (t :: rest) =
      a.step t rest ::
        (a.next t rest).steps (rest.drop ((a.walk.step (a.place t rest)).length - 1)) := by
  rw [State.steps, Outline.walk]
  rfl

theorem State.steps_nil (a : State) : a.steps [] = [] := by
  rw [State.steps, Outline.walk]

theorem Leads.steps_eq (leads : Leads tail a us ss b) :
    a.steps (us ++ tail) = ss ++ b.steps tail := by
  induction leads with
  | done => rfl
  | @step a b t more us ss length _ ih =>
    rw [List.cons_append, List.append_assoc, State.steps_cons, length, Nat.add_sub_cancel,
      List.drop_left, ih, List.cons_append]

/-- A token that is never carried along starts a step. -/
theorem exists_leads (a : State) (us : List Seated) {t : Seated} (tail : List Seated)
    (alone : t.isCarried = false) (clauses : ∀ u ∈ us, u.isClauseWord = false) :
    ∃ ss b, Leads (t :: tail) a us ss b := by
  induction size : us.length using Nat.strongRecOn generalizing a us with
  | ind n ih =>
  cases us with
  | nil => exact ⟨[], a, .done⟩
  | cons u us =>
    obtain ⟨first, others⟩ := List.forall_mem_cons.mp clauses
    have acts := a.walk.step_acts (a.place u (us ++ t :: tail)) first
    have pos := a.walk.step_length_pos (a.place u (us ++ t :: tail))
    -- what is carried along ends before the token
    have short : (a.walk.step (a.place u (us ++ t :: tail))).length - 1 ≤ us.length := by
      by_contra long
      have held : t ∈ (us ++ t :: tail).take
          ((a.walk.step (a.place u (us ++ t :: tail))).length - 1) := by
        obtain ⟨n, more⟩ := Nat.exists_eq_add_of_lt (Nat.not_le.mp long)
        rw [more, Nat.add_assoc, List.take_length_add_append, List.take_succ_cons]
        simp
      rw [acts.carried t held] at alone
      cases alone
    obtain ⟨more, us, rfl, length⟩ : ∃ more later, us = more ++ later ∧
        (a.walk.step (a.place u (us ++ t :: tail))).length = more.length + 1 := by
      refine ⟨us.take _, us.drop _, (List.take_append_drop
        ((a.walk.step (a.place u (us ++ t :: tail))).length - 1) us).symm, ?_⟩
      rw [List.length_take]
      omega
    rw [List.append_assoc] at length
    have smaller : us.length < n := by
      rw [← size, List.length_cons, List.length_append]
      omega
    obtain ⟨ss, b, leads⟩ := ih us.length smaller (a.next u (more ++ (us ++ t :: tail))) us
      (fun v held => others v (List.mem_append_right _ held)) rfl
    exact ⟨_, b, .step length leads⟩

/-! ## The open declaration -/

/-- A declaration outside of all brackets stays open where neither a semicolon nor a line ends
it. -/
theorem declaration_trackDeclaration {w : Walk} {p : Place}
    (line : p.token.breaksLine = false ∨ p.token.isPunct "," = true)
    (goes : 0 < w.depth ∨ p.token.isPunct ";" = false) :
    (w.trackDeclaration p).declaration = some 0 ↔ w.declaration = some 0 := by
  unfold Walk.trackDeclaration
  split
  · exact Iff.rfl
  next depth declared =>
  split
  · next less =>
    rw [declared, Option.some.injEq]
    exact iff_of_false (by simp) (by omega)
  split
  · exact Iff.rfl
  next high low =>
  split
  · next ends =>
    rw [declared, Option.some.injEq]
    refine iff_of_false (by simp) fun zero => ?_
    rcases ends with semicolon | ⟨breaks, -, other⟩
    · rcases goes with deep | none_
      · omega
      · rw [semicolon] at none_
        cases none_
    · rcases line with line | comma
      · rw [line] at breaks
        cases breaks
      · rw [comma] at other
        cases other
  · exact Iff.rfl

theorem depth_trackDeclaration (w : Walk) (p : Place) : (w.trackDeclaration p).depth = w.depth := by
  obtain ⟨declaration, track⟩ := w.exists_trackDeclaration p
  rw [track]
  rfl

/-- A step that starts a declaration forgets the one that was open. Any other step keeps it. -/
theorem State.declaration_next (a : State) {t : Seated} (rest : List Seated)
    (clause : t.isClauseWord = false) (line : t.breaksLine = false)
    (goes : 0 < a.walk.depth ∨ t.isPunct ";" = false) :
    (a.next t rest).walk.declaration = some 0 ↔
      if (a.step t rest).declares = true then a.walk.depth = 0
      else a.walk.declaration = some 0 := by
  have acts := (a.walk.step_acts (a.place t rest) clause).declaration
  have kept : (a.walk.trackDeclaration (a.place t rest)).declaration = some 0 ↔
      a.walk.declaration = some 0 := declaration_trackDeclaration (.inl line) goes
  rw [next, acts, depth_trackDeclaration, Step.declares]
  cases declares : a.walk.declares (a.place t rest) with
  | true => simp [step, declares]
  | false => simpa [step, declares] using kept

/-- Outside of all brackets a declaration is open exactly when the last one that was started there
is, because every other one that was started takes its place. -/
theorem Leads.declaration_iff (leads : Leads tail a us ss b)
    (clauses : ∀ u ∈ us, u.isClauseWord = false) (line : ∀ u ∈ us, u.breaksLine = false)
    (closed : Token.isClosed (!·.isPunct ";") a.walk.depth (us.map (·.toToken)) = true) :
    b.walk.depth = 0 ∧
      (b.walk.declaration = some 0 ↔
        (ss.filter (·.declares)).getLast?.elim (a.walk.declaration = some 0)
          (·.before.depth = 0)) := by
  induction leads with
  | done => exact ⟨beq_iff_eq.mp closed, Iff.rfl⟩
  | @step a b t more us ss length leads ih =>
    obtain ⟨here, others⟩ := List.forall_mem_cons.mp clauses
    obtain ⟨line, lines⟩ := List.forall_mem_cons.mp line
    have goes : 0 < a.walk.depth ∨ t.isPunct ";" = false := by
      simpa using (Token.isClosed_cons.mp closed).1
    rw [← List.cons_append, List.map_append] at closed
    obtain ⟨height, turned, closed⟩ := Token.exists_height_of_isClosed closed
    have taken : a.walk.taken (a.place t (more ++ (us ++ tail))) = t :: more := by
      rw [Walk.taken, length]
      exact congrArg (t :: ·) (List.take_left ..)
    have depth : (a.next t (more ++ (us ++ tail))).walk.depth = height :=
      a.walk.step_depth _ here (taken ▸ turned)
    obtain ⟨bare, later⟩ := ih (fun u held => others u (List.mem_append_right _ held))
      (fun u held => lines u (List.mem_append_right _ held)) (depth ▸ closed)
    refine ⟨bare, later.trans ?_⟩
    have declared := a.declaration_next (more ++ (us ++ tail)) here line goes
    rw [List.filter_cons]
    split
    · next declares =>
      rw [if_pos declares] at declared
      rw [List.getLast?_cons, Option.elim_some]
      cases (ss.filter (·.declares)).getLast? with
      | none => exact declared
      | some s => exact Iff.rfl
    · next other =>
      rw [if_neg other] at declared
      cases (ss.filter (·.declares)).getLast? with
      | none => exact declared
      | some s => exact Iff.rfl

theorem Leads.token_mem (leads : Leads tail a us ss b) : ∀ s ∈ ss, s.place.token ∈ us := by
  induction leads with
  | done => exact List.forall_mem_nil _
  | step length leads ih =>
    refine List.forall_mem_cons.mpr ⟨.head _, fun s held => ?_⟩
    exact .tail _ (List.mem_append_right _ (ih s held))

/-- What the steps place is about their tokens or about the next one. -/
theorem Leads.placed (leads : Leads tail a us ss b) (clauses : ∀ u ∈ us, u.isClauseWord = false) :
    ∀ s ∈ ss, ∀ q ∈ s.stride.placements, ∀ i, q.host? = some i →
      ∃ t ∈ us ++ tail.take 1, t.index = i := by
  induction leads with
  | done => exact List.forall_mem_nil _
  | @step a b t more us ss length leads ih =>
    obtain ⟨here, others⟩ := List.forall_mem_cons.mp clauses
    rw [List.cons_append, List.append_assoc]
    refine List.forall_mem_cons.mpr ⟨fun q held i host => ?_, fun s held q placed i host => ?_⟩
    · obtain ⟨u, near, index⟩ :=
        (a.walk.step_acts (a.place t (more ++ (us ++ tail))) here).placed q held i host
      refine ⟨u, ?_, index⟩
      rw [length, Place.take_succ] at near
      have first : (us ++ tail).take 1 ⊆ us ++ tail.take 1 := by
        cases us with
        | nil => exact List.Subset.refl _
        | cons v us => exact List.cons_subset_cons v (List.nil_subset _)
      have near : u ∈ t :: (more ++ (us ++ tail)).take (more.length + 1) := near
      rw [List.take_length_add_append] at near
      exact List.mem_cons.mpr ((List.mem_cons.mp near).imp_right fun near =>
        List.mem_append.mpr ((List.mem_append.mp near).imp id (first ·)))
    · obtain ⟨u, near, index⟩ :=
        ih (fun u held => others u (List.mem_append_right _ held)) s held q placed i host
      exact ⟨u, .tail _ (List.mem_append_right _ near), index⟩

end Outline

/-! ## Steps outside of all brackets -/

namespace Walk

variable {w : Walk} {p : Place}

theorem step_of_bare (bare : w.depth = 0) : w.step p = (w.trackDeclaration p).plainStep p := by
  obtain ⟨declaration, track⟩ := w.exists_trackDeclaration p
  have none_ : w.frames = [] := List.eq_nil_of_length_eq_zero bare
  rw [step, track, openStep]
  simp only [none_]

theorem step_word (bare : w.depth = 0) (word : p.token.isDeclarationWord = true) :
    (w.step p).length = 1 ∧ (w.step p).placements = declaredName p.rest.head? := by
  have kind := Token.kind_of_isDeclarationWord word
  simp only [Token.isDeclarationWord, Bool.and_eq_true, Bool.or_eq_true, beq_iff_eq, or_assoc]
    at word
  rw [step_of_bare bare, plainStep, kind, keywordStep]
  dsimp only
  rw [if_pos word.2]
  exact ⟨rfl, rfl⟩

/-- After a comma stands a declarator where a declaration is open outside of all brackets. -/
theorem step_comma (bare : w.depth = 0) (comma : p.token.isPunct "," = true) :
    (w.step p).length = 1 ∧ (w.step p).placements =
      if w.declaration = some 0 then declaredName p.rest.head? else [] := by
  have kind := Token.kind_of_isPunct comma
  have text : p.token.text = "," := by
    simpa [Token.isPunct, kind] using comma
  have none_ : p.token.isPunct ";" = false := by
    rw [Token.isPunct_eq_beq comma]
    rfl
  have kept := Outline.declaration_trackDeclaration (w := w) (.inr comma) (.inr none_)
  have declaring : (w.trackDeclaration p).declaring = true ↔ w.declaration = some 0 := by
    rw [Walk.declaring, beq_iff_eq, Outline.depth_trackDeclaration, bare, kept]
  rw [step_of_bare bare, plainStep, kind, punctStep]
  dsimp only
  by_cases open_ : w.declaration = some 0
  · rw [if_pos ⟨text, declaring.mpr open_⟩, if_pos open_]
    exact ⟨rfl, rfl⟩
  · rw [if_neg fun both => open_ (declaring.mp both.2), if_neg open_]
    simp [text, pass]

theorem step_name (bare : w.depth = 0) (ident : p.token.kind = .ident)
    (equals : p.rest.head?.any (·.isPunct "=") = true) :
    (w.step p).length = 1 ∧ (w.step p).placements = [] := by
  have arrow : p.rest.head?.any (·.kind == .arrow) = false := by
    obtain ⟨t, first, mark⟩ := (Option.any_eq_true _ _).mp equals
    rw [first, Option.any_some, Token.kind_of_isPunct mark]
    rfl
  rw [step_of_bare bare, plainStep, ident, identStep, arrow]
  dsimp only
  split
  · unfold rebind
    split <;> exact ⟨rfl, rfl⟩
  · exact ⟨rfl, rfl⟩

end Walk

end Gloss

import Gloss.Proofs.Slots

/-!
# The walk by position

The walk over the host tokens of a file can be followed by position: while a token stands at its
position it makes a step there, which takes up at least that token and none that is not there, and
it goes on after the tokens that it took up (`Outline.Runs`). From any list of tokens it comes to
the end of them in one way (`Outline.runs_iff`). What it reads around a position lies in the file
(`Place.StandsIn`), and all that it places says the truth about a token of the file
(`Placement.Fits`).
-/

namespace Gloss

open Token (Seated)

/-! ## From position to position -/

/-- The place at a position of the host tokens. -/
def Place.ofPosition (us : List Seated) (n : Nat) (inside : n < us.length) : Place where
  number := n
  prev := if n = 0 then none else some us[n - 1]
  token := us[n]
  rest := us.drop (n + 1)

theorem Place.ofPosition_eq {us done rest : List Seated} {t : Seated} {n : Nat}
    (split : us = done ++ t :: rest) (number : n = done.length) (inside : n < us.length) :
    ofPosition us n inside = ⟨n, done.getLast?, t, rest⟩ := by
  subst split number
  have token : (done ++ t :: rest)[done.length] = t := by simp
  have after : (done ++ t :: rest).drop (done.length + 1) = rest := by simp
  rw [ofPosition, token, after]
  rcases List.eq_nil_or_concat done with rfl | ⟨early, u, rfl⟩
  · rfl
  · simp

namespace Outline

/-- The steps from a position on. While a token stands at the position, a step is made there that
goes on at a later position, which is that of a token or the end. -/
inductive Runs (us : List Seated) : Walk → Nat → List Step → Prop
  | done {w : Walk} : Runs us w us.length []
  | step {w : Walk} {n next : Nat} {ss : List Step} (inside : n < us.length) :
    n < next → next ≤ us.length →
    next = n + (w.step (.ofPosition us n inside)).length →
    Runs us (w.step (.ofPosition us n inside)).walk next ss →
    Runs us w n (⟨.ofPosition us n inside, w, w.step (.ofPosition us n inside)⟩ :: ss)

variable {us : List Seated} {w : Walk} {n : Nat}

theorem Runs.unique {ss ss' : List Step} (first : Runs us w n ss) (second : Runs us w n ss') :
    ss = ss' := by
  induction first generalizing ss' with
  | done =>
    cases second with
    | done => rfl
    | step inside => exact absurd inside (Nat.lt_irrefl _)
  | step inside later within same _ ih =>
    cases second with
    | done => exact absurd inside (Nat.lt_irrefl _)
    | step inside' later' within' same' rest =>
      obtain rfl := same.trans same'.symm
      rw [ih rest]

theorem Runs.of_place {ss : List Step} {p : Place} (inside : n < us.length)
    (here : Place.ofPosition us n inside = p) (pos : 0 < (w.step p).length)
    (within : n + (w.step p).length ≤ us.length)
    (rest : Runs us (w.step p).walk (n + (w.step p).length) ss) :
    Runs us w n (⟨p, w, w.step p⟩ :: ss) := by
  subst here
  exact .step inside (Nat.lt_add_of_pos_right pos) within rfl rest

theorem runs_walk (w : Walk) (n : Nat) (prev : Option Seated) (rest : List Seated) :
    ∀ done, us = done ++ rest → n = done.length → prev = done.getLast? →
      Runs us w n (walk w n prev rest) := by
  fun_induction walk w n prev rest with
  | case1 =>
    rintro done rfl rfl -
    rw [List.append_nil]
    exact .done
  | case2 w n prev t rest place stride more ih =>
    rintro done rfl rfl rfl
    obtain ⟨taken, later, split, length⟩ : ∃ taken later, rest = taken ++ later ∧
        stride.length = taken.length + 1 := w.exists_more place
    have count : more = taken.length := by rw [show more = stride.length - 1 from rfl, length]; rfl
    -- before the next step stand the tokens that this one takes up
    have before : done ++ t :: rest = (done ++ t :: taken) ++ later := by rw [split]; simp
    have left : rest.drop more = later := by rw [split, count, List.drop_left]
    have last : place.tokens[more]? = (done ++ t :: taken).getLast? := by
      show (t :: rest)[more]? = _
      rw [split, count, List.getLast?_append_cons, List.getLast?_eq_getElem?, ← List.cons_append,
        List.getElem?_append_left (by simp)]
      rfl
    have inside : done.length < (done ++ t :: rest).length := by simp
    refine .of_place inside (Place.ofPosition_eq rfl rfl inside) (w.step_length_pos place) ?_ ?_
    · show done.length + stride.length ≤ _
      rw [before, length, List.length_append, List.length_append, List.length_cons]
      omega
    · show Runs _ stride.walk (done.length + stride.length) _
      have next : done.length + stride.length = done.length + 1 + more := by omega
      rw [next]
      exact ih (done ++ t :: taken) (by rw [left, before]) (by simp; omega) last

/-- From any host tokens there is one run, and it makes the steps of the walk. -/
theorem runs_iff {ts : List Token} {ss : List Step} :
    Runs (Token.hosts ts) .initial 0 ss ↔ ss = steps ts := by
  have run : Runs (Token.hosts ts) .initial 0 (steps ts) := runs_walk _ _ _ _ [] rfl rfl rfl
  exact ⟨fun other => other.unique run, fun same => same ▸ run⟩

end Outline

/-! ## What stands around a position in the file -/

/-- Where the annotations before the current token start. -/
def Place.start (p : Place) : Nat := p.prev.elim 0 (·.index + 1)

/-- What the walk reads around a position is in the file: the current token is a host token of it,
and between the host token before and this one stand its annotations and nothing else. -/
structure Place.StandsIn (ts : List Token) (p : Place) : Prop where
  inside : p.token.index < ts.length
  start_le : p.start ≤ p.token.index
  gap : (ts.take (p.token.index + 1)).drop p.start = p.token.notes ++ [p.token.toToken]
  notes : ∀ a ∈ p.token.notes, a.isNote = true
  host : p.token.isNote = false

namespace Token

/-- The host tokens after an index. -/
def hostsAfter (ts : List Token) (index : Nat) : List Token :=
  (ts.drop (index + 1)).filter (!·.isNote)

/-- A seat cuts the tokens in two: before it are those up to the host token before and the
annotations of the seat, and after it come the other seats. `base` is where the first annotations
start. -/
theorem exists_cut_of_seatFrom (base : Nat) (notes : List Token) {ts : List Token}
    {xs ys : List Seated} {v : Seated} (all : ∀ a ∈ notes, a.isNote = true)
    (split : seatFrom (base + notes.length) notes ts = xs ++ v :: ys) :
    ∃ before after, notes ++ ts = before ++ (v.notes ++ v.toToken :: after) ∧
      base + before.length = xs.getLast?.elim base (·.index + 1) ∧
      v.index = base + before.length + v.notes.length ∧
      (∀ a ∈ v.notes, a.isNote = true) ∧ v.isNote = false ∧
      ys.map (·.toToken) = after.filter (!·.isNote) := by
  induction ts generalizing base notes xs with
  | nil => simp [seatFrom] at split
  | cons t ts ih =>
    rw [seatFrom] at split
    split at split
    · next note =>
      have all : ∀ a ∈ notes ++ [t], a.isNote = true :=
        List.forall_mem_append.mpr ⟨all, List.forall_mem_singleton.mpr note⟩
      have next : base + notes.length + 1 = base + (notes ++ [t]).length := by simp [Nat.add_assoc]
      rw [next] at split
      have cut := ih base _ all split
      rwa [List.append_assoc, List.singleton_append] at cut
    · next host =>
      cases xs with
      | nil =>
        obtain ⟨rfl, rfl⟩ := List.cons.inj split
        exact ⟨[], ts, rfl, rfl, rfl, all, by simpa using host, map_seatFrom _ _ _⟩
      | cons x xs =>
        obtain ⟨rfl, others⟩ := List.cons.inj split
        obtain ⟨before, after, cut, start, index, rest⟩ :=
          ih (base + notes.length + 1) [] (List.forall_mem_nil _) others
        refine ⟨notes ++ t :: before, after, ?_, ?_, ?_, rest⟩
        · rw [List.append_assoc, List.cons_append, ← cut]
          rfl
        · rw [List.getLast?_cons, Option.elim_some, List.length_append, List.length_cons]
          cases last : xs.getLast? with
          | none =>
            rw [last, Option.elim_none] at start
            rw [Option.getD_none]
            dsimp only
            omega
          | some x =>
            rw [last, Option.elim_some] at start
            rw [Option.getD_some]
            omega
        · rw [index, List.length_append, List.length_cons]
          omega

variable {ts : List Token} {v : Seated} {xs ys : List Seated}

theorem exists_cut_of_hosts (split : hosts ts = xs ++ v :: ys) :
    ∃ before after, ts = before ++ (v.notes ++ v.toToken :: after) ∧
      before.length = xs.getLast?.elim 0 (·.index + 1) ∧
      v.index = before.length + v.notes.length ∧
      (∀ a ∈ v.notes, a.isNote = true) ∧ v.isNote = false ∧
      ys.map (·.toToken) = after.filter (!·.isNote) := by
  obtain ⟨before, after, cut, start, index, rest⟩ :=
    exists_cut_of_seatFrom 0 [] (List.forall_mem_nil _) split
  rw [Nat.zero_add] at start index
  exact ⟨before, after, cut, start, index, rest⟩

/-- A seat with the seats after it, as the file has them. -/
theorem hostsAfter_of_suffix (suffix : v :: ys <:+ hosts ts) :
    ts[v.index]? = some v.toToken ∧ v.isNote = false ∧
      ys.map (·.toToken) = hostsAfter ts v.index := by
  obtain ⟨xs, split⟩ := suffix
  obtain ⟨before, after, rfl, -, index, -, host, rest⟩ := exists_cut_of_hosts split.symm
  rw [← List.append_assoc, index, ← List.length_append]
  refine ⟨by simp, host, ?_⟩
  rw [rest, hostsAfter, List.drop_append, List.drop_eq_nil_of_le (Nat.le_succ _)]
  simp

end Token

theorem Place.standsIn_of_split {ts : List Token} {done rest : List Seated} {t : Seated}
    (split : Token.hosts ts = done ++ t :: rest) (n : Nat) :
    (⟨n, done.getLast?, t, rest⟩ : Place).StandsIn ts := by
  obtain ⟨before, after, rfl, start, index, notes, host, -⟩ := Token.exists_cut_of_hosts split
  have start : Place.start ⟨n, done.getLast?, t, rest⟩ = before.length := start.symm
  refine ⟨?_, ?_, ?_, notes, host⟩
  · show t.index < _
    simp only [List.length_append, List.length_cons]
    omega
  · rw [start]
    show before.length ≤ t.index
    omega
  · rw [start]
    show (List.take (t.index + 1) _).drop before.length = t.notes ++ [t.toToken]
    have whole : before ++ (t.notes ++ t.toToken :: after) =
        (before ++ (t.notes ++ [t.toToken])) ++ after := by simp
    have length : (before ++ (t.notes ++ [t.toToken])).length = t.index + 1 := by
      simp only [List.length_append, List.length_singleton]
      omega
    rw [whole, List.take_left' length, List.drop_left]

/-- Every position of the host tokens is that of a token in the file. -/
theorem Place.ofPosition_standsIn (ts : List Token) (n : Nat)
    (inside : n < (Token.hosts ts).length) :
    (ofPosition (Token.hosts ts) n inside).StandsIn ts := by
  have split : Token.hosts ts = (Token.hosts ts).take n ++
      (Token.hosts ts)[n] :: (Token.hosts ts).drop (n + 1) := by
    rw [← List.drop_eq_getElem_cons inside, List.take_append_drop]
  have number : n = ((Token.hosts ts).take n).length :=
    (List.length_take_of_le (Nat.le_of_lt inside)).symm
  rw [ofPosition_eq split number inside]
  exact standsIn_of_split split n

/-! ## What is placed in the file -/

/-- What is placed says the truth about a token of the file: a site about a host token, and a slot
about an annotation. -/
def Placement.Fits (ts : List Token) : Placement → Prop
  | leading i site => ∃ t, ts[i]? = some t ∧ t.isNote = false ∧
    site.Precedes t (Token.hostsAfter ts i)
  | trailing i site => ∃ t, ts[i]? = some t ∧ t.isNote = false ∧
    site.Follows t (Token.hostsAfter ts i)
  | slot i _ => ∃ t, ts[i]? = some t ∧ t.isNote = true

theorem Placement.FitsIn.fits {ts : List Token} {q : Placement}
    (fits : q.FitsIn (Token.hosts ts)) : q.Fits ts := by
  cases q with
  | leading | trailing =>
    obtain ⟨t, after, suffix, rfl, true_⟩ := fits
    obtain ⟨found, host, rest⟩ := Token.hostsAfter_of_suffix suffix
    exact ⟨t.toToken, found, host, rest ▸ true_⟩
  | slot =>
    obtain ⟨t, held, note⟩ := List.mem_flatMap.mp fits
    exact Token.isNote_of_mem_noteIndices [] (List.forall_mem_nil _) held note

namespace Outline

theorem fits_of_mem {ts : List Token} {q : Placement} (placed : q ∈ (ofTokens ts).placements) :
    q.Fits ts := by
  obtain ⟨s, held, placed⟩ := List.mem_flatMap.mp placed
  rw [stride_of_mem held] at placed
  exact ((s.before.step_fits s.place q placed).mono (tokens_suffix held)).fits

/-- On any list of tokens the walk comes to the end by later and later positions, all of them those
of tokens in the file, and what it places says the truth about a token of the file. So does every
site and every clause that counts in the end. -/
theorem ofTokens_fits (ts : List Token) :
    (∀ ss, Runs (Token.hosts ts) .initial 0 ss ↔ ss = steps ts) ∧
    (∀ n (inside : n < (Token.hosts ts).length),
      (Place.ofPosition (Token.hosts ts) n inside).StandsIn ts) ∧
    (∀ q ∈ (ofTokens ts).placements, q.Fits ts) ∧
    (∀ i site, (ofTokens ts).leading? i = some site → (Placement.leading i site).Fits ts) ∧
    (∀ i site, (ofTokens ts).trailing? i = some site → (Placement.trailing i site).Fits ts) ∧
    ∀ i clause, (ofTokens ts).slot? i = some clause → (Placement.slot i clause).Fits ts :=
  ⟨fun _ => runs_iff, Place.ofPosition_standsIn ts, fun _ => fits_of_mem,
    fun _ _ found => fits_of_mem (mem_of_leading? found),
    fun _ _ found => fits_of_mem (mem_of_trailing? found),
    fun _ _ found => fits_of_mem (mem_of_slot? found)⟩

/-- A file that begins with a closing parenthesis and never closes the class, the parameter list and
the list of names in it. -/
theorem ofTokens_fits_unclosed :
    let ts : List Token := [⟨.punct, ")", ⟨0, 1⟩, 0⟩, ⟨.keyword, "class", ⟨1, 6⟩, 0⟩,
      ⟨.ident, "A", ⟨7, 8⟩, 0⟩, ⟨.punct, "\x7b", ⟨8, 9⟩, 0⟩, ⟨.string, "'m'", ⟨9, 12⟩, 0⟩,
      ⟨.punct, "(", ⟨12, 13⟩, 0⟩, ⟨.ident, "x", ⟨13, 14⟩, 0⟩, ⟨.keyword, "export", ⟨15, 21⟩, 1⟩,
      ⟨.punct, "\x7b", ⟨22, 23⟩, 0⟩, ⟨.ident, "b", ⟨23, 24⟩, 0⟩, ⟨.note 0, "#T", ⟨25, 27⟩, 0⟩,
      ⟨.ident, "as", ⟨28, 30⟩, 0⟩, ⟨.ident, "c", ⟨31, 32⟩, 0⟩]
    Runs (Token.hosts ts) .initial 0 (steps ts) ∧
      (∃ inside, (Place.ofPosition (Token.hosts ts) 10 inside).StandsIn ts) ∧
      (ofTokens ts).leading? 4 = some (.member "A" "m") ∧
      (Placement.leading 4 (.member "A" "m")).Fits ts ∧
      (ofTokens ts).trailing? 6 = some (.param "A.m" 0 "x") ∧
      (Placement.trailing 6 (.param "A.m" 0 "x")).Fits ts ∧
      (ofTokens ts).leading? 9 = some (.exportName "c") ∧
      (Placement.leading 9 (.exportName "c")).Fits ts := by
  intro ts
  obtain ⟨runs, stands, -, leading, trailing, -⟩ := ofTokens_fits ts
  have member : (ofTokens ts).leading? 4 = some (.member "A" "m") := by decide +kernel
  have param : (ofTokens ts).trailing? 6 = some (.param "A.m" 0 "x") := by decide +kernel
  have listed : (ofTokens ts).leading? 9 = some (.exportName "c") := by decide +kernel
  exact ⟨(runs _).mpr rfl, ⟨by decide +kernel, stands 10 _⟩, member, leading _ _ member, param,
    trailing _ _ param, listed, leading _ _ listed⟩

end Outline

end Gloss

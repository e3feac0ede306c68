import Gloss.Proofs.Declarators
import Gloss.Proofs.SiteNames

/-!
# Which tokens have sites

Whatever a step of the walk places is about a token that it has still before it, and that token can
bear it (`Walk.step_bears`): a site before a token needs a name, a site after it a name or the
parenthesis that closes a parameter list. So a full stop, a comma or a brace never has a site
(`Outline.isName_of_leading?`, `Outline.hasSite_of_trailing?`). No token is taken up by two steps,
so what the step that takes it up places about it counts (`Outline.last?_of_taken`).
-/

namespace Gloss

open Token (Seated)

namespace Token

/-- A name, or the parenthesis that closes a parameter list. -/
def hasSite (t : Token) : Bool := t.isName || t.isPunct ")"

end Token

/-- One of some tokens can bear what is placed. -/
def Placement.BorneBy (us : List Seated) : Placement → Prop
  | leading i _ => ∃ t ∈ us, t.index = i ∧ t.isName = true
  | trailing i _ => ∃ t ∈ us, t.index = i ∧ t.hasSite = true
  | slot i _ => i ∈ Token.noteIndices us

theorem Placement.BorneBy.mono {us vs : List Seated} {q : Placement} (borne : q.BorneBy us)
    (sub : us ⊆ vs) : q.BorneBy vs := by
  cases q with
  | leading | trailing =>
    obtain ⟨t, held, rest⟩ := borne
    exact ⟨t, sub held, rest⟩
  | slot => exact Token.noteIndices_subset sub borne

theorem Placement.FitsIn.borneBy {us : List Seated} {q : Placement} (fits : q.FitsIn us) :
    q.BorneBy us := by
  cases q with
  | leading =>
    obtain ⟨t, after, suffix, index, precedes⟩ := fits
    exact ⟨t, suffix.subset (.head _), index, Site.isName_of_precedes precedes⟩
  | trailing =>
    obtain ⟨t, after, suffix, index, follows⟩ := fits
    refine ⟨t, suffix.subset (.head _), index, ?_⟩
    rw [Token.hasSite, Bool.or_eq_true]
    exact Site.isName_of_follows follows
  | slot => exact fits

/-- What a step places is about a token that is left, and that token can bear it. -/
theorem Walk.step_bears (w : Walk) (p : Place) :
    ∀ q ∈ (w.step p).placements, q.BorneBy p.tokens :=
  fun q placed => (w.step_fits p q placed).borneBy

/-! ## The steps of a file -/

namespace Token

variable {ts : List Token} {t v : Seated}

/-- The token of a seat. -/
theorem getElem?_of_mem_hosts (held : v ∈ hosts ts) :
    ts[v.index]? = some v.toToken ∧ v.isNote = false :=
  getElem?_of_mem_seatFrom [] [] held

end Token

namespace Outline

/-- The walk comes to each of its steps over the tokens before it. -/
theorem State.exists_leads_of_mem {a : State} {us : List Seated} {s : Step}
    (held : s ∈ a.steps us) :
    ∃ xs ss b, us = xs ++ s.place.token :: s.place.rest ∧
      Leads (s.place.token :: s.place.rest) a xs ss b ∧ s = b.step s.place.token s.place.rest := by
  induction size : us.length using Nat.strongRecOn generalizing a us with
  | ind n ih =>
  cases us with
  | nil =>
    rw [State.steps_nil] at held
    cases held
  | cons t rest =>
    rw [State.steps_cons] at held
    rcases List.mem_cons.mp held with rfl | held
    · exact ⟨[], [], a, rfl, .done, rfl⟩
    · obtain ⟨more, later, split, length⟩ := a.walk.exists_more (a.place t rest)
      obtain rfl : rest = more ++ later := split
      rw [length, Nat.add_sub_cancel, List.drop_left] at held
      have smaller : later.length < n := by
        rw [← size, List.length_cons, List.length_append]
        omega
      obtain ⟨xs, ss, b, rfl, leads, same⟩ := ih _ smaller held rfl
      exact ⟨t :: (more ++ xs), _, b, by simp, .step length leads, same⟩

theorem exists_leads_of_mem {ts : List Token} {s : Step} (held : s ∈ steps ts) :
    ∃ xs ss b, Token.hosts ts = xs ++ s.place.token :: s.place.rest ∧
      Leads (s.place.token :: s.place.rest) ⟨.initial, 0, none⟩ xs ss b ∧
      s = b.step s.place.token s.place.rest ∧
      steps ts = ss ++ s :: (b.next s.place.token s.place.rest).steps
        (s.place.rest.drop (s.stride.length - 1)) := by
  have held : s ∈ State.steps ⟨.initial, 0, none⟩ (Token.hosts ts) := held
  obtain ⟨xs, ss, b, hosts, leads, same⟩ := State.exists_leads_of_mem held
  refine ⟨xs, ss, b, hosts, leads, same, ?_⟩
  have stride : s.stride = b.walk.step (b.place s.place.token s.place.rest) :=
    congrArg Step.stride same
  have split := leads.steps_eq
  rw [← hosts, State.steps_cons, ← same, ← stride] at split
  exact split

theorem Leads.taken_subset {tail us : List Seated} {a b : State} {ss : List Step}
    (leads : Leads tail a us ss b) :
    ∀ s ∈ ss, s.place.tokens.take s.stride.length ⊆ us := by
  induction leads with
  | done => exact List.forall_mem_nil _
  | @step a b t more us ss length _ ih =>
    refine List.forall_mem_cons.mpr ⟨?_, fun s held => ?_⟩
    · show (t :: (more ++ (us ++ tail))).take _ ⊆ _
      rw [State.step, length, List.take_succ_cons, List.take_left]
      exact List.cons_subset_cons t (List.subset_append_left more us)
    · exact List.subset_cons_of_subset t (List.subset_append_of_subset_right more (ih s held))

section Last

variable {α : Type} (pick : Placement → Option α)

/-- The last step that says something counts. -/
theorem last?_flatMap (ss : List Step) :
    (⟨ss.flatMap (·.stride.placements)⟩ : Outline).last? pick =
      ss.reverse.findSome? fun s => (⟨s.stride.placements⟩ : Outline).last? pick := by
  induction ss with
  | nil => rfl
  | cons s ss ih =>
    rw [last?] at ih ⊢
    rw [List.flatMap_cons, List.reverse_append, List.findSome?_append, ih, List.reverse_cons,
      List.findSome?_append, List.findSome?_singleton]
    rfl

theorem last?_of_split {ts : List Token} {ss ss' : List Step} {s : Step}
    (whole : steps ts = ss ++ s :: ss')
    (late : ∀ s' ∈ ss', (⟨s'.stride.placements⟩ : Outline).last? pick = none) :
    (ofTokens ts).last? pick = ((⟨s.stride.placements⟩ : Outline).last? pick).or
      ((⟨ss.flatMap (·.stride.placements)⟩ : Outline).last? pick) := by
  have silent := List.findSome?_eq_none_iff.mpr fun s' held' =>
    late s' (List.mem_reverse.mp held')
  rw [ofTokens, last?_flatMap, last?_flatMap, whole, List.reverse_append, List.reverse_cons,
    List.findSome?_append, List.findSome?_append, List.findSome?_singleton, silent, Option.none_or]

end Last

section Steps

variable {ts : List Token} {s : Step} (held : s ∈ steps ts)
include held

theorem stride_of_mem : s.stride = s.before.step s.place := by
  obtain ⟨xs, ss, b, -, -, same, -⟩ := exists_leads_of_mem held
  rw [same]
  rfl

theorem tokens_suffix : s.place.tokens <:+ Token.hosts ts := by
  obtain ⟨xs, ss, b, hosts, -⟩ := exists_leads_of_mem held
  exact ⟨xs, hosts.symm⟩

/-- What a step places is about a token that is left, and that token can bear it. -/
theorem bears_of_mem : ∀ q ∈ s.stride.placements, q.BorneBy s.place.tokens := by
  rw [stride_of_mem held]
  exact s.before.step_bears s.place

/-- A step takes up its own token. -/
theorem token_mem_taken : s.place.token ∈ s.place.tokens.take s.stride.length := by
  have pos : 0 < s.stride.length := stride_of_mem held ▸ s.before.step_length_pos s.place
  rw [Place.tokens, ← Nat.sub_add_cancel pos, List.take_succ_cons]
  exact .head _

/-- No token is taken up twice. -/
theorem exists_taken {v : Seated} (member : v ∈ s.place.tokens.take s.stride.length) :
    ∃ ss ss', steps ts = ss ++ s :: ss' ∧
      (∀ s' ∈ ss, v ∉ s'.place.tokens.take s'.stride.length) ∧ ∀ s' ∈ ss', v ∉ s'.place.tokens := by
  obtain ⟨xs, ss, b, hosts, leads, -, whole⟩ := exists_leads_of_mem held
  have pos : 0 < s.stride.length := stride_of_mem held ▸ s.before.step_length_pos s.place
  have nodup : (Token.hosts ts).Nodup :=
    List.Pairwise.imp (fun less => ne_of_apply_ne _ (Nat.ne_of_lt less)) (Token.pairwise_hosts ts)
  rw [Place.tokens, ← Nat.sub_add_cancel pos, List.take_succ_cons] at member
  rw [hosts, ← List.take_append_drop (s.stride.length - 1) s.place.rest, ← List.cons_append]
    at nodup
  obtain ⟨-, inner, early⟩ := List.nodup_append.mp nodup
  obtain ⟨-, -, late⟩ := List.nodup_append.mp inner
  refine ⟨ss, _, whole, fun s' held' twice => ?_, fun s' held' twice => ?_⟩
  · exact early v (leads.taken_subset s' held' twice) v (List.mem_append_left _ member) rfl
  · obtain ⟨ys, ss', c, split, -⟩ := State.exists_leads_of_mem held'
    exact late v member v (split ▸ List.mem_append_right ys twice) rfl

/-- What a step places about a token that it takes up counts: no later step is about this token. -/
theorem last?_of_taken {α : Type} {v : Seated}
    (member : v ∈ s.place.tokens.take s.stride.length) {pick : Placement → Option α} {a : α}
    (placed : (⟨s.stride.placements⟩ : Outline).last? pick = some a)
    (about : ∀ q a, pick q = some a → q.host? = some v.index) :
    (ofTokens ts).last? pick = some a := by
  obtain ⟨ss, ss', whole, -, late⟩ := exists_taken held member
  have silent (s' : Step) (held' : s' ∈ ss') :
      (⟨s'.stride.placements⟩ : Outline).last? pick = none := by
    by_contra some_
    obtain ⟨a, found⟩ := Option.ne_none_iff_exists'.mp some_
    obtain ⟨q, placed', gives⟩ := exists_of_last? found
    have host := about q a gives
    have known : s' ∈ steps ts := whole ▸ List.mem_append_right _ (.tail _ held')
    have borne := bears_of_mem known q placed'
    cases q with
    | leading | trailing =>
      obtain ⟨t, member', index, -⟩ := borne
      have same : t = v := Token.eq_of_index ((tokens_suffix known).subset member')
        ((tokens_suffix held).subset (List.mem_of_mem_take member))
        (index.trans (Option.some.inj host))
      exact late s' held' (same ▸ member')
    | slot => cases host
  rw [last?_of_split pick whole silent, placed, Option.some_or]

end Steps

/-- The seats of a list ascend, so its tokens before one of them are those with a smaller index. -/
theorem takeWhile_index {vs ws : List Seated} {t : Seated}
    (ascending : (vs ++ t :: ws).Pairwise (fun t u => t.index < u.index)) :
    (vs ++ t :: ws).takeWhile (·.index < t.index) = vs := by
  obtain ⟨-, -, early⟩ := List.pairwise_append.mp ascending
  rw [List.takeWhile_append_of_pos (fun u held => decide_eq_true (early u held t (.head _))),
    List.takeWhile_cons_of_neg (by simp), List.append_nil]

/-- A step has before it the seats from its token on. -/
theorem exists_seats_of_mem {before us : List Token} {t : Token} (host : t.isNote = false)
    {s : Step} (held : s ∈ steps (before ++ t :: us))
    (here : s.place.token.index = before.length) :
    ∃ notes, s.place.tokens =
      ⟨t, before.length, notes⟩ :: Token.seatFrom (before.length + 1) [] us := by
  obtain ⟨xs, -, -, hosts, -⟩ := exists_leads_of_mem held
  obtain ⟨notes, -, split⟩ := Token.seatFrom_append 0 [] before (t :: us)
  rw [Nat.zero_add, Token.seatFrom_cons_host host] at split
  have split : Token.hosts (before ++ t :: us) = _ := split
  have ascending := Token.pairwise_hosts (before ++ t :: us)
  have first := takeWhile_index (hosts ▸ ascending)
  have second := takeWhile_index (split ▸ ascending)
  rw [here, ← hosts, split] at first
  have same : xs = Token.seatFrom 0 [] before := first.symm.trans second
  rw [split, ← same] at hosts
  exact ⟨notes, (List.append_cancel_left hosts).symm⟩

section Found

variable {ts : List Token} {i : Nat} {site : Site}

theorem mem_of_leading? {o : Outline} (found : o.leading? i = some site) :
    .leading i site ∈ o.placements := by
  obtain ⟨q, placed, gives⟩ := exists_of_last? found
  exact Placement.eq_of_siteBefore? gives ▸ placed

theorem mem_of_trailing? {o : Outline} (found : o.trailing? i = some site) :
    .trailing i site ∈ o.placements := by
  obtain ⟨q, placed, gives⟩ := exists_of_last? found
  exact Placement.eq_of_siteAfter? gives ▸ placed

/-- What is placed is about a host token that can bear it. -/
theorem borneBy_of_mem {q : Placement} (placed : q ∈ (ofTokens ts).placements) :
    q.BorneBy (Token.hosts ts) := by
  obtain ⟨s, held, placed⟩ := List.mem_flatMap.mp placed
  exact (bears_of_mem held q placed).mono (tokens_suffix held).subset

/-- A token with a site before it is a name. -/
theorem isName_of_leading? (found : (ofTokens ts).leading? i = some site) :
    ∃ t ∈ Token.hosts ts, t.index = i ∧ t.isName = true :=
  borneBy_of_mem (mem_of_leading? found)

/-- A token with a site after it is a name or a closing parenthesis. -/
theorem hasSite_of_trailing? (found : (ofTokens ts).trailing? i = some site) :
    ∃ t ∈ Token.hosts ts, t.index = i ∧ t.hasSite = true :=
  borneBy_of_mem (mem_of_trailing? found)

end Found

end Outline

end Gloss

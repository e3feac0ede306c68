import Gloss.Analysis
import Gloss.Proofs.Slots

/-!
# What an annotation sees around it

An annotation is bound by what stands around it; only in a list its payload plays a part
(`Attachment.bind_eq`). Annotations in a row see the same (`Attachment.alike_of_row`), so they are
bound alike (`Attachment.exists_bound_of_row`). The search for what an annotation precedes passes
over the words for modifiers by their text. So it also passes over a declared name with such a text
(`Attachment.bind_leading_iff`).
-/

namespace Gloss

open Token (Seated)

namespace Attachment

/-- The setting of a token of a file. -/
def Setting.around (before : List Token) (t : Token) (after : List Token) : Setting :=
  ⟨before.reverse, t, after, before.length⟩

/-- What the surroundings of an annotation say about its target, for each payload, and the rule. -/
def answer (o : Outline) (s : Setting) : (String → Target) × Rule :=
  match s.trailingSite? o with
  | some site => (fun _ => site.target, .trailing)
  | none =>
    if isIsolated s.after then (fun _ => .moduleScope, .isolated)
    else
      match o.slot? s.index with
      | some clause => (clause.target, .listSlot)
      | none =>
        match s.leadingSite? o with
        | some site => (fun _ => site.target, .leading)
        | none => (fun _ => .moduleScope, .fallback)

theorem bind_eq (o : Outline) (s : Setting) {a : Note} (plain : a.form ≠ .hashbang) :
    bind o s a = ((answer o s).1 a.payload, (answer o s).2) := by
  rw [bind, answer, if_neg plain]
  cases s.trailingSite? o with
  | some site => rfl
  | none =>
    dsimp only
    split_ifs
    · rfl
    · cases o.slot? s.index with
      | some clause => rfl
      | none => cases s.leadingSite? o <;> rfl

/-- Only in a list the target depends on the payload, and then it is that of a clause. -/
theorem answer_cases (o : Outline) (s : Setting) :
    (∃ target, (answer o s).1 = fun _ => target) ∧ (answer o s).2 ≠ .listSlot ∨
      (∃ clause : Clause, (answer o s).1 = fun payload => clause.target payload) ∧
        (answer o s).2 = .listSlot := by
  unfold answer
  split
  · exact .inl ⟨⟨_, rfl⟩, by simp⟩
  split
  · exact .inl ⟨⟨_, rfl⟩, by simp⟩
  split
  · exact .inr ⟨⟨_, rfl⟩, rfl⟩
  split
  · exact .inl ⟨⟨_, rfl⟩, by simp⟩
  · exact .inl ⟨⟨_, rfl⟩, by simp⟩

/-! ## Annotations in a row -/

/-- Two annotations have the same surroundings. -/
structure Setting.Alike (o : Outline) (s s' : Setting) : Prop where
  trailing : s.trailingSite? o = s'.trailingSite? o
  isolated : isIsolated s.after = isIsolated s'.after
  slot : o.slot? s.index = o.slot? s'.index
  leading : s.leadingSite? o = s'.leadingSite? o

theorem Setting.Alike.trans {o : Outline} {s s' s'' : Setting} (first : s.Alike o s')
    (second : s'.Alike o s'') : s.Alike o s'' where
  trailing := first.trailing.trans second.trailing
  isolated := first.isolated.trans second.isolated
  slot := first.slot.trans second.slot
  leading := first.leading.trans second.leading

theorem answer_eq_of_alike {o : Outline} {s s' : Setting} (alike : s.Alike o s') :
    answer o s = answer o s' := by
  rw [answer, answer, alike.trailing, alike.isolated, alike.slot, alike.leading]

section Row

variable {before after : List Token} {t u : Token} (note : t.isNote = true)
  (note' : u.isNote = true) (line : u.newlinesBefore = 0)
include note note' line

/-- Two annotations next to each other on one line have the same surroundings. -/
theorem alike_of_next :
    (Setting.around before t (u :: after)).Alike (.ofTokens (before ++ t :: u :: after))
      (.around (before ++ [t]) u after) where
  trailing := by
    have back : preceding? (before.length + 1) u (t :: before.reverse) =
        preceding? before.length t before.reverse := by
      rw [preceding?, line, if_neg (Nat.lt_irrefl 0), if_pos note, Nat.add_sub_cancel]
    simp [Setting.trailingSite?, Setting.around, back]
  isolated := by
    show isIsolated (u :: after) = isIsolated after
    rw [isIsolated, line, if_neg (by decide), if_pos note']
  slot := by
    have first : (before ++ t :: u :: after)[before.length]? = some t := by simp
    have second : (before ++ t :: u :: after)[before.length + 1]? = some u := by
      simp
    simpa [Setting.around] using Outline.slot?_succ first second note note'
  leading := by
    have onward : following? (before.length + 1) (u :: after) =
        following? (before.length + 2) after := by
      rw [following?, note', Bool.true_or, Bool.true_or, if_pos rfl]
    simp [Setting.leadingSite?, Setting.around, onward]

end Row

/-- All annotations of a row on one line have the same surroundings. -/
theorem alike_of_row (before : List Token) {t : Token} (xs : List Token) {u : Token}
    (ys : List Token) (notes : ∀ v ∈ t :: (xs ++ [u]), v.isNote = true)
    (line : ∀ v ∈ xs ++ [u], v.newlinesBefore = 0) :
    (Setting.around before t (xs ++ u :: ys)).Alike (.ofTokens (before ++ t :: (xs ++ u :: ys)))
      (.around (before ++ t :: xs) u ys) := by
  induction xs generalizing before t with
  | nil => exact alike_of_next (notes t (.head _)) (notes u (by simp)) (line u (by simp))
  | cons v xs ih =>
    obtain ⟨note, notes⟩ := List.forall_mem_cons.mp notes
    obtain ⟨first, line⟩ := List.forall_mem_cons.mp line
    have next : (Setting.around before t (v :: (xs ++ u :: ys))).Alike _ _ :=
      alike_of_next note (notes v (.head _)) first
    have later := ih (before ++ [t]) notes line
    simp only [List.append_assoc, List.cons_append] at later ⊢
    exact next.trans later

/-- The annotations of a row on one line are bound alike: by one rule and to one target, or as names
for one clause. -/
theorem exists_bound_of_row {before row after : List Token} (notes : ∀ t ∈ row, t.isNote = true)
    (line : ∀ t ∈ row.tail, t.newlinesBefore = 0) :
    ∃ (target : String → Target) (rule : Rule),
      (if rule = .listSlot then ∃ clause : Clause, target = fun payload => clause.target payload
        else ∃ one, target = fun _ => one) ∧
      ∀ xs t ys, row = xs ++ t :: ys → ∀ a : Note, a.form ≠ .hashbang →
        bind (.ofTokens (before ++ row ++ after)) (.around (before ++ xs) t (ys ++ after)) a =
          (target a.payload, rule) := by
  cases row with
  | nil => exact ⟨fun _ => .moduleScope, .fallback, ⟨_, rfl⟩, fun xs t ys none_ => by simp at none_⟩
  | cons first row =>
    let o := Outline.ofTokens (before ++ first :: row ++ after)
    have same (xs : List Token) (t : Token) (ys : List Token)
        (split : first :: row = xs ++ t :: ys) :
        answer o (.around before first (row ++ after)) =
          answer o (.around (before ++ xs) t (ys ++ after)) := by
      cases xs with
      | nil =>
        obtain ⟨rfl, rfl⟩ := List.cons.inj split
        rw [List.append_nil]
      | cons v xs =>
        obtain ⟨rfl, rfl⟩ := List.cons.inj split
        have sub : xs ++ [t] ⊆ xs ++ t :: ys := by
          rw [List.append_cons xs t ys]
          exact List.subset_append_left _ _
        have alike := alike_of_row (t := first) (u := t) before xs (ys ++ after)
          (fun v held => notes v (List.cons_subset_cons first sub held))
          fun v held => line v (sub held)
        simpa [o] using answer_eq_of_alike alike
    refine ⟨(answer o (.around before first (row ++ after))).1,
      (answer o (.around before first (row ++ after))).2, ?_, fun xs t ys split a plain => ?_⟩
    · rcases answer_cases o (.around before first (row ++ after)) with
        ⟨one, other⟩ | ⟨clause, list⟩
      · rwa [if_neg other]
      · rwa [if_pos list]
    · rw [bind_eq _ _ plain, same xs t ys split]

/-- The two annotations of a slot name two specifiers of one clause. -/
theorem exists_bound_of_row_list :
    let ts := (Reading.ofSource .hash "export \x7b #A #B, c \x7d").tokens
    let row := (ts.drop 2).take 2
    (∀ t ∈ row, t.isNote = true) ∧ (∀ t ∈ row.tail, t.newlinesBefore = 0) ∧ row.length = 2 ∧
      ∃ (target : String → Target) (rule : Rule),
        (if rule = .listSlot then ∃ clause : Clause, target = fun payload => clause.target payload
          else ∃ one, target = fun _ => one) ∧
        ∀ xs t ys, row = xs ++ t :: ys → ∀ a : Note, a.form ≠ .hashbang →
          bind (.ofTokens (ts.take 2 ++ row ++ ts.drop 4))
            (.around (ts.take 2 ++ xs) t (ys ++ ts.drop 4)) a = (target a.payload, rule) := by
  intro ts row
  have notes : ∀ t ∈ row, t.isNote = true := by decide +kernel
  have line : ∀ t ∈ row.tail, t.newlinesBefore = 0 := by decide +kernel
  exact ⟨notes, line, by decide +kernel, exists_bound_of_row notes line⟩

/-! ## An annotation after a separator -/

/-- The search for what an annotation follows ends at the host token before it or at a line feed. -/
theorem preceding?_append {between : List Token} (notes : ∀ u ∈ between, u.isNote = true)
    {h : Token} (host : h.isNote = false) (index : Nat) (t : Token) (more : List Token) :
    preceding? index t (between ++ h :: more) = none ∨
      preceding? index t (between ++ h :: more) = some (index - between.length - 1) := by
  induction between generalizing index t with
  | nil =>
    rw [List.nil_append, preceding?, host]
    split
    · exact .inl rfl
    · exact .inr rfl
  | cons u between ih =>
    obtain ⟨note, notes⟩ := List.forall_mem_cons.mp notes
    rw [List.cons_append, preceding?, note, if_pos rfl, List.length_cons]
    split
    · exact .inl rfl
    · rw [show index - (between.length + 1) - 1 = index - 1 - between.length - 1 by omega]
      exact ih notes (index - 1) u

/-- After a token that never has a site, no site is found. -/
theorem trailingSite?_eq_none {before between after : List Token} {h t : Token}
    (notes : ∀ u ∈ between, u.isNote = true) (host : h.isNote = false) (bare : h.hasSite = false) :
    (Setting.around (before ++ h :: between) t after).trailingSite?
      (.ofTokens (before ++ h :: (between ++ t :: after))) = none := by
  have notes : ∀ u ∈ between.reverse, u.isNote = true := by simpa using notes
  have length : (before ++ h :: between).length - between.reverse.length - 1 = before.length := by
    simp only [List.length_append, List.length_cons, List.length_reverse]
    omega
  rw [Setting.trailingSite?, Setting.around, List.reverse_append, List.reverse_cons,
    List.append_assoc, List.singleton_append]
  rcases preceding?_append notes host (before ++ h :: between).length t before.reverse with
    none_ | some_
  · rw [none_]
    rfl
  · rw [some_, length, Option.bind_some]
    by_contra found
    obtain ⟨site, found⟩ := Option.ne_none_iff_exists'.mp found
    obtain ⟨u, held, index, bears⟩ := Outline.hasSite_of_trailing? found
    have here := (Token.getElem?_of_mem_hosts held).1
    rw [index, List.getElem?_append_right (Nat.le_refl _), Nat.sub_self] at here
    rw [← Option.some.inj here, bare] at bears
    cases bears

/-- In a slot, an annotation that nothing else claims names what the clause lists. -/
theorem bind_listSlot {o : Outline} {s : Setting} {a : Note} {clause : Clause}
    (plain : a.form ≠ .hashbang) (alone : s.trailingSite? o = none)
    (near : isIsolated s.after = false) (slot : o.slot? s.index = some clause) :
    bind o s a = (clause.target a.payload, .listSlot) := by
  rw [bind, if_neg plain, alone, near, slot]
  rfl

/-! ## An annotation before a name -/

/-- The search for what an annotation precedes passes over annotations. -/
theorem following?_append {between : List Token} (notes : ∀ u ∈ between, u.isNote = true)
    (index : Nat) (rest : List Token) :
    following? index (between ++ rest) = following? (index + between.length) rest := by
  induction between generalizing index with
  | nil => rfl
  | cons u between ih =>
    obtain ⟨note, notes⟩ := List.forall_mem_cons.mp notes
    rw [List.cons_append, following?, note, Bool.true_or, Bool.true_or, if_pos rfl, ih notes,
      List.length_cons, Nat.add_assoc, Nat.add_comm 1]

/-- Where nothing else claims an annotation, it is bound to the name after it exactly when this name
does not read like a modifier, or what follows instead happens to give the same target. -/
theorem bind_leading_iff {before between rest : List Token} {t next : Token}
    (notes : ∀ u ∈ between, u.isNote = true) (host : next.isNote = false) {a : Note}
    (plain : a.form ≠ .hashbang) {o : Outline}
    (outline : o = .ofTokens (before ++ t :: (between ++ next :: rest)))
    (alone : (Setting.around before t (between ++ next :: rest)).trailingSite? o = none)
    (near : isIsolated (between ++ next :: rest) = false) (free : o.slot? before.length = none)
    {site : Site} (leads : o.leading? (before.length + 1 + between.length) = some site) :
    bind o (.around before t (between ++ next :: rest)) a = (site.target, .leading) ↔
      isLeadingModifier next = false ∨
        ∃ other, (following? (before.length + 1 + between.length + 1) rest).bind o.leading? =
          some other ∧ other.target = site.target := by
  have seat : (before ++ t :: (between ++ next :: rest))[before.length + 1 + between.length]? =
      some next := by
    have length : (before ++ t :: between).length = before.length + 1 + between.length := by
      rw [List.length_append, List.length_cons]
      omega
    rw [← length, ← List.cons_append, ← List.append_assoc]
    simp
  have name : next.isName = true := by
    obtain ⟨u, held, index, name⟩ := Outline.isName_of_leading? (outline ▸ leads)
    have here := (Token.getElem?_of_mem_hosts held).1
    rw [index, seat] at here
    exact Option.some.inj here ▸ name
  have found : (Setting.around before t (between ++ next :: rest)).leadingSite? o =
      if isLeadingModifier next = true then
        (following? (before.length + 1 + between.length + 1) rest).bind o.leading?
      else some site := by
    show (following? (before.length + 1) (between ++ next :: rest)).bind o.leading? = _
    rw [following?_append notes, following?, host,
      Token.isPunct_eq_false (Token.ne_punct_of_isName name), Bool.false_or, Bool.false_or]
    split
    · rfl
    · exact leads
  have bound : bind o (.around before t (between ++ next :: rest)) a =
      match (Setting.around before t (between ++ next :: rest)).leadingSite? o with
      | some site => (site.target, .leading)
      | none => (.moduleScope, .fallback) := by
    have slot : o.slot? (Setting.around before t (between ++ next :: rest)).index = none := free
    have after : isIsolated (Setting.around before t (between ++ next :: rest)).after = false :=
      near
    rw [bind, if_neg plain, alone, slot, after]
    rfl
  rw [bound, found]
  cases modifier : isLeadingModifier next with
  | false => simp
  | true =>
    rw [if_pos rfl]
    cases (following? (before.length + 1 + between.length + 1) rest).bind o.leading? with
    | none => simp
    | some other => simp

/-- In `let #T x = 1` the name is no modifier, and the annotation is bound to it. -/
theorem bind_leading_iff_let :
    let next : Token := ⟨.ident, "x", ⟨7, 8⟩, 0⟩
    let rest : List Token := [⟨.punct, "=", ⟨9, 10⟩, 0⟩, ⟨.number, "1", ⟨11, 12⟩, 0⟩]
    let before : List Token := [⟨.keyword, "let", ⟨0, 3⟩, 0⟩]
    let t : Token := ⟨.note 0, "#T", ⟨4, 6⟩, 0⟩
    let a : Note := ⟨⟨4, 6⟩, .word, "T", ⟨5, 6⟩, none⟩
    let o := Outline.ofTokens (before ++ t :: next :: rest)
    (Setting.around before t (next :: rest)).trailingSite? o = none ∧
      isIsolated (next :: rest) = false ∧ o.slot? 1 = none ∧
      o.leading? 2 = some (.declarator "x") ∧ isLeadingModifier next = false ∧
      bind o (.around before t (next :: rest)) a = (.variable "x", .leading) := by
  intro next rest before t a o
  have alone : (Setting.around before t (next :: rest)).trailingSite? o = none := by decide +kernel
  have near : isIsolated (next :: rest) = false := by decide +kernel
  have free : o.slot? 1 = none := by decide +kernel
  have leads : o.leading? 2 = some (.declarator "x") := by decide +kernel
  have plain : isLeadingModifier next = false := by decide +kernel
  have nothing : ∀ u ∈ ([] : List Token), u.isNote = true := List.forall_mem_nil _
  refine ⟨alone, near, free, leads, plain, ?_⟩
  exact (bind_leading_iff nothing rfl (by decide) rfl alone near free leads).mpr (.inl plain)

/-- In `let #T get = 1` the name reads like a modifier. The annotation is bound to nothing, although
nothing else claims it and the name is a declarator. -/
theorem bind_fallback_of_modifier_name :
    let next : Token := ⟨.ident, "get", ⟨7, 10⟩, 0⟩
    let rest : List Token := [⟨.punct, "=", ⟨11, 12⟩, 0⟩, ⟨.number, "1", ⟨13, 14⟩, 0⟩]
    let before : List Token := [⟨.keyword, "let", ⟨0, 3⟩, 0⟩]
    let t : Token := ⟨.note 0, "#T", ⟨4, 6⟩, 0⟩
    let a : Note := ⟨⟨4, 6⟩, .word, "T", ⟨5, 6⟩, none⟩
    let o := Outline.ofTokens (before ++ t :: next :: rest)
    (Reading.ofSource .hash "let #T get = 1").tokens = before ++ t :: next :: rest ∧
      (Reading.ofSource .hash "let #T get = 1").notes = [a] ∧
      (Setting.around before t (next :: rest)).trailingSite? o = none ∧
      isIsolated (next :: rest) = false ∧ o.slot? 1 = none ∧
      o.leading? 2 = some (.declarator "get") ∧
      bind o (.around before t (next :: rest)) a = (.moduleScope, .fallback) := by
  decide +kernel

end Attachment

end Gloss

import Gloss.Proofs.Sites

/-!
# Annotations in slots

An annotation belongs to the seat of the next host token: its index is among those of a seat exactly
when only annotations stand between them (`Token.mem_noteIndices_iff`). A step puts all annotations
of some of its own seats in slots, all of one clause (`Walk.step_slots`), so what the outline says
of an annotation is said by the step over its seat (`Outline.slot?_of_taken`).
-/

namespace Gloss

open Token (Seated)

/-! ## The annotations of a seat -/

namespace Token

theorem mem_noteIndices_of_seatFrom (done notes : List Token) {ts : List Token} {v : Seated}
    {i : Nat}
    (host : ∀ t, done.getLast? = some t → t.isNote = false) (all : ∀ a ∈ notes, a.isNote = true)
    (held : v ∈ seatFrom (done ++ notes).length notes ts) :
    i ∈ v.noteIndices ↔ i < v.index ∧
      ∀ k t, i ≤ k → k < v.index → (done ++ notes ++ ts)[k]? = some t → t.isNote = true := by
  induction ts generalizing done notes with
  | nil => cases held
  | cons u ts ih =>
    rw [seatFrom] at held
    split at held
    · next note =>
      have all : ∀ a ∈ notes ++ [u], a.isNote = true :=
        List.forall_mem_append.mpr ⟨all, List.forall_mem_singleton.mpr note⟩
      have later := ih done (notes ++ [u]) host all (by simpa [Nat.add_assoc] using held)
      simpa using later
    · next other =>
      rcases List.mem_cons.mp held with rfl | held
      · rw [Seated.noteIndices, List.mem_range'_1]
        dsimp only
        rw [List.length_append, Nat.add_sub_cancel]
        constructor
        · rintro ⟨low, high⟩
          refine ⟨high, fun k t after before found => all t ?_⟩
          rw [List.append_assoc, List.getElem?_append_right (by omega),
            List.getElem?_append_left (by omega)] at found
          exact List.mem_of_getElem? found
        · rintro ⟨high, between⟩
          refine ⟨Nat.not_lt.mp fun low => ?_, high⟩
          -- the last token before the annotations of a seat is none itself
          rcases List.eq_nil_or_concat done with rfl | ⟨early, t, rfl⟩
          · exact absurd low (Nat.not_lt_zero i)
          · rw [List.length_concat] at low high between
            have note := between early.length t (by omega) (by omega) (by simp)
            rw [host t (by simp)] at note
            cases note
      · have last : ∀ t, (done ++ notes ++ [u]).getLast? = some t → t.isNote = false := by
          intro t last
          rw [List.getLast?_concat] at last
          obtain rfl := Option.some.inj last
          simpa using other
        have later := ih (done ++ notes ++ [u]) [] last (List.forall_mem_nil _)
          (by simpa [Nat.add_assoc] using held)
        simpa using later

/-- The annotations of a seat are those with nothing but annotations between them and its token. -/
theorem mem_noteIndices_iff {ts : List Token} {v : Seated} (held : v ∈ hosts ts) {i : Nat} :
    i ∈ v.noteIndices ↔ i < v.index ∧
      ∀ k t, i ≤ k → k < v.index → ts[k]? = some t → t.isNote = true :=
  mem_noteIndices_of_seatFrom [] [] (by simp) (List.forall_mem_nil _) held

variable {ts : List Token} {t v : Seated} {i : Nat}

/-- No annotation belongs to two seats. -/
theorem eq_of_mem_noteIndices (first : t ∈ hosts ts) (second : v ∈ hosts ts)
    (held : i ∈ t.noteIndices) (held' : i ∈ v.noteIndices) : t = v := by
  obtain ⟨before, between⟩ := (mem_noteIndices_iff first).mp held
  obtain ⟨before', between'⟩ := (mem_noteIndices_iff second).mp held'
  obtain ⟨here, host⟩ := getElem?_of_mem_hosts first
  obtain ⟨here', host'⟩ := getElem?_of_mem_hosts second
  have same : t.index = v.index := by
    rcases Nat.lt_trichotomy t.index v.index with less | same | more
    · have note := between' t.index _ (Nat.le_of_lt before) less here
      rw [host] at note
      cases note
    · exact same
    · have note := between v.index _ (Nat.le_of_lt before') more here'
      rw [host'] at note
      cases note
  exact eq_of_index first second same

/-- Two annotations next to each other belong to one seat. -/
theorem mem_noteIndices_succ {a b : Token} (first : ts[i]? = some a) (second : ts[i + 1]? = some b)
    (note : a.isNote = true) (note' : b.isNote = true) (held : v ∈ hosts ts) :
    i ∈ v.noteIndices ↔ i + 1 ∈ v.noteIndices := by
  obtain ⟨here, host⟩ := getElem?_of_mem_hosts held
  rw [mem_noteIndices_iff held, mem_noteIndices_iff held]
  constructor
  · rintro ⟨before, between⟩
    refine ⟨?_, fun k t low => between k t (Nat.le_of_succ_le low)⟩
    rcases Nat.lt_or_eq_of_le before with less | same
    · exact less
    · rw [← same, second] at here
      rw [← Option.some.inj here, note'] at host
      cases host
  · rintro ⟨before, between⟩
    refine ⟨Nat.lt_of_succ_lt before, fun k t low high found => ?_⟩
    rcases Nat.lt_or_eq_of_le low with less | rfl
    · exact between k t less high found
    · rw [first] at found
      exact Option.some.inj found ▸ note

end Token

/-! ## What a step puts in slots -/

namespace Outline

variable {o : Outline} {i : Nat} {clause : Clause}

theorem mem_of_slot? (found : o.slot? i = some clause) : .slot i clause ∈ o.placements := by
  obtain ⟨q, held, here⟩ := exists_of_last? found
  exact Placement.eq_of_slotAt? here ▸ held

/-- Where all that is said is the same, it counts. -/
theorem last?_of_only {α : Type} {pick : Placement → Option α} {q : Placement} {a : α}
    (held : q ∈ o.placements) (gives : pick q = some a)
    (only : ∀ q ∈ o.placements, ∀ b, pick q = some b → b = a) : o.last? pick = some a := by
  obtain ⟨b, found⟩ : ∃ b, o.last? pick = some b := by
    rw [← Option.isSome_iff_exists, last?, List.findSome?_isSome_iff]
    exact ⟨q, List.mem_reverse.mpr held, by rw [gives, Option.isSome_some]⟩
  obtain ⟨q', held', gives'⟩ := exists_of_last? found
  rw [found, only q' held' b gives']

end Outline

theorem Clause.mem_place {site : String → Site} {clause : Clause} {specifiers : List Specifier}
    {slots : List Nat} {q : Placement} :
    q ∈ place site clause specifiers slots ↔
      (∃ s ∈ specifiers, q = .leading s.first (site s.name) ∨ q = .trailing s.last (site s.name)) ∨
        ∃ i ∈ slots, q = .slot i clause := by
  simp [place, Specifier.placements, eq_comm]

/-- A clause puts annotations in slots of its own. -/
theorem Clause.slot?_place {site : String → Site} {clause : Clause} {specifiers : List Specifier}
    {slots : List Nat} {i : Nat} :
    (⟨place site clause specifiers slots⟩ : Outline).slot? i =
      if i ∈ slots then some clause else none := by
  have about (q : Placement) (held : q ∈ place site clause specifiers slots) (c : Clause)
      (gives : q.slotAt? i = some c) : c = clause ∧ i ∈ slots := by
    rcases mem_place.mp held with ⟨s, -, rfl | rfl⟩ | ⟨j, member, rfl⟩
    · cases gives
    · cases gives
    · obtain ⟨rfl, rfl⟩ := Option.ite_some_none_eq_some.mp gives
      exact ⟨rfl, member⟩
  split
  · next member =>
    have own : .slot i clause ∈ place site clause specifiers slots :=
      mem_place.mpr (.inr ⟨i, member, rfl⟩)
    exact Outline.last?_of_only own (if_pos rfl) fun q held c gives => (about q held c gives).1
  · next other =>
    by_contra some_
    obtain ⟨c, found⟩ := Option.ne_none_iff_exists'.mp some_
    obtain ⟨q, held, gives⟩ := Outline.exists_of_last? found
    exact other (about q held c gives).2

/-- The annotations that a step puts in slots are those of some seats, all for one clause. -/
def Stride.Slots (us : List Seated) (s : Stride) : Prop :=
  ∃ vs clause, vs ⊆ us ∧ ∀ i, (⟨s.placements⟩ : Outline).slot? i =
    if i ∈ Token.noteIndices vs then some clause else none

namespace Stride

variable {us : List Seated} {s : Stride}

theorem slots_of_none (none_ : s.slots = []) : s.Slots us := by
  refine ⟨[], .exported, List.nil_subset _, fun i => ?_⟩
  rw [if_neg (show i ∉ Token.noteIndices [] from List.not_mem_nil)]
  by_contra some_
  obtain ⟨clause, found⟩ := Option.ne_none_iff_exists'.mp some_
  have slot : i ∈ s.slots := List.mem_filterMap.mpr ⟨_, Outline.mem_of_slot? found, rfl⟩
  rw [none_] at slot
  cases slot

theorem slots_of_place {site : String → Site} {clause : Clause} {specifiers : List Specifier}
    {vs : List Seated} (sub : vs ⊆ us)
    (placed : s.placements = Clause.place site clause specifiers (Token.noteIndices vs)) :
    s.Slots us :=
  ⟨vs, clause, sub, fun _ => placed ▸ Clause.slot?_place⟩

end Stride

namespace Clause

variable (us : List Seated) (w : Walk)

theorem readImport_slots :
    (⟨w, (readImport us).length, (readImport us).placements⟩ : Stride).Slots
      (us.take (readImport us).length) := by
  unfold readImport
  dsimp only
  split
  · exact Stride.slots_of_none rfl
  · obtain ⟨vs, sub, same⟩ := exists_bracesAt_slots us
      (namespaceName us (defaultName us (importStart us)).2).2
    refine Stride.slots_of_place (List.Subset.trans sub ?_) (by rw [same])
    exact (List.take_prefix_take_left (le_module? us _)).subset

theorem readExport_slots (position : Nat) :
    (⟨w, (readExport us position).length, (readExport us position).placements⟩ : Stride).Slots
      (us.take (readExport us position).length) := by
  obtain ⟨vs, sub, same⟩ := exists_braces_slots us position
  unfold readExport
  dsimp only
  refine Stride.slots_of_place (List.Subset.trans sub ?_) (by rw [same])
  exact (List.take_prefix_take_left (le_module? us _)).subset

end Clause

namespace Walk

variable {w : Walk} {p : Place} {s : Stride}

theorem ReadsPlain.slots (reads : w.ReadsPlain p s) : s.Slots (p.tokens.take s.length) := by
  cases reads with
  | still | function | heading | paren | square | body | block | closing | arrow =>
    exact Stride.slots_of_none rfl
  | declares | comma => exact Stride.slots_of_none (filterMap_note?_declaredName _)
  | imports => exact Clause.readImport_slots p.tokens w
  | exports position => exact Clause.readExport_slots p.tokens w position

/-- A step puts all annotations of some of the seats that it takes up in slots, for one clause. -/
theorem step_slots (w : Walk) (p : Place) : (w.step p).Slots (w.taken p) := by
  have reads := w.step_reads p
  rw [taken]
  generalize w.step p = s at reads ⊢
  cases reads with
  | head _ _ _ reads => exact Stride.slots_of_none reads.slots
  | plain _ _ reads | inner _ _ _ _ _ _ reads => exact reads.slots
  | param _ _ _ _ _ reads => exact Stride.slots_of_none reads.slots

end Walk

/-! ## The whole outline -/

namespace Outline

variable {ts : List Token} {s : Step} {i : Nat}

theorem slots_of_mem (held : s ∈ steps ts) :
    s.stride.Slots (s.place.tokens.take s.stride.length) := by
  rw [stride_of_mem held]
  exact s.before.step_slots s.place

/-- What the outline says of an annotation, the step over its seat says. -/
theorem slot?_of_taken (held : s ∈ steps ts) {v : Seated}
    (member : v ∈ s.place.tokens.take s.stride.length) (note : i ∈ v.noteIndices) :
    (ofTokens ts).slot? i = (⟨s.stride.placements⟩ : Outline).slot? i := by
  obtain ⟨ss, ss', whole, early, late⟩ := exists_taken held member
  have silent {s' : Step} (held' : s' ∈ steps ts)
      (apart : v ∉ s'.place.tokens.take s'.stride.length) :
      (⟨s'.stride.placements⟩ : Outline).slot? i = none := by
    obtain ⟨vs, clause, sub, here⟩ := slots_of_mem held'
    rw [here]
    refine if_neg fun inside => apart ?_
    obtain ⟨v', member', note'⟩ := List.mem_flatMap.mp inside
    have same : v = v' := Token.eq_of_mem_noteIndices
      ((tokens_suffix held).subset (List.mem_of_mem_take member))
      ((tokens_suffix held').subset (List.mem_of_mem_take (sub member'))) note note'
    exact same ▸ sub member'
  have before : (⟨ss.flatMap (·.stride.placements)⟩ : Outline).slot? i = none := by
    rw [slot?, last?_flatMap, List.findSome?_eq_none_iff]
    intro s' held'
    have held' := List.mem_reverse.mp held'
    exact silent (whole ▸ List.mem_append_left _ held') (early s' held')
  have after (s' : Step) (held' : s' ∈ ss') :
      (⟨s'.stride.placements⟩ : Outline).slot? i = none :=
    silent (whole ▸ List.mem_append_right _ (.tail _ held')) fun twice =>
      late s' held' (List.mem_of_mem_take twice)
  exact (last?_of_split _ whole after).trans (by rw [← slot?, ← slot?, before, Option.or_none])

/-- Two annotations next to each other are in one slot or in none. -/
theorem slot?_succ {a b : Token} (first : ts[i]? = some a) (second : ts[i + 1]? = some b)
    (note : a.isNote = true) (note' : b.isNote = true) :
    (ofTokens ts).slot? i = (ofTokens ts).slot? (i + 1) := by
  rw [slot?, slot?, ofTokens, last?_flatMap, last?_flatMap, ← List.head?_filterMap,
    ← List.head?_filterMap]
  refine congrArg _ (List.filterMap_congr fun s held => ?_)
  have held := List.mem_reverse.mp held
  obtain ⟨vs, clause, sub, here⟩ := slots_of_mem held
  have same : i ∈ Token.noteIndices vs ↔ i + 1 ∈ Token.noteIndices vs := by
    simp only [Token.noteIndices, List.mem_flatMap]
    refine exists_congr fun v => and_congr_right fun member => ?_
    exact Token.mem_noteIndices_succ first second note note'
      ((tokens_suffix held).subset (List.mem_of_mem_take (sub member)))
  exact (here i).trans ((if_congr same rfl rfl).trans (here (i + 1)).symm)

end Outline

end Gloss

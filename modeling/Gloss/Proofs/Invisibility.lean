import Gloss.Proofs.HostView
import Gloss.Proofs.StepCases

/-!
# Annotations are invisible to the outline

What the walk places comes from the host tokens alone, so an annotation never
changes the sites of a host token, whatever stands before or after it
(`Outline.ofTokens_hostOnly`).

That every site belongs to a host token is no new case analysis: the walk that
knows nothing of indices cannot make one up (`Outline.exists_host`). Slots do
come from the annotations, and `Walk.step_slots_subset` follows them through the
steps.
-/

namespace Gloss

open Token (Seated)

/-! ## Seats -/

namespace Token

/-- A seat is that of its token. -/
theorem getElem?_of_mem_seatFrom (done notes : List Token) {ts : List Token} {t : Seated}
    (h : t ∈ seatFrom done.length notes ts) :
    (done ++ ts)[t.index]? = some t.toToken ∧ t.isNote = false := by
  induction ts generalizing done notes with
  | nil => cases h
  | cons u ts ih =>
    have shift : (done ++ [u]).length = done.length + 1 := List.length_append
    rw [seatFrom] at h
    split at h
    · have later := ih (done ++ [u]) (notes ++ [u]) (by rwa [shift])
      rwa [List.append_assoc] at later
    · next host =>
      rcases List.mem_cons.mp h with rfl | h
      · exact ⟨by simp, by simpa using host⟩
      · have later := ih (done ++ [u]) [] (by rwa [shift])
        rwa [List.append_assoc] at later

/-- The indices before a seat are those of annotations. -/
theorem isNote_of_mem_noteIndices (done : List Token) {notes ts : List Token} {t : Seated} {i : Nat}
    (all : ∀ a ∈ notes, a.isNote = true) (h : t ∈ seatFrom (done ++ notes).length notes ts)
    (member : i ∈ t.noteIndices) :
    ∃ a, (done ++ notes ++ ts)[i]? = some a ∧ a.isNote = true := by
  induction ts generalizing done notes with
  | nil => cases h
  | cons u ts ih =>
    rw [seatFrom] at h
    split at h
    · next note =>
      have all : ∀ a ∈ notes ++ [u], a.isNote = true := by
        intro a ha
        rcases List.mem_append.mp ha with ha | ha
        · exact all a ha
        · rwa [List.mem_singleton.mp ha]
      have later := ih done all (by simpa [Nat.add_assoc] using h)
      simpa using later
    · rcases List.mem_cons.mp h with rfl | h
      · obtain ⟨k, inside, rfl⟩ := List.mem_range'.mp member
        dsimp only at inside
        refine ⟨notes[k], ?_, all _ (List.getElem_mem inside)⟩
        rw [List.length_append, Nat.add_sub_cancel, Nat.one_mul, List.append_assoc,
          List.getElem?_append_right (Nat.le_add_right _ _), Nat.add_sub_cancel_left,
          List.getElem?_append_left inside, List.getElem?_eq_getElem inside]
      · have later := ih (done ++ notes ++ [u]) (List.forall_mem_nil _)
          (by simpa [Nat.add_assoc] using h)
        simpa using later

/-- A host token has its number in the list without annotations. -/
theorem getElem?_dropNotes {ts : List Token} {i : Nat} {t : Token} (pending : Nat)
    (found : ts[i]? = some t) (host : t.isNote = false) :
    ∃ feeds,
      (dropNotes pending ts)[hostsBefore ts i]? = some { t with newlinesBefore := feeds } := by
  induction ts generalizing pending i with
  | nil => cases found
  | cons u ts ih =>
    rcases i with _ | i
    · cases found
      exact ⟨pending + t.newlinesBefore, by simp [dropNotes, host, hostsBefore]⟩
    · by_cases note : u.isNote = true
      · obtain ⟨feeds, later⟩ := ih (pending + u.newlinesBefore) found
        exact ⟨feeds, by simpa [dropNotes, note, hostsBefore] using later⟩
      · obtain ⟨feeds, later⟩ := ih 0 found
        exact ⟨feeds, by simpa [dropNotes, note, hostsBefore] using later⟩

theorem hostsBefore_lt {ts : List Token} {i j : Nat} {t : Token} (before : i < j)
    (found : ts[i]? = some t) (host : t.isNote = false) :
    hostsBefore ts i < hostsBefore ts j := by
  have next : ts.take (i + 1) = ts.take i ++ [t] := by rw [List.take_add_one, found]; rfl
  have grows : hostsBefore ts (i + 1) = hostsBefore ts i + 1 := by
    simp [hostsBefore, next, host]
  have sub : (ts.take (i + 1)).Sublist (ts.take j) :=
    (List.take_prefix_take_left before).sublist
  have le : hostsBefore ts (i + 1) ≤ hostsBefore ts j := sub.countP_le
  omega

theorem eq_of_hostsBefore_eq {ts : List Token} {i j : Nat} {t u : Token}
    (first : ts[i]? = some t) (host : t.isNote = false) (second : ts[j]? = some u)
    (host' : u.isNote = false) (same : hostsBefore ts i = hostsBefore ts j) : i = j := by
  rcases Nat.lt_trichotomy i j with before | eq | after
  · have := hostsBefore_lt before first host
    omega
  · exact eq
  · have := hostsBefore_lt after second host'
    omega

end Token

/-! ## What placements are about -/

namespace Placement

/-- The host token that a placement is about. -/
def host? : Placement → Option Nat
  | leading index _ => some index
  | trailing index _ => some index
  | slot _ _ => none

/-- The annotation that a placement is about. -/
def note? : Placement → Option Nat
  | slot index _ => some index
  | _ => none

variable {p : Placement}

theorem host?_of_alone {number : Nat → Nat} {q : Placement} (h : p.alone number = some q) :
    q.host? = p.host?.map number := by
  cases p with
  | leading | trailing => cases h; rfl
  | slot => cases h

variable {i : Nat} {site : Site}

theorem eq_of_siteBefore? (h : p.siteBefore? i = some site) : p = .leading i site := by
  cases p with
  | leading j =>
    obtain ⟨rfl, same⟩ := Option.ite_none_right_eq_some.mp h
    cases same
    rfl
  | trailing | slot => cases h

theorem eq_of_siteAfter? (h : p.siteAfter? i = some site) : p = .trailing i site := by
  cases p with
  | trailing j =>
    obtain ⟨rfl, same⟩ := Option.ite_none_right_eq_some.mp h
    cases same
    rfl
  | leading | slot => cases h

theorem host?_of_siteBefore? (h : p.siteBefore? i = some site) : p.host? = some i :=
  eq_of_siteBefore? h ▸ rfl

theorem host?_of_siteAfter? (h : p.siteAfter? i = some site) : p.host? = some i :=
  eq_of_siteAfter? h ▸ rfl

theorem eq_of_slotAt? {clause : Clause} (h : p.slotAt? i = some clause) : p = .slot i clause := by
  cases p with
  | slot j =>
    obtain ⟨rfl, same⟩ := Option.ite_none_right_eq_some.mp h
    cases same
    rfl
  | leading | trailing => cases h

/-- Where no two host tokens get the index `number i`, what the placement says of `i` is what
becomes of it. -/
theorem bind_siteBefore? {number : Nat → Nat}
    (apart : ∀ j, p.host? = some j → number j = number i → j = i) :
    (p.alone number).bind (·.siteBefore? (number i)) = p.siteBefore? i := by
  cases p with
  | leading j =>
    have here : number j = number i ↔ j = i := ⟨apart j rfl, congrArg number⟩
    simp [Placement.alone, siteBefore?, here]
  | trailing | slot => rfl

theorem bind_siteAfter? {number : Nat → Nat}
    (apart : ∀ j, p.host? = some j → number j = number i → j = i) :
    (p.alone number).bind (·.siteAfter? (number i)) = p.siteAfter? i := by
  cases p with
  | trailing j =>
    have here : number j = number i ↔ j = i := ⟨apart j rfl, congrArg number⟩
    simp [Placement.alone, siteAfter?, here]
  | leading | slot => rfl

end Placement

/-! ## Slots -/

/-- The annotations that a clause puts in slots. -/
def ClauseReading.slots (c : ClauseReading) : List Nat := c.placements.filterMap (·.note?)

/-- The annotations that a step puts in slots. -/
def Stride.slots (s : Stride) : List Nat := s.placements.filterMap (·.note?)

/-- The indices of the annotations right before some host tokens. -/
def Token.noteIndices (ts : List Seated) : List Nat := ts.flatMap (·.noteIndices)

theorem Token.noteIndices_subset {ts us : List Seated} (sub : ts ⊆ us) :
    noteIndices ts ⊆ noteIndices us := by
  intro i h
  obtain ⟨t, member, found⟩ := List.mem_flatMap.mp h
  exact List.mem_flatMap.mpr ⟨t, sub member, found⟩

/-- The annotations in the slots of a list are those of some of its seats. -/
theorem NameList.exists_slots (position : Nat) (us : List Seated) :
    ∃ vs, vs ⊆ us.take (position + 1) ∧ slots position us = Token.noteIndices vs := by
  fun_induction slots position us with
  | case1 position before after rest more _ ih =>
    obtain ⟨vs, sub, same⟩ := ih
    exact ⟨after :: vs, List.subset_cons_of_subset before (List.cons_subset.mpr ⟨.head _, sub⟩),
      congrArg (after.noteIndices ++ ·) same⟩
  | case2 position before after rest more _ ih =>
    obtain ⟨vs, sub, same⟩ := ih
    exact ⟨vs, List.subset_cons_of_subset before sub, same⟩
  | case3 => exact ⟨[], List.nil_subset _, rfl⟩

namespace Clause

variable (us : List Seated)

theorem exists_braces_slots (position : Nat) :
    ∃ vs, vs ⊆ us.take (braces us position).next ∧
      (braces us position).slots = Token.noteIndices vs := by
  unfold braces
  dsimp only
  generalize
    (NameList.read (position + 1) ((us.drop position).drop 1)).1.getD (us.length - 1) = close
  obtain ⟨vs, sub, same⟩ := NameList.exists_slots (close - position) (us.drop position)
  by_cases short : close < position
  · rw [Nat.sub_eq_zero_of_le (Nat.le_of_lt short)]
    exact ⟨[], List.nil_subset _, rfl⟩
  · refine ⟨vs, List.Subset.trans sub ?_, same⟩
    rw [show close - position + 1 = close + 1 - position by omega, ← List.drop_take]
    exact List.drop_subset _ _

theorem exists_bracesAt_slots (position : Nat) :
    ∃ vs, vs ⊆ us.take (bracesAt us position).next ∧
      (bracesAt us position).slots = Token.noteIndices vs := by
  unfold bracesAt
  split
  · exact exists_braces_slots us position
  · exact ⟨[], List.nil_subset _, rfl⟩

theorem braces_slots_subset (position : Nat) :
    (braces us position).slots ⊆ Token.noteIndices us := by
  obtain ⟨vs, sub, same⟩ := exists_braces_slots us position
  rw [same]
  exact Token.noteIndices_subset (List.Subset.trans sub (List.take_subset _ us))

theorem bracesAt_slots_subset (position : Nat) :
    (bracesAt us position).slots ⊆ Token.noteIndices us := by
  obtain ⟨vs, sub, same⟩ := exists_bracesAt_slots us position
  rw [same]
  exact Token.noteIndices_subset (List.Subset.trans sub (List.take_subset _ us))

theorem place_slots (site : String → Site) (clause : Clause) (specifiers : List Specifier)
    (slots : List Nat) :
    (place site clause specifiers slots).filterMap (·.note?) = slots := by
  have named : (specifiers.flatMap (·.placements site)).filterMap (·.note?) = [] := by
    simp [List.filterMap_flatMap, Specifier.placements, Placement.note?]
  rw [place, List.filterMap_append, named, List.nil_append, List.filterMap_map]
  exact List.filterMap_some

theorem readImport_slots_subset : (readImport us).slots ⊆ Token.noteIndices us := by
  unfold readImport
  dsimp only
  split
  · exact List.nil_subset _
  · rw [ClauseReading.slots, place_slots]
    exact bracesAt_slots_subset us _

theorem readExport_slots_subset (position : Nat) :
    (readExport us position).slots ⊆ Token.noteIndices us := by
  rw [ClauseReading.slots, readExport, place_slots]
  exact braces_slots_subset us position

end Clause

namespace Walk

theorem filterMap_note?_declaredName (t : Option Seated) :
    (declaredName t).filterMap (·.note?) = [] := by
  unfold declaredName
  split
  · split <;> rfl
  · rfl

variable {w : Walk} {p : Place} {s : Stride}

theorem ReadsHead.slots {owner : String} (reads : w.ReadsHead p owner s) : s.slots = [] := by
  cases reads
  rfl

theorem ReadsParam.slots {w' : Walk} {owner : Owner} {slot : Nat} {fresh : Bool}
    {outer : List Frame} {placements : List Placement}
    (reads : w.ReadsParam p owner slot fresh outer (w', some placements)) :
    placements.filterMap (·.note?) = [] := by
  cases reads <;> rfl

theorem ReadsPlain.slots_subset (reads : w.ReadsPlain p s) :
    s.slots ⊆ Token.noteIndices p.tokens := by
  cases reads with
  | still | function | heading | paren | square | body | block | closing | arrow =>
    exact List.nil_subset _
  | declares | comma =>
    rw [Stride.slots, filterMap_note?_declaredName]
    exact List.nil_subset _
  | imports => exact Clause.readImport_slots_subset p.tokens
  | exports position => exact Clause.readExport_slots_subset p.tokens position

/-- A step puts annotations in slots that stand before its own tokens or later ones. -/
theorem step_slots_subset (w : Walk) (p : Place) :
    (w.step p).slots ⊆ Token.noteIndices p.tokens := by
  have reads := w.step_reads p
  generalize w.step p = s at reads
  cases reads with
  | head _ _ _ reads =>
    rw [reads.slots]
    exact List.nil_subset _
  | plain _ _ reads | inner _ _ _ _ _ _ reads => exact reads.slots_subset
  | param _ _ _ _ _ reads =>
    rw [Stride.slots, reads.slots]
    exact List.nil_subset _

end Walk

namespace Outline

theorem mem_noteIndices_of_walk {w : Walk} {n : Nat} {prev : Option Seated} {ts : List Seated}
    {i : Nat} (h : i ∈ (walk w n prev ts).flatMap (·.stride.slots)) : i ∈ Token.noteIndices ts := by
  fun_induction walk w n prev ts with
  | case1 => cases h
  | case2 w n prev t rest place stride more ih =>
    rw [List.flatMap_cons] at h
    rcases List.mem_append.mp h with here | later
    · exact Walk.step_slots_subset w place here
    · have dropped : rest.drop more ⊆ t :: rest :=
        List.Subset.trans (List.drop_subset more rest) (List.subset_cons_self t rest)
      exact Token.noteIndices_subset dropped (ih later)

/-- Whatever is in a slot is an annotation. -/
theorem isNote_of_slot {ts : List Token} {i : Nat} {clause : Clause}
    (h : .slot i clause ∈ (ofTokens ts).placements) :
    ∃ t, ts[i]? = some t ∧ t.isNote = true := by
  obtain ⟨step, member, placed⟩ := List.mem_flatMap.mp h
  have slot : i ∈ (steps ts).flatMap (·.stride.slots) :=
    List.mem_flatMap.mpr ⟨step, member, List.mem_filterMap.mpr ⟨_, placed, rfl⟩⟩
  obtain ⟨t, host, found⟩ := List.mem_flatMap.mp (mem_noteIndices_of_walk slot)
  exact Token.isNote_of_mem_noteIndices [] (List.forall_mem_nil _) host found

/-! ## Sites -/

/-- The walk cannot make up a token: were a site at an index that no host token has, giving this
index alone a new number would change nothing in what the walk sees, but it would move the site. -/
theorem exists_host {ts : List Token} {p : Placement} {i : Nat}
    (h : p ∈ (ofTokens ts).placements) (site : p.host? = some i) :
    ∃ t, ts[i]? = some t ∧ t.isNote = false := by
  by_contra absent
  have unseen : ∀ t ∈ Token.hosts ts, t.index ≠ i := by
    rintro t host rfl
    exact absent ⟨_, Token.getElem?_of_mem_seatFrom [] [] host⟩
  let number (j : Nat) : Nat := if j = i then 1 else 0
  have same : (Token.hosts ts).map (·.alone number) = (Token.hosts ts).map (·.alone fun _ => 0) :=
    List.map_congr_left fun t host => by simp [Seated.alone, number, unseen t host]
  have moved : (ofTokens ts).placements.filterMap (·.alone number) =
      (ofTokens ts).placements.filterMap (·.alone fun _ => 0) := by
    have left := walk_alone number (Token.hosts ts)
    have right := walk_alone (fun _ => 0) (Token.hosts ts)
    rw [same] at left
    exact left.symm.trans right
  obtain ⟨q, renamed⟩ : ∃ q, p.alone number = some q := by
    cases p with
    | leading | trailing => exact ⟨_, rfl⟩
    | slot => cases site
  have member : q ∈ (ofTokens ts).placements.filterMap (·.alone fun _ => 0) := by
    rw [← moved]
    exact List.mem_filterMap.mpr ⟨p, h, renamed⟩
  obtain ⟨p', _, renamed'⟩ := List.mem_filterMap.mp member
  have left := Placement.host?_of_alone renamed
  have right := Placement.host?_of_alone renamed'
  rw [left, site, Option.map_some] at right
  obtain ⟨_, _, zero⟩ := Option.map_eq_some_iff.mp right.symm
  simp [number] at zero

variable {α : Type} {f g : Placement → Option α}

theorem last?_alone {number : Nat → Nat} {ps : List Placement}
    (same : ∀ p ∈ ps, (p.alone number).bind f = g p) :
    (⟨ps.filterMap (·.alone number)⟩ : Outline).last? f = (⟨ps⟩ : Outline).last? g := by
  simp only [last?, ← List.head?_filterMap, List.filterMap_reverse, List.filterMap_filterMap]
  rw [List.filterMap_congr same]

theorem exists_of_last? {o : Outline} {a : α} (h : o.last? f = some a) :
    ∃ p ∈ o.placements, f p = some a := by
  obtain ⟨p, member, found⟩ := List.exists_of_findSome?_eq_some h
  exact ⟨p, List.mem_reverse.mp member, found⟩

/-- Only host tokens have sites. -/
theorem last?_eq_none {ts : List Token} {i : Nat} {t : Token} (found : ts[i]? = some t)
    (note : t.isNote = true) (about : ∀ p a, f p = some a → p.host? = some i) :
    (ofTokens ts).last? f = none := by
  by_contra some
  obtain ⟨a, placed⟩ := Option.ne_none_iff_exists'.mp some
  obtain ⟨p, member, gives⟩ := exists_of_last? placed
  obtain ⟨u, found', host⟩ := exists_host member (about p a gives)
  rw [found, Option.some.injEq] at found'
  rw [← found', note] at host
  cases host

/-- Annotations are invisible to the outline. The host token at index `i` of a list is number
`hostsBefore ts i` in the list without annotations, and there it has the same site before it and the
same site after it. Annotations have no sites, and nothing else is in a slot. -/
theorem ofTokens_hostOnly (ts : List Token) :
    (∀ i t, ts[i]? = some t → t.isNote = false →
      (∃ feeds, (Token.hostOnly ts)[Token.hostsBefore ts i]? =
        some { t with newlinesBefore := feeds }) ∧
      (ofTokens (Token.hostOnly ts)).leading? (Token.hostsBefore ts i) =
        (ofTokens ts).leading? i ∧
      (ofTokens (Token.hostOnly ts)).trailing? (Token.hostsBefore ts i) =
        (ofTokens ts).trailing? i) ∧
    (∀ i t, ts[i]? = some t → t.isNote = true →
      (ofTokens ts).leading? i = none ∧ (ofTokens ts).trailing? i = none) ∧
    (∀ i clause, (ofTokens ts).slot? i = some clause →
      ∃ t, ts[i]? = some t ∧ t.isNote = true) := by
  refine ⟨fun i t found host => ⟨Token.getElem?_dropNotes 0 found host, ?_⟩,
    fun i t found note => ⟨?_, ?_⟩, fun i clause slot => ?_⟩
  · have apart (p) (placed : p ∈ (ofTokens ts).placements) (j : Nat) (site : p.host? = some j)
        (same : Token.hostsBefore ts j = Token.hostsBefore ts i) : j = i := by
      obtain ⟨u, found', host'⟩ := exists_host placed site
      exact Token.eq_of_hostsBefore_eq found' host' found host same
    have alone : ofTokens (Token.hostOnly ts) =
        ⟨(ofTokens ts).placements.filterMap (·.alone (Token.hostsBefore ts))⟩ := by
      rw [← placements_hostOnly]
    rw [alone]
    exact ⟨last?_alone fun p placed => Placement.bind_siteBefore? (apart p placed),
      last?_alone fun p placed => Placement.bind_siteAfter? (apart p placed)⟩
  · exact last?_eq_none found note fun _ _ => Placement.host?_of_siteBefore?
  · exact last?_eq_none found note fun _ _ => Placement.host?_of_siteAfter?
  · obtain ⟨p, placed, gives⟩ := exists_of_last? slot
    rw [Placement.eq_of_slotAt? gives] at placed
    exact isNote_of_slot placed

/-- In `let #T x`, the name `x` is a declarator with and without the annotation before it. -/
theorem ofTokens_hostOnly_declarator :
    let ts : List Token := [⟨.keyword, "let", ⟨0, 3⟩, 0⟩, ⟨.note 0, "#T", ⟨4, 6⟩, 0⟩,
      ⟨.ident, "x", ⟨7, 8⟩, 0⟩]
    (ofTokens ts).leading? 2 = some (.declarator "x") ∧
      (ofTokens (Token.hostOnly ts)).leading? 1 = some (.declarator "x") ∧
      (ofTokens ts).leading? 1 = none := by
  intro ts
  have site : (ofTokens ts).leading? 2 = some (.declarator "x") := by decide +kernel
  have name := (ofTokens_hostOnly ts).1 2 ⟨.ident, "x", ⟨7, 8⟩, 0⟩ rfl rfl
  have note := (ofTokens_hostOnly ts).2.1 1 ⟨.note 0, "#T", ⟨4, 6⟩, 0⟩ rfl rfl
  exact ⟨site, name.2.1.trans site, note.1⟩

end Outline

end Gloss

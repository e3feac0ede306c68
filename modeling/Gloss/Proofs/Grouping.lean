import Gloss.Analysis
import Gloss.Proofs.Tiling
import Mathlib.Data.List.Induction
import Mathlib.Data.List.Nodup

/-!
# Attachment loses nothing

A table is built from bindings one by one. `Table.Groups` says what it then is:
the bindings, regrouped by target, with each group in order and the groups in the
order of their first bindings. `Table.Groups.insert` keeps it over one binding,
and `Attachment.table_groups` has it of every list of bindings.

The bindings of a file are its annotations in order (`Attachment.notes_bindings`),
and no two of these start at one offset, so an offset names its group.
-/

namespace Gloss

/-! ## Groups -/

namespace Table

/-- What a target is bound to, as bindings. -/
def Entry.bindings (e : Entry) : List (Target × Attachment) :=
  e.attachments.map fun a => (e.target, a)

/-- The annotations of a target. -/
def Entry.notes (e : Entry) : List Note := e.attachments.map (·.note)

/-- The first annotation of each target, as a binding. -/
def firsts (t : Table) : List (Target × Option Attachment) :=
  t.entries.map fun e => (e.target, e.attachments.head?)

/-- The table has the given bindings, by target. -/
structure Groups (t : Table) (bound : List (Target × Attachment)) : Prop where
  /-- No target has two entries. -/
  distinct : t.targets.Nodup
  /-- Every binding is there as often as it was given. -/
  perm : t.attachments.Perm bound
  /-- Every entry keeps the order. -/
  within : ∀ e ∈ t.entries, e.bindings.Sublist bound
  /-- Entries are in the order of their first bindings, and have one. -/
  leading : t.firsts.Sublist (bound.map fun b => (b.1, some b.2))

variable {target : Target} {a : Attachment}

/-- A binding goes to the end of the entry of its target, or into a new last entry. -/
theorem insertEntry_cases (target : Target) (a : Attachment) (es : List Entry) :
    (∃ before e after, es = before ++ e :: after ∧ e.target = target ∧
      insertEntry target a es = before ++ ⟨target, e.attachments ++ [a]⟩ :: after) ∨
    (target ∉ es.map (·.target) ∧ insertEntry target a es = es ++ [⟨target, [a]⟩]) := by
  induction es with
  | nil => exact .inr ⟨List.not_mem_nil, rfl⟩
  | cons e es ih =>
    rw [insertEntry]
    by_cases same : e.target = target
    · rw [if_pos same, same]
      exact .inl ⟨[], e, es, rfl, same, rfl⟩
    · rw [if_neg same]
      rcases ih with ⟨before, f, after, rfl, found, inserted⟩ | ⟨absent, inserted⟩
      · exact .inl ⟨e :: before, f, after, rfl, found, by rw [inserted]; rfl⟩
      · refine .inr ⟨?_, by rw [inserted]; rfl⟩
        rw [List.map_cons, List.mem_cons, not_or]
        exact ⟨Ne.symm same, absent⟩

/-- The attachments of a table are those of its entries. -/
theorem attachments_eq (t : Table) : t.attachments = t.entries.flatMap (·.bindings) := rfl

namespace Groups

variable {t : Table} {bound : List (Target × Attachment)}

theorem ne_nil (groups : t.Groups bound) {e : Entry} (member : e ∈ t.entries) :
    e.attachments ≠ [] := by
  have first : (e.target, e.attachments.head?) ∈ t.firsts := List.mem_map.mpr ⟨e, member, rfl⟩
  obtain ⟨b, -, same⟩ := List.mem_map.mp (groups.leading.subset first)
  intro empty
  rw [empty] at same
  cases congrArg Prod.snd same

/-- One more binding at the end. -/
theorem insert (groups : t.Groups bound) (target : Target) (a : Attachment) :
    (t.insert target a).Groups (bound ++ [(target, a)]) := by
  obtain ⟨es⟩ := t
  have kept : bound.Sublist (bound ++ [(target, a)]) := List.sublist_append_left _ _
  unfold Table.insert
  rcases insertEntry_cases target a es with
    ⟨before, e, after, rfl, rfl, inserted⟩ | ⟨absent, inserted⟩
  · have member : e ∈ before ++ e :: after := List.mem_append_right _ (.head _)
    rw [inserted]
    refine ⟨?_, ?_, fun f found => ?_, ?_⟩
    · simpa [targets] using groups.distinct
    · have moved : ((e.target, a) :: after.flatMap (·.bindings)).Perm
          (after.flatMap (·.bindings) ++ [(e.target, a)]) :=
        (List.perm_append_singleton _ _).symm
      have front := (moved.append_left e.bindings).append_left (before.flatMap (·.bindings))
      have back := groups.perm.append_right [(e.target, a)]
      rw [attachments_eq] at back ⊢
      simpa [Entry.bindings] using front.trans (by simpa using back)
    · rcases List.mem_append.mp found with found | found
      · exact (groups.within f (List.mem_append_left _ found)).trans kept
      · rcases List.mem_cons.mp found with rfl | found
        · have grown := (groups.within e member).append (.refl [(e.target, a)])
          simpa [Entry.bindings] using grown
        · exact (groups.within f (List.mem_append_right _ (.tail _ found))).trans kept
    · have same : firsts ⟨before ++ ⟨e.target, e.attachments ++ [a]⟩ :: after⟩ =
          firsts ⟨before ++ e :: after⟩ := by
        simp [firsts, List.head?_append_of_ne_nil _ (groups.ne_nil member)]
      rw [same]
      exact groups.leading.trans (kept.map _)
  · rw [inserted]
    refine ⟨?_, ?_, fun f found => ?_, ?_⟩
    · have apart : List.Disjoint (es.map (·.target)) [target] := by simpa using absent
      simpa [targets] using groups.distinct.append (List.nodup_singleton target) apart
    · have whole := groups.perm.append_right [(target, a)]
      rw [attachments_eq] at whole ⊢
      simpa [Entry.bindings] using whole
    · rcases List.mem_append.mp found with found | found
      · exact (groups.within f found).trans kept
      · rw [List.mem_singleton.mp found]
        exact List.sublist_append_right _ _
    · have grown := groups.leading.append (.refl [(target, some a)])
      simpa [firsts] using grown

variable {e : Entry} {a : Attachment}

theorem mem_bound (groups : t.Groups bound) (member : e ∈ t.entries) (held : a ∈ e.attachments) :
    (e.target, a) ∈ bound :=
  (groups.within e member).subset (List.mem_map.mpr ⟨a, held, rfl⟩)

end Groups

end Table

/-- Bindings are grouped by target, whatever they are. -/
theorem Attachment.table_groups (bound : List (Target × Attachment)) :
    (table bound).Groups bound := by
  induction bound using List.reverseRecOn with
  | nil => exact ⟨.nil, .nil, by simp [table, Table.empty], .slnil⟩
  | append_singleton bound b ih =>
    have last : table (bound ++ [b]) = (table bound).insert b.1 b.2 := by
      rw [table, List.foldl_append]
      rfl
    rw [last]
    exact ih.insert b.1 b.2

/-! ## The bindings of a file -/

namespace Attachment

/-- An annotation token holds the annotation of its number. -/
theorem noteOf?_eq (notes : Array Note) (t : Token) :
    noteOf? notes t = t.noteSpan?.bind fun p => notes[p.1]? := by
  unfold noteOf? Token.noteSpan?
  cases t.kind <;> rfl

theorem notes_bindings (o : Outline) (notes : Array Note) (before : List Token) (index : Nat)
    (ts : List Token) :
    (bindings o notes before index ts).map (·.2.note) = ts.filterMap (noteOf? notes) := by
  induction ts generalizing before index with
  | nil => rfl
  | cons t ts ih =>
    rw [bindings, List.filterMap_cons]
    cases noteOf? notes t with
    | none => exact ih _ _
    | some a => exact congrArg (a :: ·) (ih _ _)

end Attachment

theorem Token.snd_of_noteSpan? {t : Token} {p : Nat × Span} (h : t.noteSpan? = some p) :
    p.2 = t.span := by
  unfold noteSpan? at h
  split at h
  · cases h
    rfl
  · cases h

namespace Reading

variable (d : Dialect) (source : String)

/-- The annotation tokens of a file hold its annotations in order. -/
theorem filterMap_noteOf? :
    (ofSource d source).tokens.filterMap
        (Attachment.noteOf? (ofSource d source).notes.toArray) =
      (ofSource d source).notes := by
  simp only [funext (Attachment.noteOf?_eq _)]
  rw [← List.filterMap_filterMap, noteSpan?_ofSource, List.filterMap_map]
  calc (ofSource d source).notes.zipIdx.filterMap
          ((fun p => (ofSource d source).notes.toArray[p.1]?) ∘ fun p => (p.2, p.1.span))
      = (ofSource d source).notes.zipIdx.filterMap (some ∘ Prod.fst) :=
        List.filterMap_congr fun p member => by
          simpa using List.mem_zipIdx_iff_getElem?.mp member
    _ = (ofSource d source).notes := by
      rw [List.filterMap_eq_map, List.zipIdx_map_fst]

/-- The annotations of a file are in the order of their starts, and no two start at one offset. -/
theorem notes_ascending :
    (ofSource d source).notes.Pairwise fun a b => a.span.start < b.span.start := by
  have ordered : ((ofSource d source).tokens.filterMap Token.noteSpan?).Pairwise
      fun p q => p.2.start < q.2.start := by
    refine (ofSource_tile d source).pairwise.filterMap _ fun t u before p first q second => ?_
    rw [Token.snd_of_noteSpan? first, Token.snd_of_noteSpan? second]
    exact before.1
  rw [noteSpan?_ofSource, List.pairwise_map] at ordered
  have notes := ordered.map (S := fun a b : Note => a.span.start < b.span.start) Prod.fst
    fun _ _ before => before
  rwa [List.zipIdx_map_fst] at notes

/-- What is bound are the annotations of the file, in order. -/
theorem notes_bindings (o : Outline) :
    (Attachment.bindings o (ofSource d source).notes.toArray [] 0
      (ofSource d source).tokens).map (·.2.note) = (ofSource d source).notes := by
  rw [Attachment.notes_bindings, filterMap_noteOf?]

/-- What is bound is in the order of the text. -/
theorem bindings_ascending (o : Outline) :
    (Attachment.bindings o (ofSource d source).notes.toArray [] 0
      (ofSource d source).tokens).Pairwise
      fun b c => b.2.note.span.start < c.2.note.span.start := by
  have notes := notes_ascending d source
  rwa [← notes_bindings d source o, List.pairwise_map] at notes

end Reading

/-! ## The table of a file -/

namespace Table

/-- The table has every annotation of a list once. -/
structure Partitions (t : Table) (notes : List Note) : Prop where
  /-- An annotation is in one entry, and there once. -/
  once : ∀ n ∈ notes, ∃ before e after, t.entries = before ++ e :: after ∧
    e.notes.count n = 1 ∧ ∀ f ∈ before ++ after, n ∉ f.notes
  /-- Nothing else is in an entry. -/
  known : ∀ e ∈ t.entries, ∀ n ∈ e.notes, n ∈ notes
  /-- Entries have targets of their own. -/
  distinct : t.targets.Nodup
  /-- In an entry the annotations stand in the order of their starts. -/
  ascending : ∀ e ∈ t.entries, e.notes.Pairwise fun m n => m.span.start < n.span.start
  /-- No entry is without annotations. -/
  inhabited : ∀ e ∈ t.entries, e.notes ≠ []
  /-- Entries are in the order of their first annotations. -/
  ordered : t.entries.Pairwise fun e f =>
    ∀ m ∈ e.notes.head?, ∀ n ∈ f.notes.head?, m.span.start < n.span.start
  /-- The start of an annotation leads to its target. -/
  located : ∀ e ∈ t.entries, ∀ n ∈ e.notes, t.targetOf? n.span.start = some e.target
  /-- As many annotations are counted as there are. -/
  counted : t.noteCount = notes.length

variable {t : Table} {bound : List (Target × Attachment)}

/-- Of the lists that make up a list without repetitions, one holds a given element, once. -/
theorem exists_once {es : List Entry} {n : Note} (nodup : (es.flatMap (·.notes)).Nodup)
    (member : n ∈ es.flatMap (·.notes)) :
    ∃ before e after, es = before ++ e :: after ∧ e.notes.count n = 1 ∧
      ∀ f ∈ before ++ after, n ∉ f.notes := by
  obtain ⟨e, found, held⟩ := List.mem_flatMap.mp member
  obtain ⟨before, after, rfl⟩ := List.append_of_mem found
  rw [List.flatMap_append, List.flatMap_cons] at nodup
  obtain ⟨-, rest, apart⟩ := List.nodup_append.mp nodup
  obtain ⟨here, -, apart'⟩ := List.nodup_append.mp rest
  refine ⟨before, e, after, rfl, List.count_eq_one_of_mem here held, fun f other held' => ?_⟩
  rcases List.mem_append.mp other with other | other
  · exact apart n (List.mem_flatMap.mpr ⟨f, other, held'⟩) n (List.mem_append_left _ held) rfl
  · exact apart' n held n (List.mem_flatMap.mpr ⟨f, other, held'⟩) rfl

/-- An offset at which only one bound annotation starts leads to its target. -/
theorem Groups.targetOf?_eq (groups : t.Groups bound)
    (starts : (bound.map (·.2.note.span.start)).Nodup) {e : Entry} {a : Attachment}
    (member : e ∈ t.entries) (held : a ∈ e.attachments) :
    t.targetOf? a.note.span.start = some e.target := by
  have here : (e.attachments.any (·.note.span.start == a.note.span.start)) = true :=
    List.any_eq_true.mpr ⟨a, held, beq_self_eq_true _⟩
  obtain ⟨f, found⟩ : ∃ f, t.entries.find? (fun e =>
      e.attachments.any (·.note.span.start == a.note.span.start)) = some f :=
    Option.isSome_iff_exists.mp (List.find?_isSome.mpr ⟨e, member, here⟩)
  have starts_here := List.find?_some found
  obtain ⟨b, held', same⟩ := List.any_eq_true.mp starts_here
  have first := groups.mem_bound (List.mem_of_find?_eq_some found) held'
  have second := groups.mem_bound member held
  have eq := List.inj_on_of_nodup_map starts first second (beq_iff_eq.mp same)
  rw [targetOf?, found, Option.map_some]
  exact congrArg (fun b => some b.1) eq

/-- Bindings with ascending annotations make a table of these annotations. -/
theorem Groups.partitions (groups : t.Groups bound)
    (ascending : bound.Pairwise fun b c => b.2.note.span.start < c.2.note.span.start) :
    t.Partitions (bound.map (·.2.note)) := by
  have notes_eq : t.attachments.map (·.2.note) = t.entries.flatMap (·.notes) := by
    simp [attachments, Entry.notes, List.map_flatMap, Function.comp_def]
  have perm : (t.entries.flatMap (·.notes)).Perm (bound.map (·.2.note)) :=
    notes_eq ▸ groups.perm.map _
  have starts : (bound.map (·.2.note.span.start)).Nodup :=
    List.pairwise_map.mpr (ascending.imp Nat.ne_of_lt)
  have nodup : (bound.map (·.2.note)).Nodup :=
    .of_map (·.span.start) (by rwa [List.map_map])
  have leading : t.firsts.Pairwise fun p q =>
      ∀ a ∈ p.2, ∀ b ∈ q.2, a.note.span.start < b.note.span.start := by
    refine .sublist groups.leading (List.pairwise_map.mpr (ascending.imp ?_))
    intro b c before a first a' second
    rwa [← Option.some.inj first, ← Option.some.inj second]
  refine ⟨fun n member => ?_, fun e member n held => ?_, groups.distinct, fun e member => ?_,
    fun e member => ?_, ?_, fun e member n held => ?_, ?_⟩
  · exact exists_once (perm.nodup_iff.mpr nodup) (perm.symm.subset member)
  · exact perm.subset (List.mem_flatMap.mpr ⟨e, member, held⟩)
  · have order := ascending.sublist (groups.within e member)
    rw [Entry.bindings, List.pairwise_map] at order
    exact List.pairwise_map.mpr order
  · rw [Entry.notes, Ne, List.map_eq_nil_iff]
    exact groups.ne_nil member
  · refine (List.pairwise_map.mp leading).imp fun {e f} before m first n second => ?_
    rw [Entry.notes, List.head?_map, Option.mem_def, Option.map_eq_some_iff] at first second
    obtain ⟨a, held, rfl⟩ := first
    obtain ⟨b, held', rfl⟩ := second
    exact before a held b held'
  · obtain ⟨a, attached, rfl⟩ := List.mem_map.mp held
    exact groups.targetOf?_eq starts member attached
  · rw [noteCount, groups.perm.length_eq, List.length_map]

end Table

/-- Attachment is total, unique and keeps the order: without the strict rule every file has an
analysis with the annotations that are read in it, whose table has each of them once. -/
theorem Analysis.ofSource?_partitions {d : Dialect} (marker : d.hashbang ≠ some '\r')
    (lenient : d.strict = false) (source : String) :
    ∃ a, ofSource? d source = some (.ok a) ∧ a.notes = (Reading.ofSource d source).notes ∧
      a.table.Partitions a.notes := by
  let bound := Attachment.bindings (.ofTokens (Reading.ofSource d source).tokens)
    (Reading.ofSource d source).notes.toArray [] 0 (Reading.ofSource d source).tokens
  have accepted : ofSource d source = .ok ⟨(Reading.ofSource d source).notes,
      Attachment.table bound, (Reading.ofSource d source).malformed⟩ := by
    simp [ofSource, ofReading, Attachment.attach, Attachment.rejected?, lenient, Except.map, bound]
  refine ⟨_, by rw [ofSource?_eq_some marker, accepted], rfl, ?_⟩
  rw [← Reading.notes_bindings d source]
  exact (Attachment.table_groups bound).partitions (Reading.bindings_ascending d source _)

theorem Analysis.ofSource?_partitions_hash :
    Dialect.hash.hashbang ≠ some '\r' ∧ Dialect.hash.strict = false ∧
      ∃ a, ofSource? .hash "#!n\nlet x #A #B, y #C" = some (.ok a) ∧
        a.notes = (Reading.ofSource .hash "#!n\nlet x #A #B, y #C").notes ∧
        a.table.Partitions a.notes :=
  ⟨by decide, rfl, ofSource?_partitions (by decide) rfl _⟩

end Gloss

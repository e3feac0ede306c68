import Gloss.Proofs.Grouping
import Gloss.Proofs.Lines
import Gloss.Report.Verdict

/-!
# A strict dialect only rejects

A dialect is strict in one place, when the annotations of a file are bound. So a
file is read and bound as under the lenient dialect, and it is rejected exactly
when an attachment is a mere fallback. The one that is named starts first in the
text, although the table is ordered by targets, and its place is the one that a
walk over the text finds (`Analysis.ofSource?_strict`).
-/

namespace Gloss

/-! ## Reading -/

namespace Reading

variable (d : Dialect) (strict : Bool)

theorem pieces_strict (ctx : Context) (c : Cursor) :
    pieces { d with strict } ctx c = pieces d ctx c := by
  induction ctx, c using pieces_induction (d := d) with
  | last ctx c last => exact pieces_last last
  | cons ctx c gap ch rest text trivia starts ih =>
    rw [pieces_cons text trivia starts]
    exact congrArg ((Piece.readAfter d ctx c gap ch rest).1 :: ·) ih

/-- The text is read without a look at strictness. -/
theorem ofSource_strict (source : String) : ofSource { d with strict } source = ofSource d source :=
  congrArg ofPieces (pieces_strict d strict ..)

/-- An annotation starts between characters of the text. -/
theorem exists_append_of_mem_notes {source : String} {n : Note}
    (h : n ∈ (ofSource d source).notes) :
    ∃ before after,
      source = String.ofList (before ++ after) ∧ Text.width before = n.span.start := by
  obtain ⟨i, here⟩ := List.getElem?_of_mem h
  have member : (i, n.span) ∈ (ofSource d source).tokens.filterMap Token.noteSpan? := by
    rw [noteSpan?_ofSource]
    exact List.mem_map.mpr ⟨(n, i), List.mem_zipIdx_iff_getElem?.mpr here, rfl⟩
  obtain ⟨t, found, span⟩ := List.mem_filterMap.mp member
  obtain ⟨before, after, text, start⟩ := (ofSource_tile d source).exists_append found
  refine ⟨before, after, ?_, ?_⟩
  · rw [← text, String.ofList_toList]
  · rw [start, ← Token.snd_of_noteSpan? span]

end Reading

/-! ## The first fallback -/

namespace Table

/-- The attachments for which no rule found a construct. -/
def fallbacks (t : Table) : List Attachment :=
  (t.attachments.map (·.2)).filter (·.rule == .fallback)

variable {t : Table} {bound : List (Target × Attachment)}

theorem Groups.mem_fallbacks (groups : t.Groups bound) {a : Attachment} :
    a ∈ t.fallbacks ↔ ∃ b ∈ bound, b.2 = a ∧ a.rule = .fallback := by
  have same : a ∈ t.attachments.map (·.2) ↔ a ∈ bound.map (·.2) :=
    (groups.perm.map Prod.snd).mem_iff
  rw [fallbacks, List.mem_filter, beq_iff_eq, same, List.mem_map]
  exact ⟨fun ⟨⟨b, member, eq⟩, rule⟩ => ⟨b, member, eq, rule⟩,
    fun ⟨b, member, eq, rule⟩ => ⟨⟨b, member, eq⟩, rule⟩⟩

/-- Without a first fallback there is none. -/
theorem Groups.fallbacks_eq_nil (groups : t.Groups bound)
    (none : Attachment.firstFallback? bound = none) : t.fallbacks = [] := by
  rw [List.eq_nil_iff_forall_not_mem]
  intro a member
  obtain ⟨b, bound, rfl, rule⟩ := groups.mem_fallbacks.mp member
  have := List.find?_eq_none.mp (Option.map_eq_none_iff.mp none) b bound
  exact this (beq_iff_eq.mpr rule)

/-- The first fallback starts first. -/
theorem Groups.least_of_firstFallback? (groups : t.Groups bound)
    (ascending : bound.Pairwise fun b c => b.2.note.span.start < c.2.note.span.start)
    {a : Attachment} (first : Attachment.firstFallback? bound = some a) :
    a ∈ t.fallbacks ∧ ∀ b ∈ t.fallbacks, a.note.span.start ≤ b.note.span.start := by
  obtain ⟨b, found, rfl⟩ := Option.map_eq_some_iff.mp first
  obtain ⟨rule, before, after, rfl, skipped⟩ := List.find?_eq_some_iff_append.mp found
  obtain ⟨-, rest, -⟩ := List.pairwise_append.mp ascending
  refine ⟨groups.mem_fallbacks.mpr ⟨b, by simp, rfl, beq_iff_eq.mp rule⟩, fun a member => ?_⟩
  obtain ⟨c, bound, rfl, rule'⟩ := groups.mem_fallbacks.mp member
  rcases List.mem_append.mp bound with early | late
  · have := skipped c early
    simp [rule'] at this
  · rcases List.mem_cons.mp late with rfl | late
    · exact Nat.le_refl _
    · exact Nat.le_of_lt ((List.pairwise_cons.mp rest).1 c late)

end Table

/-! ## Rejection -/

/-- What a strict dialect says of a fallback. -/
def Attachment.rejection (source : String) (a : Attachment) : Ambiguous :=
  ⟨a.note.payload, Position.locate source a.note.span.start⟩

/-- The place in the report is the one that a walk over the text finds. -/
theorem Attachment.ambiguous_eq {d : Dialect} {source : String} {a : Attachment}
    (known : a.note ∈ (Reading.ofSource d source).notes) :
    ambiguous source a = a.rejection source := by
  obtain ⟨before, after, rfl, start⟩ := Reading.exists_append_of_mem_notes d known
  rw [ambiguous, ambiguous?, rejection, ← start, LineTable.position?_eq_locate]
  rfl

/-- Being strict only adds a rejection. A file has an analysis under the lenient dialect. When no
attachment in it is a fallback, it is the analysis under the strict dialect as well; else the strict
dialect rejects the fallback that starts first, and a check reports it after the malformed
annotations. -/
theorem Analysis.ofSource?_strict {d : Dialect} (marker : d.hashbang ≠ some '\r')
    (source name : String) :
    ∃ a, ofSource? { d with strict := false } source = some (.ok a) ∧
      ((a.table.fallbacks = [] ∧ ofSource? { d with strict := true } source = some (.ok a) ∧
          Report.Verdict.ofSource { d with strict := true } ⟨name, source⟩ =
            ⟨name, a.notes.length, a.problems⟩) ∨
        ∃ f ∈ a.table.fallbacks,
          (∀ g ∈ a.table.fallbacks, f.note.span.start ≤ g.note.span.start) ∧
          ofSource? { d with strict := true } source = some (.error (f.rejection source)) ∧
          Report.Verdict.ofSource { d with strict := true } ⟨name, source⟩ =
            ⟨name, a.notes.length, a.problems ++ [.ambiguous (f.rejection source)]⟩) := by
  let reading := Reading.ofSource d source
  let bound := Attachment.bindings (.ofTokens reading.tokens) reading.notes.toArray [] 0
    reading.tokens
  have groups := Attachment.table_groups bound
  have notes : bound.map (·.2.note) = reading.notes := Reading.notes_bindings d source _
  have ascending := Reading.bindings_ascending d source (.ofTokens reading.tokens)
  have read (strict : Bool) : Reading.ofSource { d with strict } source = reading :=
    Reading.ofSource_strict d strict source
  have analysed (strict : Bool) : ofSource? { d with strict } source =
      some (ofReading { d with strict } source reading) := by
    have marker' : ({ d with strict } : Dialect).hashbang ≠ some '\r' := marker
    rw [ofSource?_eq_some marker', ofSource, read]
  have lenient : ofReading { d with strict := false } source reading =
      .ok ⟨reading.notes, Attachment.table bound, reading.malformed⟩ := by
    simp [ofReading, Attachment.attach, Attachment.rejected?, Except.map, bound]
  refine ⟨_, by rw [analysed, lenient], ?_⟩
  cases first : Attachment.firstFallback? bound with
  | none =>
    have strict : ofReading { d with strict := true } source reading =
        .ok ⟨reading.notes, Attachment.table bound, reading.malformed⟩ := by
      simp [ofReading, Attachment.attach, Attachment.rejected?, Except.map, bound, first]
    refine .inl ⟨groups.fallbacks_eq_nil first, by rw [analysed, strict], ?_⟩
    simp only [Report.Verdict.ofSource, read, strict, problems]
  | some f =>
    have least := groups.least_of_firstFallback? ascending first
    have known : f.note ∈ reading.notes := by
      obtain ⟨b, member, rfl, -⟩ := groups.mem_fallbacks.mp least.1
      rw [← notes]
      exact List.mem_map.mpr ⟨b, member, rfl⟩
    have strict : ofReading { d with strict := true } source reading =
        .error (f.rejection source) := by
      simp [ofReading, Attachment.attach, Attachment.rejected?, Except.map, bound, first,
        Attachment.ambiguous_eq known]
    refine .inr ⟨f, least.1, least.2, by rw [analysed, strict], ?_⟩
    simp only [Report.Verdict.ofSource, read, strict, problems]

theorem Analysis.ofSource?_strict_hash :
    Dialect.hash.hashbang ≠ some '\r' ∧
      ∃ a, ofSource? { Dialect.hash with strict := false } "f(#A, #B)" = some (.ok a) ∧
        ∃ f ∈ a.table.fallbacks,
          (∀ g ∈ a.table.fallbacks, f.note.span.start ≤ g.note.span.start) ∧
          ofSource? { Dialect.hash with strict := true } "f(#A, #B)" =
            some (.error (f.rejection "f(#A, #B)")) ∧
          Report.Verdict.ofSource { Dialect.hash with strict := true } ⟨"f.js", "f(#A, #B)"⟩ =
            ⟨"f.js", a.notes.length, a.problems ++ [.ambiguous (f.rejection "f(#A, #B)")]⟩ := by
  obtain ⟨a, lenient, ⟨-, accepted, -⟩ | ⟨f, member, rejected⟩⟩ :=
    ofSource?_strict (d := .hash) (by decide) "f(#A, #B)" "f.js"
  · have fails : (ofSource? { Dialect.hash with strict := true } "f(#A, #B)").any (·.isOk) =
        false := by
      decide +kernel
    rw [accepted] at fails
    cases fails
  · exact ⟨by decide, a, lenient, f, member, rejected⟩

end Gloss

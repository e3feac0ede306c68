import Gloss.Proofs.Safety

/-!
# What the removal of spans keeps

Spans that do not overlap are removed in any order with one result. It is made of the pieces of the
text that no span covers (`Removal.pieces`), with a seam after each of them: nothing or one space,
and a space wherever two visible characters would meet (`Removal.Joined`).

The proof goes through the spans in ascending order. After a deleted span the text goes on with a
lead, the part of the seam that later spans add before the next piece (`Removal.Lead`). A span puts
its separator in front of the lead that the spans after it leave, and the two make up a seam
(`Removal.Lead.toSeam`): after a space a further separator is never needed, and without one the next
visible character is either kept where it stands or has a space from a later span.
-/

namespace Gloss

/-! ## Pieces and seams -/

/-- The characters of a text that starts at an offset, each with its own offset. -/
def Text.placed (offset : Nat) : List Char → List (Nat × Char)
  | [] => []
  | c :: cs => (offset, c) :: placed (offset + c.utf8Size) cs

namespace Removal

/-- Whether a span covers the offset. -/
def covered (spans : List Span) (offset : Nat) : Bool := spans.any (·.contains offset)

/-- The longest pieces of a text in which no character is deleted. -/
def pieces (deleted : Nat → Bool) (offset : Nat) (cs : List Char) : List (List Char) :=
  (((Text.placed offset cs).splitOnP fun p => deleted p.1).map (·.map (·.2))).filter (!·.isEmpty)

/-- The pieces of a text that no span covers. -/
def uncovered (spans : List Span) (source : String) : List (List Char) :=
  pieces (covered spans) 0 source.toList

/-- There is a character, and it is no blank. -/
def Visible (c : Option Char) : Prop := c.any (!Text.isBlank ·) = true

instance : DecidablePred Visible := fun _ => inferInstanceAs (Decidable (_ = true))

/-- The first character of the first piece. -/
def firstOf (ps : List (List Char)) : Option Char := ps.head?.bind List.head?

/-- What may stand after a piece, given its last character and the first of the next piece. -/
structure Seam (before after : Option Char) (seam : List Char) : Prop where
  space : seam = [] ∨ seam = [' ']
  visible : seam ≠ [] → Visible before
  apart : Visible before → Visible after → seam = [' ']

/-- The text is the pieces in order, each with a seam after it. -/
inductive Joined : List (List Char) → List Char → Prop
  | nil : Joined [] []
  | cons {piece seam rest : List Char} {ps : List (List Char)} :
    Seam piece.getLast? (firstOf ps) seam → Joined ps rest →
    Joined (piece :: ps) (piece ++ (seam ++ rest))

end Removal

/-! ## Cutting a text into pieces -/

namespace Text

variable {offset : Nat} {cs : List Char}

theorem placed_append (offset : Nat) (as bs : List Char) :
    placed offset (as ++ bs) = placed offset as ++ placed (offset + width as) bs := by
  induction as generalizing offset with
  | nil => rfl
  | cons a as ih =>
    rw [List.cons_append, placed, ih, placed, width_cons, List.cons_append, Nat.add_assoc]

@[simp] theorem map_snd_placed (offset : Nat) (cs : List Char) :
    (placed offset cs).map (·.2) = cs := by
  induction cs generalizing offset with
  | nil => rfl
  | cons c cs ih => rw [placed, List.map_cons, ih]

theorem placed_bounds {p : Nat × Char} (held : p ∈ placed offset cs) :
    offset ≤ p.1 ∧ p.1 < offset + width cs := by
  induction cs generalizing offset with
  | nil => cases held
  | cons c cs ih =>
    have pos := c.utf8Size_pos
    rw [width_cons]
    rcases List.mem_cons.mp held with rfl | held
    · exact ⟨Nat.le_refl _, by dsimp only; omega⟩
    · have := ih held
      omega

end Text

namespace Removal

open Text

section Pieces

variable {deleted : Nat → Bool} {offset : Nat} {kept gone after : List Char}

/-- A text in which nothing is deleted is one piece, if it is not empty. -/
theorem pieces_kept (keeps : ∀ o, offset ≤ o → o < offset + width kept → deleted o = false) :
    pieces deleted offset kept = [kept].filter (!·.isEmpty) := by
  have none : ∀ p ∈ placed offset kept, deleted p.1 = false := fun p held =>
    keeps p.1 (placed_bounds held).1 (placed_bounds held).2
  rw [pieces, List.splitOnP_eq_singleton none, List.map_singleton, map_snd_placed]

theorem pieces_cons_deleted {c : Char} (deletes : deleted offset = true) :
    pieces deleted offset (c :: after) = pieces deleted (offset + c.utf8Size) after := by
  have first : ((offset, c) :: placed (offset + c.utf8Size) after).splitOnP
      (fun p => deleted p.1) = [] :: (placed (offset + c.utf8Size) after).splitOnP fun p =>
        deleted p.1 :=
    List.splitOnP_append_cons_of_forall_mem (List.forall_mem_nil _) (offset, c) deletes _
  rw [pieces, placed, first]
  rfl

/-- What is deleted separates pieces. -/
theorem pieces_deleted
    (deletes : ∀ o, offset ≤ o → o < offset + width gone → deleted o = true) :
    pieces deleted offset (gone ++ after) = pieces deleted (offset + width gone) after := by
  induction gone generalizing offset with
  | nil => rfl
  | cons c gone ih =>
    have pos := c.utf8Size_pos
    rw [width_cons] at deletes ⊢
    rw [List.cons_append, pieces_cons_deleted (deletes offset (Nat.le_refl _) (by omega)),
      ih fun o low high => deletes o (by omega) (by omega), Nat.add_assoc]

/-- The text before what is deleted is a piece, if it is not empty. -/
theorem pieces_cut (keeps : ∀ o, offset ≤ o → o < offset + width kept → deleted o = false)
    (nonempty : gone ≠ [])
    (deletes : ∀ o, offset + width kept ≤ o → o < offset + width kept + width gone →
      deleted o = true) :
    pieces deleted offset (kept ++ (gone ++ after)) =
      [kept].filter (!·.isEmpty) ++ pieces deleted (offset + width kept + width gone) after := by
  obtain ⟨c, gone, rfl⟩ := List.exists_cons_of_ne_nil nonempty
  have pos := c.utf8Size_pos
  have none : ∀ p ∈ placed offset kept, deleted p.1 = false := fun p held =>
    keeps p.1 (placed_bounds held).1 (placed_bounds held).2
  have here : deleted (offset + width kept) = true := by
    refine deletes _ (Nat.le_refl _) ?_
    rw [width_cons]
    omega
  have first := List.splitOnP_append_cons_of_forall_mem (p := fun p => deleted p.1) none
    (offset + width kept, c) here (placed (offset + width kept + c.utf8Size) (gone ++ after))
  rw [← pieces_deleted deletes, List.cons_append, pieces_cons_deleted here, pieces, placed_append,
    placed, first, List.map_cons, map_snd_placed, pieces, ← List.filter_append]
  rfl

end Pieces

/-! ## Seams -/

/-- What stands before the next piece in the text that is left after a span, given the character
before it, the first of that piece and the first of the text after the span. -/
structure Lead (before after next : Option Char) (lead : List Char) : Prop where
  space : lead = [] ∨ lead = [' ']
  visible : lead ≠ [] → Visible before
  apart : Visible before → Visible after → lead = [' '] ∨ next = after

section Seams

variable {before after next : Option Char} {seam lead : List Char}

theorem separator_eq_space (left : Visible before) (right : Visible next) :
    separator before next = [' '] := by
  obtain ⟨b, rfl, inkLeft⟩ := (Option.any_eq_true _ _).mp left
  obtain ⟨a, rfl, inkRight⟩ := (Option.any_eq_true _ _).mp right
  rw [Bool.not_eq_true'] at inkLeft inkRight
  simp [separator, inkLeft, inkRight]

theorem separator_eq_nil (none : ¬ (Visible before ∧ Visible next)) :
    separator before next = [] := by
  unfold separator
  split
  · next b a =>
    split
    · rfl
    · next visible =>
      rw [Bool.or_eq_true, not_or] at visible
      refine absurd ⟨?_, ?_⟩ none <;> simp [Visible, visible]
  · rfl

theorem Lead.nil : Lead before next next [] := ⟨.inl rfl, absurd rfl, fun _ _ => .inr rfl⟩

theorem Seam.toLead (s : Seam before after seam) : Lead before after next seam :=
  ⟨s.space, s.visible, fun left right => .inl (s.apart left right)⟩

/-- Without a visible character before it there is no lead. -/
theorem Lead.eq_nil (l : Lead before after next lead) (none : ¬ Visible before) : lead = [] :=
  l.space.resolve_right fun space => none (l.visible (by simp [space]))

/-- The separator of a span and the lead after it make up a seam. -/
theorem Lead.toSeam (l : Lead ((separator before next).getLast?.or before) after next lead) :
    Seam before after (separator before next ++ lead) := by
  by_cases both : Visible before ∧ Visible next
  · -- the space that is put here is no visible character for the spans to come
    rw [separator_eq_space both.1 both.2] at l ⊢
    rw [l.eq_nil (show ¬ Visible (some ' ') by decide)]
    exact ⟨.inr rfl, fun _ => both.1, fun _ _ => rfl⟩
  · rw [separator_eq_nil both] at l ⊢
    refine ⟨l.space, l.visible, fun left right => ?_⟩
    rcases l.apart left right with space | kept
    · exact space
    · exact absurd ⟨left, kept ▸ right⟩ both

end Seams

theorem firstOf_filter_append (kept : List Char) (ps : List (List Char)) :
    firstOf ([kept].filter (!·.isEmpty) ++ ps) = kept.head?.or (firstOf ps) := by
  cases kept <;> rfl

/-- The last piece has nothing after it. -/
theorem joined_last (kept : List Char) : Joined ([kept].filter (!·.isEmpty)) kept := by
  cases kept with
  | nil => exact .nil
  | cons c kept =>
    have joined : Joined [c :: kept] (c :: kept ++ ([] ++ [])) :=
      .cons ⟨.inl rfl, absurd rfl, fun _ none => absurd none (by decide)⟩ .nil
    rwa [List.append_nil, List.append_nil] at joined

/-! ## The spans one after the other -/

/-- What a span covers lies in the rest of a text, when it does not start before it. -/
theorem exists_append_of_covers {source text : String} {past rest : List Char} {s : Span}
    (whole : source.toList = past ++ rest) (covers : s.Covers source text)
    (later : Text.width past ≤ s.start) :
    ∃ kept after, rest = kept ++ (text.toList ++ after) ∧
      s.start = Text.width past + Text.width kept ∧
      s.stop = s.start + Text.width text.toList := by
  obtain ⟨before, after, parts, start, stop⟩ := Span.covers_iff.mp covers
  rw [whole] at parts
  obtain ⟨kept, rfl⟩ := Text.exists_append_of_width parts (start ▸ later)
  rw [List.append_assoc, List.append_cancel_left_eq] at parts
  rw [Text.width_append] at start
  exact ⟨kept, after, parts, start, stop⟩

section Covered

variable {s : Span} {spans : List Span} {offset : Nat}

theorem covered_eq_false (later : ∀ s ∈ spans, offset < s.start) :
    covered spans offset = false := by
  refine List.any_eq_false.mpr fun s held => ?_
  have := later s held
  simp only [Span.contains, Bool.and_eq_true, decide_eq_true_eq]
  omega

theorem covered_cons_of_contains (first : s.start ≤ offset) (last : offset < s.stop) :
    covered (s :: spans) offset = true := by
  simp [covered, Span.contains, first, last]

theorem covered_cons_of_stop_le (passed : s.stop ≤ offset) :
    covered (s :: spans) offset = covered spans offset := by
  simp [covered, Span.contains, Nat.not_lt.mpr passed]

/-- The first span cuts its text out of the pieces. -/
theorem pieces_first {deleted : Nat → Bool} {kept gone after : List Char}
    (agrees : ∀ o, offset ≤ o → deleted o = covered (s :: spans) o)
    (later : ∀ t ∈ spans, s.stop ≤ t.start) (start : s.start = offset + Text.width kept)
    (stop : s.stop = s.start + Text.width gone) (nonempty : gone ≠ []) :
    pieces deleted offset (kept ++ (gone ++ after)) =
      [kept].filter (!·.isEmpty) ++ pieces deleted s.stop after := by
  rw [stop, start]
  refine pieces_cut (fun o low high => ?_) nonempty fun o low high => ?_
  · rw [agrees o low]
    refine covered_eq_false (List.forall_mem_cons.mpr ⟨by omega, fun t held => ?_⟩)
    have := later t held
    omega
  · rw [agrees o (by omega)]
    exact covered_cons_of_contains (by omega) (by omega)

end Covered

/-- Removing the rest of the spans in ascending order joins the rest of the pieces after a lead. -/
theorem exists_joined {source : String} {deleted : Nat → Bool} {spans : List Span}
    {past rest : List Char} (whole : source.toList = past ++ rest)
    (sorted : spans.Pairwise fun s t => s.stop ≤ t.start)
    (inside : ∀ s ∈ spans, Text.width past ≤ s.start ∧ s.start < s.stop ∧
      ∃ text, s.Covers source text)
    (agrees : ∀ o, Text.width past ≤ o → deleted o = covered spans o) (last : Option Char) :
    ∃ lead left, removeFrom (Text.width past) last rest spans = some (lead ++ left) ∧
      Joined (pieces deleted (Text.width past) rest) left ∧
      Lead last (firstOf (pieces deleted (Text.width past) rest)) rest.head? lead := by
  induction spans generalizing past rest last with
  | nil =>
    have kept : pieces deleted (Text.width past) rest = [rest].filter (!·.isEmpty) ++ [] := by
      rw [List.append_nil]
      exact pieces_kept fun o low _ => agrees o low
    rw [kept, firstOf_filter_append, List.append_nil]
    refine ⟨[], rest, rfl, joined_last rest, ?_⟩
    rw [show rest.head?.or (firstOf []) = rest.head? from Option.or_none]
    exact .nil
  | cons s spans ih =>
    obtain ⟨⟨later, proper, text, covers⟩, inside⟩ := List.forall_mem_cons.mp inside
    obtain ⟨apart, sorted⟩ := List.pairwise_cons.mp sorted
    obtain ⟨kept, after, rfl, start, stop⟩ := exists_append_of_covers whole covers later
    have nonempty : text.toList ≠ [] := by
      intro empty
      rw [empty, Text.width_nil] at stop
      omega
    have stop' : Text.width (past ++ kept ++ text.toList) = s.stop := by
      rw [Text.width_append, Text.width_append, stop, start]
    have whole' : source.toList = past ++ kept ++ text.toList ++ after := by
      rw [whole]
      simp
    have beyond (o : Nat) (low : s.stop ≤ o) : deleted o = covered spans o := by
      rw [agrees o (by omega), covered_cons_of_stop_le low]
    rw [pieces_first agrees apart start stop nonempty, firstOf_filter_append]
    obtain ⟨lead, left, removed, joined, leads⟩ := ih whole' sorted
      (fun t held => ⟨by rw [stop']; exact apart t held, (inside t held).2⟩)
      (by rw [stop']; exact beyond)
      ((separator (kept.getLast?.or last) after.head?).getLast?.or (kept.getLast?.or last))
    rw [stop'] at removed joined leads
    have seam := leads.toSeam
    rw [removeFrom_cons start stop, removed]
    cases kept with
    | nil =>
      -- nothing is kept before the span, so its seam is a part of the lead
      exact ⟨_, left, by simp, joined, seam.toLead⟩
    | cons c kept =>
      exact ⟨[], _, by simp, .cons seam joined, .nil⟩

end Removal

/-! ## Sorted spans -/

namespace Span

theorem le_iff {s t : Span} :
    s.le t = true ↔ s.start < t.start ∨ s.start = t.start ∧ s.stop ≤ t.stop := by
  simp [le]

theorem le_antisymm {s t : Span} (first : s.le t = true) (second : t.le s = true) : s = t := by
  rw [le_iff] at first second
  obtain ⟨start, stop⟩ := s
  obtain ⟨start', stop'⟩ := t
  rw [mk.injEq]
  dsimp only at first second
  omega

/-- Sorted spans are in order. -/
theorem pairwise_mergeSort (spans : List Span) :
    (spans.mergeSort le).Pairwise fun s t => s.le t = true := by
  refine List.pairwise_mergeSort (fun s t u first second => ?_) (fun s t => ?_) spans
  · rw [le_iff] at *
    omega
  · rw [Bool.or_eq_true, le_iff, le_iff]
    omega

/-- There is one order in which spans are sorted. -/
theorem mergeSort_eq_of_perm {spans spans' : List Span} (perm : spans'.Perm spans) :
    spans'.mergeSort le = spans.mergeSort le := by
  refine List.Perm.eq_of_pairwise (fun s t _ _ => le_antisymm) (pairwise_mergeSort spans')
    (pairwise_mergeSort spans) ?_
  exact (List.mergeSort_perm spans' le).trans (perm.trans (List.mergeSort_perm spans le).symm)

/-- Sorted spans that do not overlap come one after the other. -/
theorem pairwise_mergeSort_of_disjoint {spans : List Span}
    (proper : ∀ s ∈ spans, s.start < s.stop)
    (disjoint : spans.Pairwise fun s t => s.overlaps t = false) :
    (spans.mergeSort le).Pairwise fun s t => s.stop ≤ t.start := by
  have perm := List.mergeSort_perm spans le
  have apart := (perm.pairwise_iff fun {s t} none => (overlaps_comm t s).trans none).mpr disjoint
  refine ((pairwise_mergeSort spans).and apart).imp_of_mem fun {s t} first second both => ?_
  have start := le_iff.mp both.1
  have one := proper s (perm.subset first)
  have two := proper t (perm.subset second)
  have none := both.2
  rw [overlaps, Bool.and_eq_false_iff, decide_eq_false_iff_not, decide_eq_false_iff_not] at none
  omega

end Span

namespace Removal

/-- Annotations with spans that lie in the text and do not overlap are removed in any order with one
result: the pieces of the text that no span covers, joined by seams. -/
theorem ofNotes?_joined {source : String} {notes : List Note}
    (proper : ∀ a ∈ notes, a.span.start < a.span.stop)
    (disjoint : notes.Pairwise fun a b => a.span.overlaps b.span = false)
    (inside : ∀ a ∈ notes, ∃ text, a.span.Covers source text) :
    ∃ left, (∀ notes', notes'.Perm notes → ofNotes? source notes' = some (String.ofList left)) ∧
      Joined (uncovered (notes.map (·.span)) source) left := by
  have perm := List.mergeSort_perm (notes.map (·.span)) Span.le
  have sorted := Span.pairwise_mergeSort_of_disjoint (List.forall_mem_map.mpr proper)
    (List.pairwise_map.mpr disjoint)
  have inside' : ∀ s ∈ (notes.map (·.span)).mergeSort Span.le,
      Text.width [] ≤ s.start ∧ s.start < s.stop ∧ ∃ text, s.Covers source text := by
    intro s held
    obtain ⟨a, member, rfl⟩ := List.mem_map.mp (perm.subset held)
    exact ⟨Nat.zero_le _, proper a member, inside a member⟩
  obtain ⟨lead, left, removed, joined, leads⟩ := exists_joined (List.nil_append _).symm sorted
    inside' (fun o _ => perm.any_eq.symm) none
  rw [leads.eq_nil (by decide)] at removed
  refine ⟨left, fun notes' perm' => ?_, joined⟩
  rw [ofNotes?, remove?, Span.mergeSort_eq_of_perm (perm'.map _)]
  exact congrArg (Option.map String.ofList) removed

/-- Two annotations that touch, with a visible character on either side of them. -/
theorem ofNotes?_joined_touching :
    (∀ a ∈ (Reading.ofSource .hash "a#<A>#<é>b").notes, a.span.start < a.span.stop) ∧
    (Reading.ofSource .hash "a#<A>#<é>b").notes.Pairwise
      (fun a b => a.span.overlaps b.span = false) ∧
    (∀ a ∈ (Reading.ofSource .hash "a#<A>#<é>b").notes, ∃ text, a.span.Covers "a#<A>#<é>b" text) ∧
    ∃ left, (∀ notes', notes'.Perm (Reading.ofSource .hash "a#<A>#<é>b").notes →
        ofNotes? "a#<A>#<é>b" notes' = some (String.ofList left)) ∧
      Joined (uncovered ((Reading.ofSource .hash "a#<A>#<é>b").notes.map (·.span)) "a#<A>#<é>b")
        left := by
  have proper : ∀ a ∈ (Reading.ofSource .hash "a#<A>#<é>b").notes, a.span.start < a.span.stop := by
    decide +kernel
  have disjoint : (Reading.ofSource .hash "a#<A>#<é>b").notes.Pairwise
      (fun a b => a.span.overlaps b.span = false) := by
    decide +kernel
  have inside : ∀ a ∈ (Reading.ofSource .hash "a#<A>#<é>b").notes,
      ∃ text, a.span.Covers "a#<A>#<é>b" text :=
    fun a held => ((Reading.ofSource_fits (by decide) _).notes a held).covers
  exact ⟨proper, disjoint, inside, ofNotes?_joined proper disjoint inside⟩

example : uncovered [⟨5, 10⟩, ⟨1, 5⟩] "a#<A>#<é>b" = [['a'], ['b']] := by
  decide +kernel

end Removal

end Gloss

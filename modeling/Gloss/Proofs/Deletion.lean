import Gloss.Removal
import Gloss.Proofs.Boundary

/-!
# What the removal of spans leaves

`Removal.removeFrom` goes through a text with the spans that are still to be
deleted. Text before the first of them is kept (`removeFrom_append`), a span
that starts here is replaced by at most a space (`removeFrom_cut`), and what is
left keeps the text before it apart as well as all of the text did
(`removeFrom_keepsApart`). The spans of a reading are in order, so sorting them
does nothing (`Reading.mergeSort_spans`).
-/

namespace Gloss

theorem Text.splitBytes?_width_add (before : List Char) (n : Nat) (rest : List Char) :
    splitBytes? (width before + n) (before ++ rest) =
      (splitBytes? n rest).map fun parts => (before ++ parts.1, parts.2) := by
  induction before with
  | nil => simp
  | cons c before ih =>
    have pos := c.utf8Size_pos
    obtain ⟨m, size⟩ : ∃ m, c.utf8Size = m + 1 := ⟨c.utf8Size - 1, by omega⟩
    have total : width (c :: before) + n = (m + width before + n) + 1 := by
      rw [width_cons, size]
      omega
    have less : m + width before + n + 1 - c.utf8Size = width before + n := by omega
    rw [total, List.cons_append, splitBytes?, if_pos (by omega), less, ih, Option.map_map]
    rfl

/-- Of two ways to cut a text, the one that cuts earlier cuts the first part of the other. -/
theorem Text.exists_append_of_width {a b u y : List Char} (text : a ++ b = u ++ y)
    (shorter : width a ≤ width u) : ∃ u', u = a ++ u' := by
  rcases List.append_eq_append_iff.mp text with ⟨u', rfl, -⟩ | ⟨more, rfl, -⟩
  · exact ⟨u', rfl⟩
  · have none : more.length = 0 := by
      have := length_le_width more
      rw [width_append] at shorter
      omega
    rw [List.eq_nil_of_length_eq_zero none, List.append_nil]
    exact ⟨[], (List.append_nil u).symm⟩

namespace Removal

theorem trivia_separator (before after : Option Char) :
    Host.Comment.Trivia (separator before after) := by
  unfold separator
  split
  · split
    · exact .nil
    · exact .blank (by decide) .nil
  · exact .nil

/-- Text before all spans is kept. -/
theorem removeFrom_append {offset : Nat} {before : List Char} {spans : List Span}
    (later : ∀ s ∈ spans, offset + Text.width before ≤ s.start) (last : Option Char)
    (rest : List Char) :
    removeFrom offset last (before ++ rest) spans =
      (removeFrom (offset + Text.width before) (before.getLast?.or last) rest spans).map
        (before ++ ·) := by
  cases spans with
  | nil => rfl
  | cons s spans =>
    have start := later s List.mem_cons_self
    have skipped : s.start - offset =
        Text.width before + (s.start - (offset + Text.width before)) := by
      omega
    rw [removeFrom, removeFrom, if_neg (by omega), if_neg (by omega), skipped,
      Text.splitBytes?_width_add]
    cases Text.splitBytes? (s.start - (offset + Text.width before)) rest with
    | none => rfl
    | some kept =>
      simp only [Option.map_some, Option.bind_eq_bind, Option.bind_some, List.getLast?_append,
        Option.or_assoc]
      cases Text.splitBytes? (s.stop - s.start) kept.2 with
      | none => rfl
      | some deleted =>
        simp only [Option.bind_some, Option.map_bind, Function.comp_def, Option.map_some,
          List.append_assoc]

/-- A span that starts here is replaced by its separator. -/
theorem removeFrom_cut (offset : Nat) (last : Option Char) (w rest : List Char)
    (spans : List Span) :
    removeFrom offset last (w ++ rest) (⟨offset, offset + Text.width w⟩ :: spans) =
      (removeFrom (offset + Text.width w) ((separator last rest.head?).getLast?.or last) rest
        spans).map (separator last rest.head? ++ ·) := by
  have covered : offset + Text.width w - offset = Text.width w := by omega
  rw [removeFrom, if_neg (Nat.lt_irrefl _), Nat.sub_self, Text.splitBytes?_zero]
  simp only [covered, Option.bind_eq_bind, Option.bind_some, Text.splitBytes?_width_append,
    List.getLast?_nil, Option.none_or, List.nil_append]
  cases removeFrom (offset + Text.width w) ((separator last rest.head?).getLast?.or last) rest
    spans <;> rfl

/-- The first span is replaced by its separator, and the text before it is kept. -/
theorem removeFrom_cons {offset : Nat} {last : Option Char} {kept deleted after : List Char}
    {s : Span} {spans : List Span} (start : s.start = offset + Text.width kept)
    (stop : s.stop = s.start + Text.width deleted) :
    removeFrom offset last (kept ++ (deleted ++ after)) (s :: spans) =
      (removeFrom s.stop ((separator (kept.getLast?.or last) after.head?).getLast?.or
        (kept.getLast?.or last)) after spans).map
        (kept ++ separator (kept.getLast?.or last) after.head? ++ ·) := by
  have before : s.start - offset = Text.width kept := by omega
  have inside : s.stop - s.start = Text.width deleted := by omega
  rw [removeFrom, if_neg (by omega), before, inside, Text.splitBytes?_width_append]
  simp only [Option.bind_eq_bind, Option.bind_some, Text.splitBytes?_width_append]
  cases removeFrom s.stop ((separator (kept.getLast?.or last) after.head?).getLast?.or
    (kept.getLast?.or last)) after spans <;> rfl

section Cursor

variable {left : List Char} {spans : List Span} {last : Option Char}

/-- The next characters are kept when all spans come after them. -/
theorem removeFrom_kept (c : Cursor) (length : Nat)
    (later : ∀ s ∈ spans, (c.advance length).offset ≤ s.start)
    (removed : removeFrom (c.advance length).offset ((c.rest.take length).getLast?.or last)
      (c.advance length).rest spans = some left) :
    removeFrom c.offset last c.rest spans = some (c.rest.take length ++ left) := by
  rw [Cursor.advance_offset] at later removed
  have split := removeFrom_append later last (c.rest.drop length)
  rw [List.take_append_drop, ← Cursor.advance_rest, removed] at split
  exact split

/-- The next characters are deleted when their span is the first. -/
theorem removeFrom_deleted {c : Cursor} {length : Nat}
    (removed : removeFrom (c.advance length).offset
      ((separator last (c.advance length).rest.head?).getLast?.or last)
      (c.advance length).rest spans = some left) :
    removeFrom c.offset last c.rest (c.span length :: spans) =
      some (separator last (c.advance length).rest.head? ++ left) := by
  have split := removeFrom_cut c.offset last (c.rest.take length) (c.rest.drop length) spans
  rw [List.take_append_drop, ← Cursor.advance_rest, ← Cursor.advance_offset, removed] at split
  exact split

end Cursor

/-- A piece of the text that no span touches is left as it is, and the text up to its end leaves
what comes before it. -/
theorem removeFrom_around {offset : Nat} {last : Option Char} {u w v whole : List Char}
    {early late : List Span} (nonempty : w ≠ [])
    (inside : ∀ s ∈ early, s.start ≤ s.stop ∧ s.stop ≤ offset + Text.width u)
    (later : ∀ s ∈ late, offset + Text.width (u ++ w) ≤ s.start)
    (removed : removeFrom offset last (u ++ (w ++ v)) (early ++ late) = some whole) :
    ∃ left right, removeFrom offset last (u ++ w) early = some (left ++ w) ∧
      whole = left ++ w ++ right := by
  induction early generalizing offset last u whole with
  | nil =>
    rw [List.nil_append, ← List.append_assoc, removeFrom_append later] at removed
    obtain ⟨right, -, rfl⟩ := Option.map_eq_some_iff.mp removed
    exact ⟨u, right, rfl, rfl⟩
  | cons s early ih =>
    obtain ⟨order, stop⟩ := inside s List.mem_cons_self
    have inside' := fun s h => inside s (List.mem_cons_of_mem _ h)
    by_cases skipped : s.start < offset
    · rw [List.cons_append, removeFrom, if_pos skipped] at removed
      rw [removeFrom, if_pos skipped]
      exact ih inside' later removed
    · -- the span is cut out of `u`, and the induction goes on after it
      obtain ⟨kept, deleted, u', rfl, start, stop'⟩ :
          ∃ kept deleted u', u = kept ++ (deleted ++ u') ∧
            s.start = offset + Text.width kept ∧ s.stop = s.start + Text.width deleted := by
        rw [List.cons_append, removeFrom, if_neg skipped] at removed
        simp only [Option.bind_eq_bind, Option.bind_eq_some_iff] at removed
        obtain ⟨⟨kept, rest⟩, cut, ⟨deleted, after⟩, cut', -⟩ := removed
        obtain ⟨text, width⟩ := Text.splitBytes?_eq_some cut
        obtain ⟨rfl, width'⟩ := Text.splitBytes?_eq_some cut'
        rw [← List.append_assoc kept] at text
        obtain ⟨u', rfl⟩ := Text.exists_append_of_width text.symm (by
          rw [Text.width_append]
          omega)
        exact ⟨kept, deleted, u', List.append_assoc .., by omega, by omega⟩
      have head : (u' ++ (w ++ v)).head? = (u' ++ w).head? := by
        obtain ⟨c, w, rfl⟩ := List.exists_cons_of_ne_nil nonempty
        cases u' <;> rfl
      have total : offset + Text.width (kept ++ (deleted ++ u')) = s.stop + Text.width u' := by
        rw [Text.width_append, Text.width_append]
        omega
      rw [Text.width_append, ← Nat.add_assoc, total, Nat.add_assoc, ← Text.width_append] at later
      rw [List.cons_append, List.append_assoc, List.append_assoc, removeFrom_cons start stop',
        head] at removed
      obtain ⟨more, tail, rfl⟩ := Option.map_eq_some_iff.mp removed
      obtain ⟨left, right, cut, rfl⟩ := ih (fun t h => total ▸ inside' t h) later tail
      refine ⟨kept ++ separator (kept.getLast?.or last) (u' ++ w).head? ++ left, right, ?_, ?_⟩
      · rw [List.append_assoc, List.append_assoc, removeFrom_cons start stop', cut]
        simp
      · simp

/-- What is left after a visible character starts with a blank, or as the text does. -/
theorem removeFrom_keepsApart {offset : Nat} {last : Option Char} {rest left : List Char}
    {spans : List Span} (removed : removeFrom offset last rest spans = some left) {b c : Char}
    (before : last = some b) (visible : Text.isBlank b = false) (head : left.head? = some c) :
    Text.isBlank c = true ∨ rest.head? = some c := by
  induction spans generalizing offset rest left with
  | nil =>
    obtain rfl := Option.some.inj removed
    exact .inr head
  | cons s spans ih =>
    rw [removeFrom] at removed
    split at removed
    · exact ih removed head
    simp only [Option.bind_eq_bind, Option.bind_eq_some_iff] at removed
    obtain ⟨⟨kept, rest'⟩, cut, ⟨deleted, after⟩, cut', more, later, whole⟩ := removed
    obtain ⟨rfl, -⟩ := Text.splitBytes?_eq_some cut
    obtain ⟨rfl, -⟩ := Text.splitBytes?_eq_some cut'
    obtain rfl := Option.some.inj whole
    dsimp only at later head
    cases kept with
    | cons d kept => exact .inr head
    | nil =>
      subst before
      rw [List.getLast?_nil, Option.none_or] at later head
      rw [List.nil_append] at head ⊢
      cases after with
      | nil =>
        -- nothing comes after the span, so no separator stands for it
        have left : more.head? = some c := head
        rcases ih later left with blank | head
        · exact .inl blank
        · cases head
      | cons d after =>
        by_cases blank : Text.isBlank d = true
        · have none : separator (some b) (some d) = [] := by simp [separator, blank]
          rw [List.head?_cons, none] at later head
          rcases ih later head with blank | head
          · exact .inl blank
          · obtain rfl := Option.some.inj head
            exact .inl blank
        · have space : separator (some b) (some d) = [' '] := by
            simp [separator, visible, blank]
          rw [List.head?_cons, space] at head
          obtain rfl := Option.some.inj head
          exact .inl (by decide)

end Removal

/-! ## The spans of a reading -/

namespace Reading

/-- The spans of the annotations of a text, from a cursor on. -/
def spans (d : Dialect) (ctx : Context) (c : Cursor) : List Span :=
  ((pieces d ctx c).filterMap (·.note?)).map (·.span)

theorem le_start_of_mem_spans (d : Dialect) (ctx : Context) (c : Cursor) :
    ∀ s ∈ spans d ctx c, c.offset ≤ s.start := by
  unfold spans
  induction ctx, c using Reading.note_or_host_induction with
  | last ctx c last =>
    intro s held
    cases held
  | note ctx c gap ch rest a length text trivia starts span pos ih =>
    have before := c.offset_le_advance gap.length
    intro s held
    rcases List.mem_cons.1 held with rfl | held
    · show c.offset ≤ a.span.start
      rw [span]
      exact before
    · exact Nat.le_trans before (Nat.le_trans (Cursor.offset_le_advance _ _) (ih s held))
  | host ctx c gap ch rest text trivia starts note isNote after ih =>
    intro s held
    rw [List.filterMap_cons, note] at held
    exact Nat.le_trans (c.offset_le_advance gap.length)
      (Nat.le_trans (Cursor.offset_le_advance _ _) (ih s held))

theorem pairwise_spans (d : Dialect) (ctx : Context) (c : Cursor) :
    (spans d ctx c).Pairwise fun s t => s.le t = true := by
  unfold spans
  induction ctx, c using Reading.note_or_host_induction with
  | last ctx c last => exact .nil
  | note ctx c gap ch rest a length text trivia starts span pos ih =>
    refine .cons (fun s held => ?_) ih
    have later := le_start_of_mem_spans d _ _ s held
    have rest' := Cursor.rest_advance_append text
    have shorter := Cursor.offset_lt_advance rest' pos
    show a.span.le s = true
    rw [span]
    simp only [Span.le, Bool.or_eq_true, decide_eq_true_eq]
    exact .inl (Nat.lt_of_lt_of_le shorter later)
  | host ctx c gap ch rest text trivia starts note isNote after ih =>
    rw [List.filterMap_cons, note]
    exact ih

/-- The spans of a reading are in order already. -/
theorem mergeSort_spans (d : Dialect) (ctx : Context) (c : Cursor) :
    (spans d ctx c).mergeSort Span.le = spans d ctx c :=
  List.mergeSort_of_pairwise (pairwise_spans d ctx c)

/-- Removing the annotations of a reading deletes their spans as they come. -/
theorem ofNotes?_ofSource (d : Dialect) (source : String) :
    Removal.ofNotes? source (ofSource d source).notes =
      (Removal.removeFrom 0 none source.toList ((ofSource d source).notes.map (·.span))).map
        String.ofList := by
  have sorted := mergeSort_spans d .initial (.start source.toList)
  rw [Removal.ofNotes?, Removal.remove?]
  exact congrArg (fun spans => (Removal.removeFrom 0 none source.toList spans).map String.ofList)
    sorted

end Reading

end Gloss

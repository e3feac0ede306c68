import Gloss.Proofs.NoteEnd

/-!
# Comments that are blanked out

`Comment.blanked` overwrites the bytes of a comment by spaces and leaves its line
feeds. A gap that holds the comment and the gap that holds the spaces take up the
same bytes and lines (`Comment.MatchingGaps`), and where one comes to an end or to
a token, so does the other (`Comment.IsComment.matching_or_last`).
-/

namespace Gloss.Host.Comment

/-- A comment and what comes after it: a line comment reaches to the end of its line, and a block
comment to its end or, if it is open, to the end of the text. -/
inductive IsComment : List Char → List Char → Prop
  | line {body after : List Char} :
    '\n' ∉ body → (after = [] ∨ after.head? = some '\n') → IsComment ('/' :: '/' :: body) after
  | block {body after : List Char} :
    NoClose body → IsComment ('/' :: '*' :: (body ++ ['*', '/'])) after
  | openBlock {body : List Char} : NoClose body → IsComment ('/' :: '*' :: body) []

/-- A text with a space for each of its bytes but for the line feeds. -/
def blanked (cs : List Char) : List Char :=
  cs.flatMap fun c => if c = '\n' then ['\n'] else List.replicate c.utf8Size ' '

theorem blanked_cons (c : Char) (cs : List Char) :
    blanked (c :: cs) =
      (if c = '\n' then ['\n'] else List.replicate c.utf8Size ' ') ++ blanked cs :=
  List.flatMap_cons

theorem width_blanked (cs : List Char) : Text.width (blanked cs) = Text.width cs := by
  have spaces (n : Nat) : Text.width (List.replicate n ' ') = n := by
    induction n with
    | zero => rfl
    | succ n ih =>
      rw [List.replicate_succ, Text.width_cons, ih]
      exact Nat.add_comm 1 n
  induction cs with
  | nil => rfl
  | cons c cs ih =>
    rw [blanked_cons, Text.width_append, ih, Text.width_cons]
    split
    · next feed => rw [feed]; rfl
    · rw [spaces]

theorem count_blanked (cs : List Char) : (blanked cs).count '\n' = cs.count '\n' := by
  induction cs with
  | nil => rfl
  | cons c cs ih =>
    rw [blanked_cons, List.count_append, ih, List.count_cons]
    split
    · next feed => simp [feed, Nat.add_comm]
    · next other => simp [other, List.count_replicate]

theorem isBlank_of_mem_blanked {cs : List Char} : ∀ c ∈ blanked cs, Text.isBlank c = true := by
  intro c held
  obtain ⟨b, -, held⟩ := List.mem_flatMap.mp held
  split at held
  · rw [List.mem_singleton.mp held]
    decide
  · rw [List.eq_of_mem_replicate held]
    decide

theorem trivia_of_isBlank {cs : List Char} (blank : ∀ c ∈ cs, Text.isBlank c = true) :
    Trivia cs := by
  induction cs with
  | nil => exact .nil
  | cons c cs ih =>
    obtain ⟨first, others⟩ := List.forall_mem_cons.mp blank
    exact .blank first (ih others)

theorem trivia_blanked (cs : List Char) : Trivia (blanked cs) :=
  trivia_of_isBlank isBlank_of_mem_blanked

/-- A gap ends with a blank or a slash. -/
theorem Trivia.getLast?_ne_dot {gap : List Char} (trivia : Trivia gap) :
    gap.getLast? ≠ some '.' := by
  have after (front : List Char) {rest : List Char} {e : Char} (other : e ≠ '.')
      (ih : rest.getLast? ≠ some '.') :
      (front ++ e :: rest).getLast? ≠ some '.' := by
    rw [List.getLast?_append, List.getLast?_cons]
    cases last : rest.getLast? with
    | none => simpa using other
    | some l =>
      rw [last] at ih
      simpa using ih
  induction trivia with
  | nil => simp
  | @blank c rest blank _ ih =>
    refine after [] ?_ ih
    rintro rfl
    exact absurd blank (by decide)
  | @line body rest _ _ ih => exact after ('/' :: '/' :: body) (by decide) ih
  | @block body rest _ _ ih =>
    have shape : '/' :: '*' :: (body ++ '*' :: '/' :: rest) =
        '/' :: '*' :: (body ++ ['*']) ++ '/' :: rest := by
      simp
    rw [shape]
    exact after _ (by decide) ih

/-- Gaps that take up the same bytes and lines. -/
structure MatchingGaps (gap gap' : List Char) : Prop where
  left : Trivia gap
  right : Trivia gap'
  width : Text.width gap' = Text.width gap
  lines : gap'.count '\n' = gap.count '\n'
  same : gap' = gap ∨ gap ≠ [] ∧ gap' ≠ []

theorem MatchingGaps.refl {gap : List Char} (trivia : Trivia gap) : MatchingGaps gap gap :=
  ⟨trivia, trivia, rfl, rfl, .inl rfl⟩

/-- A text after a comment comes to a token after matching gaps, or to its end in both. -/
theorem IsComment.matching_or_last {comment after : List Char} (is : IsComment comment after)
    {gap : List Char} (trivia : Trivia gap) :
    (∃ more rest, after = more ++ rest ∧ StartsToken rest ∧
      MatchingGaps (gap ++ (comment ++ more)) (gap ++ (blanked comment ++ more))) ∨
    (LastTrivia (gap ++ (comment ++ after)) ∧ LastTrivia (gap ++ (blanked comment ++ after))) := by
  have nonempty : comment ≠ [] := by cases is <;> simp
  have blanked_nonempty : blanked comment ≠ [] := by
    cases is <;> exact List.cons_ne_nil _ _
  -- the comment with some of the text after it is a gap
  have goes (more : List Char) {rest : List Char} (whole : Trivia (comment ++ more))
      (whole' : Trivia (blanked comment ++ more)) (text : after = more ++ rest) :
      (∃ more rest, after = more ++ rest ∧ StartsToken rest ∧
        MatchingGaps (gap ++ (comment ++ more)) (gap ++ (blanked comment ++ more))) ∨
      (LastTrivia (gap ++ (comment ++ after)) ∧
        LastTrivia (gap ++ (blanked comment ++ after))) := by
    subst text
    rcases exists_trivia rest with ⟨more', rest, rfl, trivia', starts⟩ | last
    · refine .inl ⟨more ++ more', rest, (List.append_assoc ..).symm, starts, ?_⟩
      rw [← List.append_assoc comment, ← List.append_assoc (blanked comment)]
      exact {
        left := trivia.append (whole.append trivia')
        right := trivia.append (whole'.append trivia')
        width := by simp only [Text.width_append, width_blanked]
        lines := by simp only [List.count_append, count_blanked]
        same := .inr ⟨by simp [nonempty], by simp [blanked_nonempty]⟩ }
    · rw [← List.append_assoc comment, ← List.append_assoc (blanked comment)]
      exact .inr ⟨(last.prepend whole).prepend trivia, (last.prepend whole').prepend trivia⟩
  have ends (done : after = []) (last : LastTrivia comment) :
      LastTrivia (gap ++ (comment ++ after)) ∧ LastTrivia (gap ++ (blanked comment ++ after)) := by
    rw [done, List.append_nil, List.append_nil]
    exact ⟨last.prepend trivia, .inl (trivia.append (trivia_blanked comment))⟩
  cases is with
  | @line body after oneLine stops =>
    rcases stops with done | feed
    · exact .inr (ends done (.inr (.inl ⟨[], body, rfl, .nil, oneLine⟩)))
    · obtain ⟨rest, rfl⟩ := List.head?_eq_some_iff.mp feed
      exact goes ['\n'] (.line oneLine .nil)
        ((trivia_blanked _).append (.blank (by decide) .nil)) rfl
  | @block body after free =>
    refine goes [] ?_ ?_ rfl
    · rw [List.append_nil]
      exact .block free .nil
    · rw [List.append_nil]
      exact trivia_blanked _
  | openBlock free => exact .inr (ends rfl (.inr (.inr ⟨[], _, rfl, .nil, free⟩)))

theorem IsComment.partAtSlash {comment after : List Char} (is : IsComment comment after) :
    PartAtSlash (comment ++ after) (blanked comment ++ after) := by
  obtain ⟨more, rfl⟩ : ∃ more, comment = '/' :: more := by cases is <;> exact ⟨_, rfl⟩
  exact .inr ⟨[], more ++ after, blanked more ++ after, rfl, rfl⟩

end Gloss.Host.Comment

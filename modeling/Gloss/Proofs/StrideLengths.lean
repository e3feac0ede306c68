import Gloss.Proofs.StepCases

/-!
# How far a step goes

A step of the walk takes up its current token, and no more tokens than there are
(`Walk.step_covers`). A clause is read from position to position: each part of it ends no earlier
than it starts, and not past the end of the tokens (`Clause.Advances`).
-/

namespace Gloss

open Token (Seated)

theorem Token.lt_of_any {us : List Seated} {position : Nat} {f : Seated → Bool}
    (here : us[position]?.any f = true) : position < us.length := by
  obtain ⟨t, found, -⟩ := (Option.any_eq_true _ _).mp here
  exact (List.getElem?_eq_some_iff.mp found).1

/-! ## Clauses -/

/-- The brace that closes a list is one of the tokens that are read. -/
theorem NameList.read_bounds (position : Nat) (us : List Seated) :
    ∀ close ∈ (read position us).1, position ≤ close ∧ close < position + us.length := by
  fun_induction read position us with
  | case1 | case2 => simp
  | case3 position t rest close skip ih | case4 position t rest close skip modifier ih
  | case6 position t rest close skip modifier none tail ih =>
    intro last found
    have := ih last found
    rw [List.length_cons]
    omega
  | case5 position t rest close skip modifier name found tail ih =>
    intro last found'
    obtain ⟨joint, more, rfl, -⟩ := exists_of_alias? found
    have := ih last found'
    simp only [List.length_cons, List.drop_succ_cons, List.drop_zero] at this ⊢
    omega

namespace Clause

/-- From a position to a later one or the same, and not past the end. -/
def Advances (us : List Seated) (position next : Nat) : Prop :=
  position ≤ next ∧ next ≤ us.length

variable {us : List Seated} {position next last : Nat}

theorem Advances.refl (inside : position ≤ us.length) : Advances us position position :=
  ⟨Nat.le_refl _, inside⟩

theorem Advances.trans (first : Advances us position next) (second : Advances us next last) :
    Advances us position last :=
  ⟨Nat.le_trans first.1 second.1, second.2⟩

/-- Over a token that is there. -/
theorem Advances.of_lt (le : position ≤ next) (inside : next < us.length) :
    Advances us position (next + 1) :=
  ⟨Nat.le_succ_of_le le, inside⟩

theorem lt_of_textAt {text : String} (here : textAt us position = text) (some_ : text ≠ "") :
    position < us.length := by
  by_contra out
  rw [textAt, List.getElem?_eq_none (Nat.not_lt.mp out)] at here
  exact some_ here.symm

theorem le_module? (us : List Seated) (position : Nat) : position ≤ (module? us position).2 := by
  unfold module?
  split
  · split <;> simp
  · exact Nat.le_refl _

theorem module?_advances (inside : position ≤ us.length) :
    Advances us position (module? us position).2 := by
  refine ⟨le_module? us position, ?_⟩
  unfold module?
  split
  · next joint =>
    split
    · next string => exact Token.lt_of_any string
    · exact lt_of_textAt joint (by decide)
  · exact inside

theorem braces_advances (inside : position < us.length) :
    Advances us (position + 1) (braces us position).next := by
  unfold braces
  dsimp only
  cases closed : (NameList.read (position + 1) ((us.drop position).drop 1)).1 with
  | none =>
    rw [Option.getD_none]
    exact ⟨by omega, by omega⟩
  | some close =>
    have := NameList.read_bounds _ _ close closed
    rw [List.drop_drop, List.length_drop] at this
    rw [Option.getD_some]
    exact ⟨by omega, by omega⟩

theorem bracesAt_advances (inside : position ≤ us.length) :
    Advances us position (bracesAt us position).next := by
  unfold bracesAt
  split
  · next opens =>
    have inside := Token.lt_of_any opens
    exact (Advances.of_lt (Nat.le_refl _) inside).trans (braces_advances inside)
  · exact .refl inside

theorem defaultName_advances (inside : position ≤ us.length) :
    Advances us position (defaultName us position).2 := by
  unfold defaultName
  split
  · next name =>
    dsimp only
    split
    · next comma => exact .of_lt (Nat.le_succ position) (Token.lt_of_any comma)
    · exact .of_lt (Nat.le_refl _) (Token.lt_of_any name.1)
  · exact .refl inside

theorem namespaceName_advances (inside : position ≤ us.length) :
    Advances us position (namespaceName us position).2 := by
  unfold namespaceName
  split
  · next star =>
    dsimp only
    generalize start : (if textAt us (position + 1) = "as" then position + 2 else position + 1) = n
    have first : Advances us position n := by
      split at start
      · next joint => exact start ▸ .of_lt (Nat.le_succ position) (lt_of_textAt joint (by decide))
      · exact start ▸ .of_lt (Nat.le_refl _) (Token.lt_of_any star)
    split
    · next name => exact .of_lt first.1 (Token.lt_of_any name)
    · exact first
  · exact .refl inside

theorem importStart_advances (some_ : 0 < us.length) : Advances us 1 (importStart us) := by
  unfold importStart
  split
  · next modifier => exact ⟨Nat.le_succ 1, Nat.le_of_lt (Token.lt_of_any modifier.2)⟩
  · exact .refl some_

theorem readImport_advances (some_ : 0 < us.length) : Advances us 1 (readImport us).length := by
  have start := importStart_advances some_
  unfold readImport
  dsimp only
  split
  · next string => exact .of_lt start.1 (Token.lt_of_any string)
  · have single := start.trans (defaultName_advances start.2)
    have whole := single.trans (namespaceName_advances single.2)
    have list := whole.trans (bracesAt_advances whole.2)
    exact list.trans (module?_advances list.2)

theorem readExport_advances (opens : punctAt us position "\x7b" = true) :
    Advances us 1 (readExport us position).length := by
  have list := braces_advances (Token.lt_of_any opens)
  have whole := list.trans (module?_advances list.2)
  exact ⟨Nat.le_trans (Nat.succ_pos position) whole.1, whole.2⟩

end Clause

/-! ## Steps -/

/-- The step takes up the current token, and no more tokens than there are. -/
def Place.Covers (p : Place) (s : Stride) : Prop := 0 < s.length ∧ s.length ≤ p.tokens.length

theorem Place.Covers.of_one {p : Place} {s : Stride} (one : s.length = 1) : p.Covers s := by
  rw [Covers, one]
  exact ⟨Nat.one_pos, Nat.succ_pos _⟩

namespace Walk

variable {w : Walk} {p : Place} {s : Stride}

theorem punctAt_of_exportBrace? {position : Nat} (found : exportBrace? p = some position) :
    Clause.punctAt p.tokens position "\x7b" = true := by
  unfold exportBrace? at found
  split at found
  · next opens => exact Option.some.inj found ▸ opens
  split at found
  · next opens => exact Option.some.inj found ▸ opens.2
  · cases found

theorem ReadsPlain.covers (reads : w.ReadsPlain p s) : p.Covers s := by
  cases reads with
  | still | declares | comma | paren | square | body | block | closing | arrow => exact .of_one rfl
  | function _ _ more _ _ first | heading _ _ more _ _ _ first =>
    exact ⟨Nat.succ_pos _, Nat.succ_le_succ first.length_le⟩
  | imports => exact Clause.readImport_advances (Nat.succ_pos _)
  | exports position _ _ found =>
    exact Clause.readExport_advances (punctAt_of_exportBrace? found)

theorem ReadsHead.covers {owner : String} (reads : w.ReadsHead p owner s) : p.Covers s := by
  obtain ⟨mods, t, sign, rest, params, binding, -, split, -⟩ := reads
  rw [Place.Covers, split]
  simp only [List.length_append, List.length_cons]
  omega

variable (w : Walk) (p : Place)

/-- Every step of the walk takes up a token, and no more tokens than there are. -/
theorem step_covers : p.Covers (w.step p) := by
  have reads := w.step_reads p
  generalize w.step p = s at reads
  cases reads with
  | head _ _ _ reads | plain _ _ reads | inner _ _ _ _ _ _ reads => exact reads.covers
  | param => exact .of_one rfl

theorem step_length_pos : 0 < (w.step p).length := (w.step_covers p).1

/-- The tokens after the current one are those that the step takes up too and those that it
leaves. -/
theorem exists_more : ∃ more later, p.rest = more ++ later ∧
    (w.step p).length = more.length + 1 := by
  obtain ⟨pos, le⟩ := w.step_covers p
  rw [p.length_tokens] at le
  refine ⟨p.rest.take ((w.step p).length - 1), p.rest.drop ((w.step p).length - 1),
    (List.take_append_drop ..).symm, ?_⟩
  rw [List.length_take]
  omega

end Walk

theorem Outline.walk_length_pos (w : Walk) (number : Nat) (prev : Option Seated)
    (us : List Seated) : ∀ s ∈ walk w number prev us, 0 < s.stride.length := by
  fun_induction walk w number prev us with
  | case1 =>
    intro s held
    cases held
  | case2 w number prev t rest place stride more ih =>
    intro s held
    rcases List.mem_cons.mp held with rfl | held
    · exact w.step_length_pos place
    · exact ih s held

end Gloss

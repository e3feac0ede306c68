import Gloss.Proofs.Harmless
import Gloss.Proofs.Retention

/-!
# Bare words

An introducer with an identifier right after it is a bare word, unless a full stop stands before it.
Where a class body expects a member it is a private name, and everywhere else an annotation
(`Note.scan_bareWord`). Nothing else at an introducer depends on class bodies
(`Note.scan_of_not_bareWord`).

So two readers that know of other brackets and other class heads read a token alike, unless it is a
bare word, and they read it alike exactly when both expect a member there or neither does
(`Piece.retains_iff_suits`).
-/

namespace Gloss

open Host

/-- An introducer stands at the cursor with an identifier right after it, and no full stop before
it. -/
structure Dialect.BareWord (d : Dialect) (c : Cursor) : Prop where
  stop : c.prev ≠ some '.'
  word : ∃ letter rest, c.rest = d.introducer :: letter :: rest ∧
    isIdentifierStart letter = true ∧ d.disambiguator ≠ some letter

/-- A bare word is an annotation exactly where no member is expected. -/
def Suits (d : Dialect) (ctx : Context) (c : Cursor) (t : Token) : Prop :=
  d.BareWord c → (t.isNote = true ↔ ctx.atMemberStart = false)

namespace Note

variable {d : Dialect} {c : Cursor} {letter : Char} {rest : List Char}

theorem wordOpening_of_ne (here : c.rest = d.introducer :: letter :: rest)
    (other : d.disambiguator ≠ some letter) : wordOpening d c = 1 := by
  rw [wordOpening, here]
  cases mark : d.disambiguator with
  | none => rfl
  | some mark =>
    rw [mark, Ne, Option.some.injEq] at other
    exact if_neg other

/-- In front of an identifier an introducer starts a word, unless it starts the first line. -/
theorem scan_of_isIdentifierStart (inside : c.offset ≠ 0)
    (here : c.rest = d.introducer :: letter :: rest) (word : isIdentifierStart letter = true)
    (memberStart : Bool) : scan d memberStart c = scanWord d memberStart c := by
  have part := isIdentifierPart_of_start word
  have bracket : Bracket.ofOpening? letter = none := by
    rw [Option.eq_none_iff_forall_ne_some]
    intro b opens
    obtain rfl := Bracket.ofOpening?_eq_some.mp opens
    cases b <;> exact absurd part (by decide)
  unfold scan
  simp [here, inside, bracket, isQuote_of_isIdentifierPart part]

/-- Where a member is expected, an identifier right after the introducer is no annotation. -/
theorem scan_eq_plain (inside : c.offset ≠ 0) (here : c.rest = d.introducer :: letter :: rest)
    (word : isIdentifierStart letter = true) (other : d.disambiguator ≠ some letter) :
    scan d true c = .plain := by
  rw [scan_of_isIdentifierStart inside here word, scanWord, wordOpening_of_ne here other, here]
  simp [word]

/-- A bare word is an annotation unless a member is expected. -/
theorem scan_bareWord (inside : c.offset ≠ 0) (bare : d.BareWord c) :
    scan d true c = .plain ∧ ∃ a length, scan d false c = .found a length := by
  obtain ⟨letter, rest, here, word, other⟩ := bare.word
  refine ⟨scan_eq_plain inside here word other, ?_⟩
  have opening := wordOpening_of_ne here other
  rw [scan_of_isIdentifierStart inside here word]
  exact ⟨_, _, scanWord_eq_found.mpr ⟨letter, rest, by rw [opening, here]; rfl,
    .inl ⟨word, bare.stop, by simp, rfl⟩⟩⟩

theorem scanWord_of_not_bareWord (bare : ¬ d.BareWord c) (first : c.rest.head? = some d.introducer)
    (memberStart : Bool) : scanWord d memberStart c = scanWord d false c := by
  unfold scanWord
  split
  · rfl
  next letter rest after =>
  split
  · next word =>
    split
    · rfl
    next stop =>
    rw [if_neg, if_neg (by simp)]
    rintro ⟨-, opening⟩
    obtain ⟨more, text⟩ := List.head?_eq_some_iff.mp first
    rw [opening, text, List.drop_one, List.tail_cons] at after
    subst after
    refine bare ⟨stop, letter, rest, text, word, fun mark => ?_⟩
    rw [wordOpening, text, mark] at opening
    simp at opening
  · rfl

/-- What stands at an introducer does not depend on class bodies, unless it is a bare word. -/
theorem scan_of_not_bareWord (bare : ¬ d.BareWord c) (memberStart : Bool) :
    scan d memberStart c = scan d false c := by
  unfold scan
  split
  · rfl
  next first more text =>
  split
  · rfl
  next intro =>
  have first : c.rest.head? = some d.introducer := by
    rw [text, List.head?_cons, not_not.mp intro]
  rw [scanWord_of_not_bareWord bare first memberStart]

end Note

section Piece

variable {d : Dialect} {ctx ctx' : Context} {c c' : Cursor} {newlines : Nat} {ch : Char}
  {rest : List Char}

/-- A token that is a bare word is retained exactly when it is what a bare word is there. -/
theorem retains_iff_of_bareWord {t : Token} (bare : d.BareWord c) (inside : c.offset ≠ 0)
    (first : t.isNote = false → t.text.toList.head? = some d.introducer) :
    Retains d ctx c t ↔ (t.isNote = true ↔ ctx.atMemberStart = false) := by
  obtain ⟨plain, a, length, found⟩ := Note.scan_bareWord inside bare
  cases note : t.isNote with
  | true =>
    rw [retains_note note]
    cases ctx.atMemberStart with
    | true => simp [plain]
    | false => exact iff_of_true ⟨a, length, found⟩ (by simp)
  | false =>
    have first := first note
    rw [retains_host note, Keeps]
    cases ctx.atMemberStart with
    | true =>
      refine iff_of_true ⟨fun _ => by rw [plain]; rfl, fun slash other => ?_⟩ (by simp)
      rw [slash] at first
      exact absurd (Option.some.inj first).symm other
    | false =>
      refine iff_of_false (fun kept => ?_) (by simp)
      have host := kept.1 first
      rw [found] at host
      cases host

/-- A reader that knows of other brackets and class heads retains a token of the same text exactly
when the token, if it is a bare word, is what a bare word is there. -/
theorem Piece.retains_iff_suits (alike : ctx.Alike ctx') (place : c.Alike c')
    (here : c.rest = ch :: rest) (here' : c'.rest = ch :: rest) (inside : c'.offset ≠ 0)
    (whole : (read d ctx c newlines ch rest).1.isTorn = false) :
    Retains d (ctx'.afterGap newlines) c' (read d ctx c newlines ch rest).1.token ↔
      Suits d (ctx'.afterGap newlines) c' (read d ctx c newlines ch rest).1.token := by
  have isNote := isNote_read d ctx c newlines ch rest
  by_cases bare : d.BareWord c'
  · obtain ⟨letter, more, text, -⟩ := bare.word
    obtain ⟨rfl, rfl⟩ := List.cons.inj (here'.symm.trans text)
    rw [Suits, forall_prop_of_true bare]
    refine retains_iff_of_bareWord bare inside fun host => ?_
    rw [isNote, Option.isSome_eq_false_iff, Option.isNone_iff_eq_none] at host
    obtain ⟨w, tail, parts, length⟩ := exists_append_of_host host
    rw [parts] at here host length ⊢
    rw [text_read here host length, String.toList_ofList]
    rfl
  · refine iff_of_true ?_ fun bare' => absurd bare' bare
    have same (memberStart memberStart' : Bool) :
        Note.scan d memberStart c' = Note.scan d memberStart' c' := by
      rw [Note.scan_of_not_bareWord bare, ← Note.scan_of_not_bareWord bare]
    cases note : (read d ctx c newlines ch rest).1.note? with
    | some a =>
      rw [note] at isNote
      obtain ⟨-, length, found⟩ := scan_of_note note
      have again := Note.scan_found_of_alike place (here'.trans here.symm) found
      rw [same _ (ctx'.afterGap newlines).atMemberStart] at again
      exact (retains_note isNote).mpr ⟨a, length, again⟩
    | none =>
      rw [note] at isNote
      have kept := keeps_of_same place here here' note whole
      rw [retains_host isNote]
      have last : (ctx'.afterGap newlines).last = (ctx.afterGap newlines).last := alike.last
      rw [Keeps, last, same _ (ctx.afterGap newlines).atMemberStart]
      exact kept

end Piece

end Gloss

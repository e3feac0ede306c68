import Gloss.Proofs.Spelling

/-!
# Blocks and quotes without their surroundings

A block or a quoted annotation is closed by its own last character. The reader of its body looks
back no further than the opening, and forward no further than the closing, so that the annotation
is read again wherever its text stands (`Note.scan_detached`). Only the start of a file is special:
there a hashbang marker takes the place of the opening.
-/

namespace Gloss

open Host

/-- The annotation with its spans moved, so that it starts at the given offset. -/
def Note.moveTo (start : Nat) (a : Note) : Note where
  span := ⟨start, start + (a.span.stop - a.span.start)⟩
  form := a.form
  payload := a.payload
  payloadSpan :=
    ⟨start + (a.payloadSpan.start - a.span.start), start + (a.payloadSpan.stop - a.span.start)⟩
  marker := a.marker

/-- Written in brackets or in quotes. -/
def Note.IsEnclosed (a : Note) : Prop :=
  (∃ own, a.form = .block own) ∨ ∃ quote, a.form = .quoted quote

/-- No hashbang line starts with the text after the first one: either it is not at the start of the
file, or its second character is no marker. -/
def Dialect.KeepsOff (d : Dialect) (before text : List Char) : Prop :=
  before ≠ [] ∨ ∀ mark, d.hashbang = some mark → (text.drop 1).head? ≠ some mark

namespace Note

variable {d : Dialect} {memberStart : Bool} {a : Note} {length : Nat}
  {before before' payload after after' : List Char} {own : Bracket} {quote : Char}

theorem moveTo_ofParts (before before' : List Char) (form : Form)
    (opening payload closing : List Char) (marker : Option Marker) :
    (ofParts before form opening payload closing marker).moveTo (Text.width before') =
      ofParts before' form opening payload closing marker := by
  have shift (n : Nat) : Text.width before + n - Text.width before = n := Nat.add_sub_cancel_left ..
  simp only [moveTo, ofParts, Text.width_append, Nat.add_assoc, shift]

/-- What is found in brackets was found by the reader of blocks, with no marker before it. -/
theorem scanBlock_of_scan {c : Cursor} {more : List Char}
    (text : c.rest = d.introducer :: own.opening :: more) (accepted : d.acceptsBlock own = true)
    (found : scan d memberStart c = .found a length) (form : a.form = .block own) :
    scanBlock d own c = .found a length := by
  by_cases mark : c.offset = 0 ∧ d.hashbang = some own.opening
  · rw [scan_cons text, if_pos mark, scanHashbang] at found
    split at found
    · cases found
    · obtain ⟨rfl, -⟩ := Scan.found.inj found
      cases form
  · rwa [scan_eq_scanBlock text accepted mark] at found

theorem scan_eq_scanQuoted {c : Cursor} {more : List Char}
    (text : c.rest = d.introducer :: quote :: more) (quoted : d.quotedBlocks = true)
    (isQuote : isQuote quote = true) (noHashbang : ¬ (c.offset = 0 ∧ d.hashbang = some quote)) :
    scan d memberStart c = scanQuoted quote c := by
  have noBlock : Bracket.ofOpening? quote = none := by
    simp only [Host.isQuote, Bool.or_eq_true, beq_iff_eq] at isQuote
    rcases isQuote with (rfl | rfl) | rfl <;> rfl
  rw [scan_cons text, if_neg noHashbang, noBlock]
  exact if_pos ⟨quoted, isQuote⟩

/-- What is found in quotes was found by the reader of quotes, with no marker before it. -/
theorem scanQuoted_of_scan {c : Cursor} {more : List Char}
    (text : c.rest = d.introducer :: quote :: more) (quoted : d.quotedBlocks = true)
    (isQuote : Host.isQuote quote = true) (found : scan d memberStart c = .found a length)
    (form : a.form = .quoted quote) : scanQuoted quote c = .found a length := by
  by_cases mark : c.offset = 0 ∧ d.hashbang = some quote
  · rw [scan_cons text, if_pos mark, scanHashbang] at found
    split at found
    · cases found
    · obtain ⟨rfl, -⟩ := Scan.found.inj found
      cases form
  · rwa [scan_eq_scanQuoted text quoted isQuote mark] at found

/-- A block is closed again between other texts. -/
theorem scanBlock_detached
    (found : scanBlock d own (.between before ([d.introducer, own.opening] ++
      (payload ++ ([own.closing] ++ after)))) = .found a (payload.length + 3)) :
    scanBlock d own (.between before' ([d.introducer, own.opening] ++
        (payload ++ ([own.closing] ++ after')))) =
      .found (ofParts before' (.block own) [d.introducer, own.opening] payload [own.closing] none)
        (payload.length + 3) := by
  have body (before after : List Char) :
      ((Cursor.between before ([d.introducer, own.opening] ++
        (payload ++ ([own.closing] ++ after)))).advance 2).rest =
        payload ++ [own.closing] ++ after := by
    simp
  have prev (before after : List Char) :
      ((Cursor.between before ([d.introducer, own.opening] ++
        (payload ++ ([own.closing] ++ after)))).advance 2).prev = some own.opening := by
    simp [Cursor.advance_prev]
  unfold scanBlock at found ⊢
  split at found
  · cases found
  next deep =>
  rw [if_neg deep]
  split at found
  · next size closed =>
    obtain rfl : size = payload.length := by
      have total := (Scan.found.inj found).2
      omega
    rw [Block.close_append closed (body before after) (by simp)
      ((prev before' after').trans (prev before after).symm) (body before' after')]
    dsimp only
    have cut := cut_between before' [d.introducer, own.opening] payload [own.closing] after'
      (.block own) none
    simp only [List.length_cons, List.length_nil, Nat.zero_add, Nat.reduceAdd] at cut
    rw [cut, Nat.add_right_comm, Nat.add_comm 3]
  · cases found

/-- Quotes are closed again between other texts. -/
theorem scanQuoted_detached
    (found : scanQuoted quote (.between before ([d.introducer, quote] ++
      (payload ++ ([quote] ++ after)))) = .found a (payload.length + 3)) :
    scanQuoted quote (.between before' ([d.introducer, quote] ++
        (payload ++ ([quote] ++ after')))) =
      .found (ofParts before' (.quoted quote) [d.introducer, quote] payload [quote] none)
        (payload.length + 3) := by
  have body (before after : List Char) :
      (Cursor.between before ([d.introducer, quote] ++
          (payload ++ ([quote] ++ after)))).rest.drop 1 =
        quote :: (payload ++ [quote] ++ after) := by
    simp
  unfold scanQuoted at found ⊢
  rw [body] at found ⊢
  split at found
  · cases found
  · cases found
  · next size closed =>
    have whole : size = (payload ++ [quote]).length + 1 := by
      have two := Literal.two_le_of_extent? closed
      have total := (Scan.found.inj found).2
      rw [List.length_append, List.length_singleton]
      omega
    rw [whole] at closed
    rw [Literal.extent?_closed_append closed after']
    have cut := cut_between before' [d.introducer, quote] payload [quote] after' (.quoted quote)
      none
    simp only [List.length_cons, List.length_nil, Nat.zero_add, Nat.reduceAdd] at cut
    have inner : (payload ++ [quote]).length + 1 - 2 = payload.length := by
      rw [List.length_append, List.length_singleton]
      omega
    simp only [inner, cut]
    rw [Nat.add_right_comm, Nat.add_comm 3]

theorem slice?_ofParts (before opening payload closing after : List Char) (form : Form)
    (marker : Option Marker) :
    (ofParts before form opening payload closing marker).span.slice?
        (String.ofList (before ++ (opening ++ (payload ++ (closing ++ after))))) =
      some (String.ofList (opening ++ payload ++ closing)) := by
  have slice := Text.slice?_append before (opening ++ payload ++ closing) after
  rw [← Text.width_append] at slice
  simp only [List.append_assoc] at slice ⊢
  simp only [Span.slice?, ofParts, String.toList_ofList, List.append_assoc, slice, Option.map_some]

/-- No marker of a hashbang line follows the introducer at the start of the file. -/
theorem noHashbang_of_keepsOff {mark : Char} {text : List Char} (keepsOff : d.KeepsOff before text)
    (second : (text.drop 1).head? = some mark) (rest : List Char) :
    ¬ ((Cursor.between before rest).offset = 0 ∧ d.hashbang = some mark) := by
  rintro ⟨zero, set⟩
  rcases keepsOff with inside | off
  · have short := Text.length_le_width before
    rw [Cursor.between_offset] at zero
    exact inside (List.length_eq_zero_iff.mp (by omega))
  · exact off mark set second

/-- A block or a quoted annotation is found again wherever its text stands, moved to there, unless
its second character makes it a hashbang line at the start of a file. -/
theorem scan_detached {d : Dialect} {memberStart : Bool} {before rest : List Char} {a : Note}
    {length : Nat} (found : scan d memberStart (.between before rest) = .found a length)
    (enclosed : a.IsEnclosed) {text : List Char}
    (slice : a.span.slice? (String.ofList (before ++ rest)) = some (String.ofList text))
    {before' : List Char} (keepsOff : d.KeepsOff before' text) (after' : List Char)
    (memberStart' : Bool) :
    scan d memberStart' (.between before' (text ++ after')) =
      .found (a.moveTo (Text.width before')) length := by
  obtain ⟨opening, payload, closing, after, here, spells, parts, rfl⟩ := spelledAt_of_scan found
  rw [Cursor.between_rest] at here
  subst here
  rw [cut_between] at parts
  rw [parts, slice?_ofParts, Option.some.injEq, String.ofList_inj] at slice
  have moved : a.moveTo (Text.width before') =
      ofParts before' a.form opening payload closing a.marker := by
    rw [parts, moveTo_ofParts]
    rfl
  have whole (after : List Char) :
      opening ++ payload ++ closing ++ after = opening ++ (payload ++ (closing ++ after)) := by
    simp only [List.append_assoc]
  rw [moved, ← slice, whole]
  rw [← slice] at keepsOff
  have size {opening closing : List Char} (two : opening.length = 2) (one : closing.length = 1) :
      opening.length + payload.length + closing.length = payload.length + 3 := by
    omega
  generalize form : a.form = f at spells
  generalize a.marker = marker at spells
  cases spells with
  | @block own _ _ accepted =>
    rw [size rfl rfl] at found ⊢
    have inside := scanBlock_of_scan (Cursor.between_rest ..) accepted found form
    have off := noHashbang_of_keepsOff keepsOff rfl
      ([d.introducer, own.opening] ++ (payload ++ ([own.closing] ++ after')))
    exact (scan_eq_scanBlock (Cursor.between_rest ..) accepted off).trans
      (scanBlock_detached inside)
  | @quoted quote _ _ quoted isQuote =>
    rw [size rfl rfl] at found ⊢
    have inside := scanQuoted_of_scan (Cursor.between_rest ..) quoted isQuote found form
    have off := noHashbang_of_keepsOff keepsOff rfl
      ([d.introducer, quote] ++ (payload ++ ([quote] ++ after')))
    exact (scan_eq_scanQuoted (Cursor.between_rest ..) quoted isQuote off).trans
      (scanQuoted_detached inside)
  | hashbang | word | special => simp [IsEnclosed, form] at enclosed

theorem scan_detached_literal :
    scan .hash false (.between "x ".toList "#<'>' => y>.z".toList) =
        .found (ofParts "x ".toList (.block .angle) ['#', '<'] "'>' => y".toList ['>'] none) 11 ∧
      (ofParts "x ".toList (.block .angle) ['#', '<'] "'>' => y".toList ['>'] none).IsEnclosed ∧
      (ofParts "x ".toList (.block .angle) ['#', '<'] "'>' => y".toList ['>'] none).span.slice?
          (String.ofList ("x ".toList ++ "#<'>' => y>.z".toList)) =
        some (String.ofList "#<'>' => y>".toList) ∧
      Dialect.hash.KeepsOff [] "#<'>' => y>".toList ∧
      scan .hash true (.between [] ("#<'>' => y>".toList ++ ">'".toList)) =
        .found ((ofParts "x ".toList (.block .angle) ['#', '<'] "'>' => y".toList ['>'] none).moveTo
          (Text.width [])) 11 := by
  have found : scan .hash false (.between "x ".toList "#<'>' => y>.z".toList) =
      .found (ofParts "x ".toList (.block .angle) ['#', '<'] "'>' => y".toList ['>'] none) 11 := by
    decide +kernel
  have slice : (ofParts "x ".toList (.block .angle) ['#', '<'] "'>' => y".toList ['>']
      none).span.slice? (String.ofList ("x ".toList ++ "#<'>' => y>.z".toList)) =
        some (String.ofList "#<'>' => y>".toList) :=
    slice?_ofParts "x ".toList ['#', '<'] "'>' => y".toList ['>'] ".z".toList _ none
  have keepsOff : Dialect.hash.KeepsOff [] "#<'>' => y>".toList := by
    refine .inr ?_
    rintro mark ⟨rfl⟩
    decide
  exact ⟨found, .inl ⟨_, rfl⟩, slice, keepsOff,
    scan_detached found (.inl ⟨_, rfl⟩) slice keepsOff ">'".toList true⟩

end Note

end Gloss

import Gloss.Proofs.MemberAccess

/-!
# Characters with two meanings

A valid dialect introduces annotations with a character that is no bracket, no quote and no blank.
It may still give a character two meanings (`Dialect.Apart`): a dollar sign belongs to identifiers,
a special character can be the disambiguator or open a quoted block, and a carriage return can mark
a hashbang line that it ends at once.

`Dialect.works_iff` says that these are the only ways in which a valid dialect can fail: without
them the introducer is no part of a word, every special character is an annotation by itself, and
every hashbang line is one with the rest of its line.
-/

namespace Gloss

open Host

namespace Dialect

/-- What a dialect is meant for. Its introducer is plain, a special character right after it is an
annotation, and a hashbang marker at the start of a text makes one of the line. -/
structure Works (d : Dialect) : Prop where
  bracket : Bracket.isBracket d.introducer = false
  quote : isQuote d.introducer = false
  visible : Text.isBlank d.introducer = false
  foreign : isIdentifierPart d.introducer = false
  special : ∀ c ∈ d.specials, ∀ memberStart before rest, before ≠ [] →
    ∃ a length, Note.scan d memberStart (.between before (d.introducer :: c :: rest)) =
        .found a length ∧
      a.form = .special ∧ a.payload = String.ofList [c]
  hashbang : ∀ mark, d.hashbang = some mark → ∀ memberStart rest,
    ∃ a length, Note.scan d memberStart (.start (d.introducer :: mark :: rest)) =
        .found a length ∧
      a.form = .hashbang ∧
      ∃ payload after, rest = payload ++ after ∧ LineBody payload after ∧
        a.payload = String.ofList payload

/-- No character has two meanings. -/
structure Apart (d : Dialect) : Prop where
  introducer : d.introducer ≠ '$'
  identifier : '$' ∉ d.specials
  disambiguator : ∀ c ∈ d.specials, d.disambiguator ≠ some c
  quote : d.quotedBlocks = true → ∀ c ∈ d.specials, isQuote c = false
  hashbang : d.hashbang ≠ some '\r'

/-- A special character is an annotation in front of the text: it starts no identifier and no quoted
block, and when it is the disambiguator it comes twice. -/
structure SpecialStands (d : Dialect) (c : Char) (rest : List Char) : Prop where
  identifier : c ≠ '$'
  quote : ¬ (d.quotedBlocks = true ∧ isQuote c = true)
  disambiguator : d.disambiguator = some c → rest.head? = some c

variable {d : Dialect} {c : Char}

/-! ## The characters of a valid dialect -/

/-- Of the characters of an identifier only the dollar sign may introduce annotations. -/
theorem Valid.isIdentifierPart_iff (valid : d.Valid) :
    isIdentifierPart d.introducer = true ↔ d.introducer = '$' := by
  obtain ⟨-, -, plain, -⟩ := valid_iff.mp valid
  simp only [clashesAsIntroducer, Bool.or_eq_false_iff] at plain
  obtain ⟨⟨⟨-, foreign⟩, underscore⟩, -⟩ := plain
  simp [isIdentifierPart, foreign, underscore]

/-- Of the characters that start an identifier only the dollar sign may be special. -/
theorem Valid.isIdentifierStart_iff (valid : d.Valid) (held : c ∈ d.specials) :
    isIdentifierStart c = true ↔ c = '$' := by
  obtain ⟨-, -, -, plain⟩ := valid_iff.mp valid
  have plain := plain c held
  simp only [clashesAsSpecial, Bool.or_eq_false_iff, Text.isAlphanumeric] at plain
  obtain ⟨⟨-, letter, -⟩, underscore⟩ := plain
  simp [isIdentifierStart, letter, underscore]

/-- A special character opens no bracket. -/
theorem Valid.ne_opening (valid : d.Valid) (held : c ∈ d.specials) (own : Bracket) :
    c ≠ own.opening := by
  intro opens
  obtain ⟨-, -, -, plain⟩ := valid_iff.mp valid
  have plain := plain c held
  rw [opens] at plain
  cases own <;> exact absurd plain (by decide)

end Dialect

namespace Note

variable {d : Dialect} {memberStart : Bool} {c : Char} {before rest : List Char}

/-! ## Special characters -/

/-- What is found at a special character says this character. -/
theorem payload_of_flagged {place : Cursor} {opening length : Nat} {x : Char} {more : List Char}
    {a : Note} (text : place.rest.drop opening = x :: more)
    (found : flagged place .special opening 1 = .found a length) :
    a.form = .special ∧ a.payload = String.ofList [x] := by
  obtain ⟨rfl, -⟩ := Scan.found.inj found
  refine ⟨rfl, ?_⟩
  simp only [cut, Cursor.lexeme, Cursor.advance_rest, text]
  rfl

/-- Right after the introducer a special character is an annotation exactly when it stands for
nothing else. -/
theorem exists_scan_special_iff (valid : d.Valid) (held : c ∈ d.specials) (later : before ≠ []) :
    (∃ a length, scan d memberStart (.between before (d.introducer :: c :: rest)) =
        .found a length ∧ a.form = .special ∧ a.payload = String.ofList [c]) ↔
      d.SpecialStands c rest := by
  have here := Cursor.between_rest before (d.introducer :: c :: rest)
  have start := valid.isIdentifierStart_iff held
  obtain ⟨opening, left, text, size, opens⟩ := exists_opensWord here
  have dropped : (Cursor.between before (d.introducer :: c :: rest)).rest.drop
      (wordOpening d (.between before (d.introducer :: c :: rest))) = left := by
    rw [text, ← size, List.drop_left]
  rw [here] at text
  constructor
  · intro marked
    obtain ⟨a, length, found, form, payload⟩ := marked
    have alone := wordAt_of_scan found (.inr form)
    rw [scan_eq_scanWord alone] at found
    obtain ⟨x, more, after, forms⟩ := scanWord_eq_found.mp found
    rcases forms with ⟨-, -, -, word⟩ | ⟨other, -, special⟩
    · obtain ⟨rfl, -⟩ := Scan.found.inj word
      cases form
    · obtain ⟨-, payload'⟩ := payload_of_flagged after special
      have same : [x] = [c] := String.ofList_injective (payload'.symm.trans payload)
      obtain rfl : x = c := List.singleton_inj.mp same
      obtain rfl := dropped.symm.trans after
      refine ⟨fun dollar => ?_, alone.quoted x rfl, fun set => ?_⟩
      · rw [start.mpr dollar] at other
        cases other
      · cases opens with
        | bare off => exact absurd rfl (off x set)
        | marked =>
          obtain ⟨-, rfl⟩ := List.cons.inj (List.cons.inj text).2
          rfl
  · intro stands
    have alone : d.WordAt before (c :: rest) := by
      refine ⟨?_, ?_, ?_⟩
      · intro ch _ first
        exact later first.1
      · intro own first
        exact absurd (Option.some.inj first) (valid.ne_opening held own)
      · intro ch first
        obtain rfl := Option.some.inj first
        exact stands.quote
    have other : isIdentifierStart c = false :=
      Bool.eq_false_iff.mpr fun word => stands.identifier (start.mp word)
    have special : d.isSpecial c = true := List.contains_iff_mem.mpr held
    obtain ⟨more, rfl⟩ : ∃ more, left = c :: more := by
      cases opens with
      | bare => exact ⟨rest, (List.cons.inj text).2.symm⟩
      | marked set =>
        obtain ⟨rfl, rfl⟩ := List.cons.inj (List.cons.inj text).2
        exact List.head?_eq_some_iff.mp (stands.disambiguator set)
    rw [scan_eq_scanWord alone]
    refine ⟨_, _, scanWord_eq_found.mpr ⟨c, more, dropped, .inr ⟨other, special, rfl⟩⟩, ?_⟩
    exact payload_of_flagged dropped rfl

/-! ## Hashbang lines -/

theorem endsLine_iff : EndsLine rest ↔ rest.takeWhile (· ≠ '\n') = [] := by
  cases rest with
  | nil => simp [EndsLine]
  | cons c rest => simp [EndsLine, List.takeWhile_cons]

/-- At the start of a text the hashbang marker makes an annotation of the line, unless it is the
carriage return that ends the line. -/
theorem exists_scan_hashbang_iff {mark : Char} (set : d.hashbang = some mark) :
    (∃ a length, scan d memberStart (.start (d.introducer :: mark :: rest)) = .found a length ∧
        a.form = .hashbang ∧ ∃ payload after, rest = payload ++ after ∧ LineBody payload after ∧
          a.payload = String.ofList payload) ↔
      ¬ (mark = '\r' ∧ EndsLine rest) := by
  have scanned : scan d memberStart (.start (d.introducer :: mark :: rest)) =
      scanHashbang mark (.start (d.introducer :: mark :: rest)) :=
    (scan_cons rfl).trans (if_pos ⟨rfl, set⟩)
  have line : (Cursor.start (d.introducer :: mark :: rest)).rest.drop 2 = rest := rfl
  rw [scanned, scanHashbang, line, endsLine_iff]
  constructor
  · intro marked torn
    obtain ⟨a, length, found, -⟩ := marked
    rw [if_pos torn] at found
    cases found
  · intro whole
    obtain ⟨after, text, body⟩ := lineBody_spec rest
    rw [if_neg whole]
    refine ⟨_, _, rfl, rfl, lineBody rest, after, text, body, ?_⟩
    have start : ((Cursor.start (d.introducer :: mark :: rest)).advance 2).rest =
        lineBody rest ++ after := text
    simp only [cut, Cursor.lexeme, start, List.take_left]

end Note

/-! ## Valid dialects -/

namespace Dialect

/-- A valid dialect works exactly when no character has two meanings in it. -/
theorem works_iff {d : Dialect} (valid : d.Valid) : d.Works ↔ d.Apart := by
  constructor
  · intro works
    have stands (c : Char) (held : c ∈ d.specials) : d.SpecialStands c [] :=
      (Note.exists_scan_special_iff valid held (List.cons_ne_nil ' ' [])).mp
        (works.special c held false [' '] [] (List.cons_ne_nil ' ' []))
    refine ⟨fun dollar => ?_, fun held => ?_, fun c held set => ?_, fun quoted c held => ?_,
      fun set => ?_⟩
    · have foreign := works.foreign
      rw [valid.isIdentifierPart_iff.mpr dollar] at foreign
      cases foreign
    · exact (stands _ held).identifier rfl
    · cases (stands c held).disambiguator set
    · exact Bool.eq_false_iff.mpr fun quote => (stands c held).quote ⟨quoted, quote⟩
    · have ends : EndsLine [] := by
        intro c first
        cases first
      exact (Note.exists_scan_hashbang_iff set).mp (works.hashbang '\r' set false []) ⟨rfl, ends⟩
  · intro apart
    obtain ⟨-, -, plain, -⟩ := valid_iff.mp valid
    simp only [clashesAsIntroducer, Bool.or_eq_false_iff] at plain
    obtain ⟨⟨⟨⟨bracket, quote⟩, -⟩, -⟩, visible⟩ := plain
    refine ⟨bracket, quote, visible, ?_, ?_, ?_⟩
    · exact Bool.eq_false_iff.mpr fun part => apart.introducer (valid.isIdentifierPart_iff.mp part)
    · intro c held memberStart before rest later
      apply (Note.exists_scan_special_iff valid held later).mpr
      refine ⟨fun dollar => apart.identifier (dollar ▸ held), fun both => ?_, fun set => ?_⟩
      · exact Bool.eq_false_iff.mp (apart.quote both.1 c held) both.2
      · exact absurd set (apart.disambiguator c held)
    · intro mark set memberStart rest
      apply (Note.exists_scan_hashbang_iff set).mpr
      intro torn
      exact apart.hashbang (torn.1 ▸ set)

/-- A dialect with other special characters than the presets, among them a quote that opens no
block. -/
theorem works_iff_colon :
    ({ hash with specials := [':', '"'], disambiguator := some '~' } : Dialect).Valid ∧
      ({ hash with specials := [':', '"'], disambiguator := some '~' } : Dialect).Works := by
  have valid :
      ({ hash with specials := [':', '"'], disambiguator := some '~' } : Dialect).Valid := by
    decide
  have apart (c : Char) (member : c ∈ [':', '"']) : some '~' ≠ some c := by
    rcases List.mem_pair.mp member with rfl | rfl <;> decide
  exact ⟨valid, (works_iff valid).mpr ⟨by decide, by decide, apart, nofun, by decide⟩⟩

/-- A dialect is valid with a dollar sign as its introducer, which is a part of identifiers. -/
theorem not_works_dollar :
    ({ hash with introducer := '$' } : Dialect).Valid ∧
      isIdentifierPart ({ hash with introducer := '$' } : Dialect).introducer = true ∧
      ¬ ({ hash with introducer := '$' } : Dialect).Works := by
  refine ⟨by decide, by decide, fun works => ?_⟩
  cases works.foreign

end Dialect

end Gloss

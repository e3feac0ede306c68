import Gloss.Proofs.Invisibility
import Gloss.Proofs.LineReading
import Mathlib.Data.List.DropRight

/-!
# The sites of a text with carriage returns

The walk looks at the words of the host tokens and at their kinds, and it makes up
names for functions and classes without one from their offsets. So carriage returns
are a relabelling (`Relabelling.returned`), and over a text that has them the walk
places the same sites, with the names that come of it
(`Outline.placements_returned`). How names of functions and classes change is left
open here: `Renames` says what a renaming has to do with the names that the walk
makes up.
-/

namespace Gloss

open Token (Seated)

/-! ## Names -/

/-- A renaming follows the offset in a name that is made up, and puts carriage returns into what
comes after the full stop of a member. -/
structure Renames (shift : Nat → Nat) (name : String → String) : Prop where
  anonymous : ∀ n : Nat, name s!"<anonymous@{n}>" = s!"<anonymous@{shift n}>"
  member : ∀ owner member : String,
    name s!"{owner}.{member}" = s!"{name owner}.{Text.returned member}"

namespace Text

theorem dropWhile_withReturns {p : Char → Bool} (feed : p '\n' = false) (ret : p '\r' = false)
    (cs : List Char) : (withReturns cs).dropWhile p = withReturns (cs.dropWhile p) := by
  induction cs with
  | nil => rfl
  | cons c cs ih =>
    by_cases same : c = '\n'
    · subst same
      rw [withReturns_lineFeed, List.dropWhile_cons_of_neg (by simp [ret]),
        List.dropWhile_cons_of_neg (by simp [feed]), withReturns_lineFeed]
    · rw [withReturns_cons same, List.dropWhile_cons, List.dropWhile_cons, ih]
      split
      · rfl
      · rw [withReturns_cons same]

/-- The same at the end of a text. -/
theorem rdropWhile_withReturns {p : Char → Bool} (feed : p '\n' = false) (cs : List Char) :
    (withReturns cs).rdropWhile p = withReturns (cs.rdropWhile p) := by
  induction cs using List.reverseRecOn with
  | nil => rfl
  | append_singleton cs c ih =>
    rw [withReturns_append]
    by_cases same : c = '\n'
    · subst same
      have ends : withReturns ['\n'] = ['\r'] ++ ['\n'] := rfl
      rw [ends, ← List.append_assoc, List.rdropWhile_concat_neg _ _ _ (by simp [feed]),
        List.rdropWhile_concat_neg _ _ _ (by simp [feed]), withReturns_append, ends,
        List.append_assoc]
    · rw [withReturns_cons same, withReturns_nil]
      by_cases holds : p c = true
      · rw [List.rdropWhile_concat_pos _ _ _ holds, List.rdropWhile_concat_pos _ _ _ holds, ih]
      · rw [List.rdropWhile_concat_neg _ _ _ holds, List.rdropWhile_concat_neg _ _ _ holds,
          withReturns_append, withReturns_cons same, withReturns_nil]

end Text

/-- What stands in quotes has carriage returns where the string has them. -/
theorem Clause.unquote_returned (text : String) :
    unquote (Text.returned text) = Text.returned (unquote text) := by
  let quote (c : Char) : Bool := c == '"' || c == '\'' || c == '\x60'
  have feed : quote '\n' = false ∧ quote '\r' = false := by decide
  have shape (s : String) :
      unquote s = String.ofList ((s.toList.dropWhile quote).rdropWhile quote) := rfl
  rw [shape, shape, Text.returned, Text.returned, String.toList_ofList, String.toList_ofList,
    Text.dropWhile_withReturns feed.1 feed.2, Text.rdropWhile_withReturns feed.1]

/-! ## Seats -/

namespace Token

variable (shift : Nat → Nat)

/-- The seat in a text with carriage returns. -/
def Seated.returned (t : Seated) : Seated where
  toToken := t.toToken.returned shift
  index := t.index
  notes := t.notes.map (·.returned shift)

namespace Seated

variable (t : Seated)

theorem noteIndices_returned : (t.returned shift).noteIndices = t.noteIndices := by
  simp only [noteIndices, returned, List.length_map]

theorem breaksLine_returned : (t.returned shift).breaksLine = t.breaksLine := by
  simp only [breaksLine, returned, List.any_map]
  rfl

end Seated

theorem seatFrom_returned (index : Nat) (notes ts : List Token) :
    seatFrom index (notes.map (·.returned shift)) (ts.map (·.returned shift)) =
      (seatFrom index notes ts).map (·.returned shift) := by
  induction ts generalizing index notes with
  | nil => rfl
  | cons t ts ih =>
    rw [List.map_cons, seatFrom, seatFrom, isNote_returned]
    split
    · have more := ih (index + 1) (notes ++ [t])
      rwa [List.map_append] at more
    · rw [List.map_cons, ← ih]
      rfl

theorem hosts_returned (ts : List Token) :
    hosts (ts.map (·.returned shift)) = (hosts ts).map (·.returned shift) :=
  seatFrom_returned shift 0 [] ts

end Token

/-! ## Sites -/

section Sites

variable (name : String → String)

/-- The site in a text with carriage returns. -/
def Site.returned : Site → Site
  | declarator n => .declarator (Text.returned n)
  | param owner slot n => .param (name owner) slot (Text.returned n)
  | constructorParam owner slot n => .constructorParam (name owner) slot (Text.returned n)
  | returnSlot owner => .returnSlot (name owner)
  | member owner n => .member (name owner) (Text.returned n)
  | importName source n => .importName (Text.returned source) (Text.returned n)
  | exportName n => .exportName (Text.returned n)

/-- The clause in a text with carriage returns. -/
def Clause.returned : Clause → Clause
  | importFrom source => .importFrom (Text.returned source)
  | exported => .exported

/-- The placement in a text with carriage returns. -/
def Placement.returned : Placement → Placement
  | leading index site => .leading index (site.returned name)
  | trailing index site => .trailing index (site.returned name)
  | slot index clause => .slot index clause.returned

end Sites

/-! ## The walk -/

variable {shift : Nat → Nat} {name : String → String}

namespace Relabelling

/-- With carriage returns all indices stay, and made-up names follow the offsets. -/
def returned (renames : Renames shift name) : Relabelling where
  seat := Seated.returned shift
  text := Text.returned
  name := name
  host index := index
  note := some
  kind_seat _ := rfl
  text_seat _ := rfl
  index_seat _ := rfl
  breaksLine_seat := Seated.breaksLine_returned shift
  noteIndices_seat t := (t.noteIndices_returned shift).trans List.filterMap_some.symm
  text_eq_iff oneLine := Text.returned_eq_iff oneLine
  unquote_text := Clause.unquote_returned
  name_anonymous t := renames.anonymous t.span.start
  name_member := renames.member

variable (renames : Renames shift name)

theorem site_returned (site : Site) : (returned renames).site site = site.returned name := by
  cases site <;> rfl

theorem clause_returned (clause : Clause) : (returned renames).clause clause = clause.returned := by
  cases clause <;> rfl

theorem placement_returned (p : Placement) :
    (returned renames).placement p = some (p.returned name) := by
  cases p with
  | leading | trailing => simp only [placement, site_returned]; rfl
  | slot => simp only [placement, clause_returned]; rfl

end Relabelling

/-- The outline of a text with carriage returns places the same sites, with the names that come of
it. -/
theorem Outline.placements_returned (renames : Renames shift name) {ts : List Token}
    (named : ∀ t ∈ ts, t.kind = .ident → name t.text = Text.returned t.text) :
    (ofTokens (ts.map (·.returned shift))).placements =
      (ofTokens ts).placements.map (·.returned name) := by
  have same := (Relabelling.returned renames).placements_walk .initial 0 none (Token.hosts ts)
    fun t among => by
      have seated : t ∈ Token.hosts ts := among.resolve_left (Option.some_ne_none t).symm
      exact named t.toToken (List.mem_of_getElem? (Token.getElem?_of_mem_seatFrom [] [] seated).1)
  rw [funext (Relabelling.placement_returned renames), List.filterMap_eq_map'] at same
  rw [ofTokens, ofTokens, steps, steps, Token.hosts_returned]
  exact same

end Gloss

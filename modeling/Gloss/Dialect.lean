import Gloss.Bracket
import Gloss.Host.Identifier
import Gloss.Text.Blank

/-!
# Dialects

A `Dialect` says how annotations are written: which character introduces them,
which brackets and single characters may follow it, and how deep a block may
nest. `Dialect.fault?` names the first reason why a dialect is not usable.
-/

namespace Gloss

/-- How annotations are written in a file. -/
structure Dialect : Type where
  introducer : Char
  brackets : List Bracket
  specials : List Char
  depthLimit : Nat
  hashbang : Option Char
  disambiguator : Option Char
  quotedBlocks : Bool
  strict : Bool
deriving DecidableEq, Repr

namespace Dialect

/-- Annotations such as `#name`, `#<...>` and `#(...)`. -/
def hash : Dialect where
  introducer := '#'
  brackets := [.paren, .angle]
  specials := ['!', '?', '^', '&', '*']
  depthLimit := 64
  hashbang := some '!'
  disambiguator := none
  quotedBlocks := false
  strict := false

/-- Annotations such as `@name`, `@{...}` and `@'...'`. -/
def atSign : Dialect :=
  { hash with introducer := '@', brackets := [.curly], quotedBlocks := true, hashbang := none }

/-- Whether a block may open with this kind of bracket. -/
def acceptsBlock (d : Dialect) (b : Bracket) : Bool := d.brackets.contains b

/-- Whether the character is an annotation by itself. -/
def isSpecial (d : Dialect) (c : Char) : Bool := d.specials.contains c

/-- Why a dialect is not usable. -/
inductive Fault : Type
  | zeroDepth
  | noBrackets
  | badIntroducer (c : Char)
  | badSpecial (c : Char)
deriving DecidableEq, Repr

/-- The wording of a fault. -/
def Fault.message : Fault → String
  | zeroDepth => "max_nesting_depth must be at least 1"
  | noBrackets => "At least one block delimiter must be enabled"
  | badIntroducer c =>
    s!"Introducer '{c}' collides with a bracket, quote or identifier character"
  | badSpecial c => s!"Special character '{c}' is a bracket or identifier character"

/-- An introducer may be no bracket, quote, letter, numeral, underscore or blank. -/
def clashesAsIntroducer (c : Char) : Bool :=
  Bracket.isBracket c || Host.isQuote c || Text.isAlphanumeric c || c == '_' || Text.isBlank c

/-- A special character may be no bracket, letter, numeral or underscore. -/
def clashesAsSpecial (c : Char) : Bool :=
  Bracket.isBracket c || Text.isAlphanumeric c || c == '_'

/-- The first fault: of the depth, of the brackets, of the introducer, of a special character. -/
def fault? (d : Dialect) : Option Fault :=
  if d.depthLimit = 0 then some .zeroDepth
  else if d.brackets.isEmpty then some .noBrackets
  else if clashesAsIntroducer d.introducer then some (.badIntroducer d.introducer)
  else (d.specials.find? clashesAsSpecial).map .badSpecial

/-- A dialect without a fault. -/
def Valid (d : Dialect) : Prop := d.fault? = none

instance (d : Dialect) : Decidable d.Valid := inferInstanceAs (Decidable (_ = _))

/-- A dialect is valid when each of its parts is. -/
theorem valid_iff {d : Dialect} :
    d.Valid ↔ d.depthLimit ≠ 0 ∧ d.brackets ≠ [] ∧ clashesAsIntroducer d.introducer = false ∧
      ∀ c ∈ d.specials, clashesAsSpecial c = false := by
  unfold Valid fault?
  by_cases depth : d.depthLimit = 0
  · simp [depth]
  by_cases brackets : d.brackets = []
  · simp [depth, brackets]
  cases clash : clashesAsIntroducer d.introducer <;> simp [depth, brackets]

theorem hash_valid : hash.Valid := by
  decide

theorem atSign_valid : atSign.Valid := by
  decide

end Dialect

end Gloss

import Gloss.Target

/-!
# Declaration sites

A `Site` is a place of a declaration that an annotation can describe, such as a
declared name or a parameter. A `Clause` is the import or export clause whose
list of names an annotation may stand in for one name.
-/

namespace Gloss

/-- A declaration site. -/
inductive Site : Type
  | declarator (name : String)
  | param (function : String) (slot : Nat) (name : String)
  | constructorParam (owner : String) (slot : Nat) (name : String)
  | returnSlot (function : String)
  | member (owner name : String)
  | importName (source name : String)
  | exportName (name : String)
deriving DecidableEq, Repr

/-- The target that a site gives to an annotation. -/
def Site.target : Site → Target
  | declarator name => .variable name
  | param function slot _ => .parameter function slot
  | constructorParam owner slot _ => .constructorParameter owner slot
  | returnSlot function => .functionReturn function
  | member owner name => .classMember owner name
  | importName source name => .importSpecifier source name
  | exportName name => .exportSpecifier name

/-- A clause with a list of names. -/
inductive Clause : Type
  | importFrom (source : String)
  | exported
deriving DecidableEq, Repr

/-- The target that a clause gives to the name it lists. -/
def Clause.target (name : String) : Clause → Target
  | importFrom source => .importSpecifier source name
  | exported => .exportSpecifier name

/-- What the outline of a file says about one token: the site before a host token, the site after
it, or the clause in whose list an annotation takes the place of a name. Tokens have the index that
they have among all tokens of the file. -/
inductive Placement : Type
  | leading (index : Nat) (site : Site)
  | trailing (index : Nat) (site : Site)
  | slot (index : Nat) (clause : Clause)
deriving DecidableEq, Repr

namespace Placement

/-- The site that the placement gives to the place right before a host token. -/
def siteBefore? (index : Nat) : Placement → Option Site
  | leading i site => if i = index then some site else none
  | _ => none

/-- The site that the placement gives to the place right after a host token. -/
def siteAfter? (index : Nat) : Placement → Option Site
  | trailing i site => if i = index then some site else none
  | _ => none

/-- The clause that the placement gives to an annotation. -/
def slotAt? (index : Nat) : Placement → Option Clause
  | slot i clause => if i = index then some clause else none
  | _ => none

/-- A site that serves on both sides of a host token. -/
def both (index : Nat) (site : Site) : List Placement :=
  [.leading index site, .trailing index site]

end Placement

end Gloss

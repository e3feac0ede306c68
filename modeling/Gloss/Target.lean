/-!
# Targets

A `Target` is the construct that an annotation describes. Targets are ordered
by kind first and then by their names and slots.
-/

namespace Gloss

/-- The construct that an annotation describes. -/
inductive Target : Type
  | moduleScope
  | variable (name : String)
  | parameter (function : String) (slot : Nat)
  | functionReturn (function : String)
  | classMember (owner member : String)
  | constructorParameter (owner : String) (slot : Nat)
  | importSpecifier (source name : String)
  | exportSpecifier (name : String)
deriving DecidableEq, Repr

namespace Target

/-- The wording of a target. -/
def label : Target → String
  | moduleScope => "ModuleScope"
  | «variable» name => s!"VariableDeclaration({name})"
  | parameter function slot => s!"Parameter({function}, {slot})"
  | functionReturn function => s!"FunctionReturn({function})"
  | classMember owner member => s!"ClassMember({owner}, {member})"
  | constructorParameter owner slot => s!"ClassConstructorParameter({owner}, {slot})"
  | importSpecifier source name => s!"ImportSpecifier({source}, {name})"
  | exportSpecifier name => s!"ExportSpecifier({name})"

/-- The place of the kind in the order of targets. -/
def rank : Target → Nat
  | moduleScope => 0
  | «variable» _ => 1
  | parameter _ _ => 2
  | functionReturn _ => 3
  | classMember _ _ => 4
  | constructorParameter _ _ => 5
  | importSpecifier _ _ => 6
  | exportSpecifier _ => 7

/-- The names and the slot of a target, in the order in which they count. -/
def key : Target → String × String × Nat
  | moduleScope => ("", "", 0)
  | «variable» name => (name, "", 0)
  | parameter function slot => (function, "", slot)
  | functionReturn function => (function, "", 0)
  | classMember owner member => (owner, member, 0)
  | constructorParameter owner slot => (owner, "", slot)
  | importSpecifier source name => (source, name, 0)
  | exportSpecifier name => (name, "", 0)

/-- Targets by kind, then by names, then by slot. -/
def order (s t : Target) : Ordering :=
  (compare s.rank t.rank).then
    ((compare s.key.1 t.key.1).then
      ((compare s.key.2.1 t.key.2.1).then (compare s.key.2.2 t.key.2.2)))

end Target

end Gloss

import Gloss.Outline.Walk

/-!
# The outline of a file

The outline is what the walk over the host tokens places: for a host token the
site before it and the site after it, and for an annotation the clause in whose
list it takes the place of a name. Of two placements for one place the later one
counts.

`Outline.steps` keeps the knowledge before and after each step, which shows the
frames that a token opens and closes.
-/

namespace Gloss

open Token (Seated)

/-- One step of the walk: the current token, and the knowledge before and after. -/
structure Step : Type where
  place : Place
  before : Walk
  stride : Stride
deriving Repr

namespace Step

/-- The frame that the step opens. -/
def opened? (s : Step) : Option Frame :=
  if s.before.depth < s.stride.walk.depth then s.stride.walk.frames.head? else none

end Step

/-- Where sites and slots are. -/
structure Outline : Type where
  placements : List Placement
deriving Repr

namespace Outline

/-- The steps of the walk over host tokens, from a place on. -/
def walk (w : Walk) (number : Nat) (prev : Option Seated) : List Seated → List Step
  | [] => []
  | t :: rest =>
    let place : Place := ⟨number, prev, t, rest⟩
    let stride := w.step place
    let more := stride.length - 1
    ⟨place, w, stride⟩ ::
      walk stride.walk (number + 1 + more) (place.tokens[more]?) (rest.drop more)
termination_by ts => ts.length
decreasing_by simp only [List.length_drop, List.length_cons]; omega

/-- The steps of the walk over the host tokens of a file. -/
def steps (ts : List Token) : List Step := walk .initial 0 none (Token.hosts ts)

/-- The outline of a file. -/
def ofTokens (ts : List Token) : Outline := ⟨(steps ts).flatMap (·.stride.placements)⟩

/-- The last placement that says something of the wanted kind. -/
def last? {α : Type} (o : Outline) (pick : Placement → Option α) : Option α :=
  o.placements.reverse.findSome? pick

/-- The site for an annotation right before a host token. -/
def leading? (o : Outline) (index : Nat) : Option Site := o.last? (·.siteBefore? index)

/-- The site for an annotation right after a host token. -/
def trailing? (o : Outline) (index : Nat) : Option Site := o.last? (·.siteAfter? index)

/-- The clause in whose list an annotation takes the place of a name. -/
def slot? (o : Outline) (index : Nat) : Option Clause := o.last? (·.slotAt? index)

/-- What the outline says about one token of a file. -/
structure Entry : Type where
  index : Nat
  token : Token
  leading : Option Site
  trailing : Option Site
  slot : Option Clause
deriving Repr

/-- The entry of a token, if the outline says something about it. -/
def entry? (o : Outline) (t : Token) (index : Nat) : Option Entry :=
  match o.leading? index, o.trailing? index, o.slot? index with
  | none, none, none => none
  | leading, trailing, slot => some ⟨index, t, leading, trailing, slot⟩

/-- The entries of a file. -/
def entries (o : Outline) (ts : List Token) : List Entry :=
  ts.zipIdx.filterMap fun t => o.entry? t.1 t.2

end Outline

end Gloss

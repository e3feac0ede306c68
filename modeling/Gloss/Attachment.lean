import Gloss.Note
import Gloss.Dialect
import Gloss.Outline

/-!
# Attaching annotations

Each annotation is bound to one target by the first rule that applies:

* a hashbang line belongs to the module;
* a host token before it on the same line may have a site after it;
* with a blank line or the end of the file next, it belongs to the module;
* a gap in a list of names is a slot, which the annotation names;
* the next host token, past modifiers of declarations, may have a site before it;
* what is left falls back to the module, which a strict dialect rejects.

`Attachment.attach` binds the annotations of a file in order and groups them by
target in a `Table`. `Attachment.attach?` does so for tokens and annotations of
any making, and has no answer when it would have to name a place inside a
character. `attach?_eq_some` says that this does not happen with annotations
that start at characters of the file.
-/

namespace Gloss

/-- The rule that bound an annotation. -/
inductive Rule : Type
  | isolated
  | trailing
  | leading
  | listSlot
  | fallback
deriving DecidableEq, Repr

namespace Rule

/-- The name of the rule in data formats. -/
def name : Rule → String
  | isolated => "isolated"
  | trailing => "trailing"
  | leading => "leading"
  | listSlot => "list_slot"
  | fallback => "fallback"

/-- The wording of the rule. -/
def label : Rule → String
  | listSlot => "list-slot"
  | rule => rule.name

end Rule

/-- An annotation with the rule that bound it. -/
structure Attachment : Type where
  note : Note
  rule : Rule
deriving DecidableEq, Repr

/-- The annotations of one target. -/
structure Table.Entry : Type where
  target : Target
  attachments : List Attachment
deriving DecidableEq, Repr

/-- Targets in the order in which they were first bound, each with its annotations in order. -/
structure Table : Type where
  entries : List Table.Entry
deriving DecidableEq, Repr

namespace Table

/-- Nothing is bound. -/
def empty : Table := ⟨[]⟩

/-- Adds an attachment to the entry of its target, or as a new entry at the end. -/
def insertEntry (target : Target) (a : Attachment) : List Entry → List Entry
  | [] => [⟨target, [a]⟩]
  | e :: es =>
    if e.target = target then ⟨e.target, e.attachments ++ [a]⟩ :: es
    else e :: insertEntry target a es

/-- Binds an attachment to a target. -/
def insert (t : Table) (target : Target) (a : Attachment) : Table :=
  ⟨insertEntry target a t.entries⟩

/-- The attachments of a target. -/
def get? (t : Table) (target : Target) : Option (List Attachment) :=
  (t.entries.find? (·.target = target)).map (·.attachments)

/-- What the annotations of a target say, in order. -/
def payloads (t : Table) (target : Target) : List String :=
  ((t.get? target).getD []).map (·.note.payload)

/-- The target of the annotation that starts at an offset. -/
def targetOf? (t : Table) (offset : Nat) : Option Target :=
  (t.entries.find? fun e => e.attachments.any (·.note.span.start == offset)).map (·.target)

/-- The targets in order. -/
def targets (t : Table) : List Target := t.entries.map (·.target)

/-- All attachments with their targets, in the order of the table. -/
def attachments (t : Table) : List (Target × Attachment) :=
  t.entries.flatMap fun e => e.attachments.map fun a => (e.target, a)

/-- The number of targets. -/
def length (t : Table) : Nat := t.entries.length

/-- The number of bound annotations. -/
def noteCount (t : Table) : Nat := t.attachments.length

end Table

/-- An annotation that a strict dialect refuses to leave without a construct. -/
structure Ambiguous : Type where
  payload : String
  position : Position
deriving DecidableEq, Repr

/-- The wording of an ambiguous annotation. -/
def Ambiguous.message (a : Ambiguous) : String :=
  s!"Ambiguous attachment for annotation '{a.payload}' at {a.position.message}"

namespace Attachment

/-- The words that may stand between an annotation and the construct that it precedes. -/
def isLeadingModifier (t : Token) : Bool :=
  (t.kind == .ident || t.kind == .keyword) &&
    ["let", "const", "var", "export", "static", "get", "set", "async", "readonly", "accessor",
      "declare"].contains t.text

/-- The index of the host token before the given token on the same line, past other annotations.
The tokens before it are given nearest first. -/
def preceding? (index : Nat) (t : Token) : List Token → Option Nat
  | [] => none
  | before :: more =>
    if 0 < t.newlinesBefore then none
    else if before.isNote then preceding? (index - 1) before more
    else some (index - 1)

/-- Whether a blank line or the end of the file comes before the next host token. -/
def isIsolated : List Token → Bool
  | [] => true
  | t :: rest =>
    if 2 ≤ t.newlinesBefore then true else if t.isNote then isIsolated rest else false

/-- The index of the next host token that is no modifier. `index` is that of the first token. -/
def following? (index : Nat) : List Token → Option Nat
  | [] => none
  | t :: rest =>
    if t.isNote || t.isPunct "." || isLeadingModifier t then following? (index + 1) rest
    else some index

/-- An annotation token with its index and the tokens around it: those before it nearest first, and
those after it. -/
structure Setting : Type where
  before : List Token
  token : Token
  after : List Token
  index : Nat
deriving Repr

/-- The site after the host token before the annotation, when both are on one line. -/
def Setting.trailingSite? (s : Setting) (o : Outline) : Option Site :=
  (preceding? s.index s.token s.before).bind o.trailing?

/-- The site before the construct that the annotation precedes. -/
def Setting.leadingSite? (s : Setting) (o : Outline) : Option Site :=
  (following? (s.index + 1) s.after).bind o.leading?

/-- The target of an annotation and the rule that gives it. -/
def bind (o : Outline) (s : Setting) (a : Note) : Target × Rule :=
  if a.form = .hashbang then (.moduleScope, .isolated)
  else
    match s.trailingSite? o with
    | some site => (site.target, .trailing)
    | none =>
      if isIsolated s.after then (.moduleScope, .isolated)
      else
        match o.slot? s.index with
        | some clause => (clause.target a.payload, .listSlot)
        | none =>
          match s.leadingSite? o with
          | some site => (site.target, .leading)
          | none => (.moduleScope, .fallback)

/-- The annotation of a token, when it is one that the file has. -/
def noteOf? (notes : Array Note) (t : Token) : Option Note :=
  match t.kind with
  | .note index => notes[index]?
  | _ => none

/-- The bindings of the annotations of a file in order, from a token on. -/
def bindings (o : Outline) (notes : Array Note) (before : List Token) (index : Nat) :
    List Token → List (Target × Attachment)
  | [] => []
  | t :: after =>
    let more := bindings o notes (t :: before) (index + 1) after
    match noteOf? notes t with
    | some a =>
      let bound := bind o ⟨before, t, after, index⟩ a
      (bound.1, ⟨a, bound.2⟩) :: more
    | none => more

/-- Groups bindings in a table. -/
def table (bound : List (Target × Attachment)) : Table :=
  bound.foldl (fun t b => t.insert b.1 b.2) .empty

/-- The first binding that is a mere fallback. -/
def firstFallback? (bound : List (Target × Attachment)) : Option Attachment :=
  (bound.find? (·.2.rule == .fallback)).map (·.2)

/-- The attachment that a strict dialect rejects: the first fallback. -/
def rejected? (d : Dialect) (bound : List (Target × Attachment)) : Option Attachment :=
  if d.strict then firstFallback? bound else none

/-- An attachment as an ambiguous one, with its place in the file. There is no such place inside a
character. -/
def ambiguous? (source : String) (a : Attachment) : Option Ambiguous :=
  ((LineTable.ofSource source).position? a.note.span.start).map fun place =>
    ⟨a.note.payload, place⟩

/-- An attachment as an ambiguous one, at the start of the file for want of a place. -/
def ambiguous (source : String) (a : Attachment) : Ambiguous :=
  (ambiguous? source a).getD ⟨a.note.payload, .origin⟩

/-- Binds the annotations of a file; a strict dialect rejects the first fallback. -/
def attach (d : Dialect) (source : String) (ts : List Token) (notes : List Note) :
    Except Ambiguous Table :=
  let bound := bindings (.ofTokens ts) notes.toArray [] 0 ts
  match rejected? d bound with
  | some a => .error (ambiguous source a)
  | none => .ok (table bound)

/-- Binds annotations, unless the rejected one has no place in the file. -/
def attach? (d : Dialect) (source : String) (ts : List Token) (notes : List Note) :
    Option (Except Ambiguous Table) :=
  let bound := bindings (.ofTokens ts) notes.toArray [] 0 ts
  match rejected? d bound with
  | some a => (ambiguous? source a).map .error
  | none => some (.ok (table bound))

/-! ## Annotations that start at characters -/

/-- What is bound is one of the annotations of the file. -/
theorem note_mem_of_mem_bindings {o : Outline} {notes : Array Note} {before ts : List Token}
    {index : Nat} {b : Target × Attachment} (h : b ∈ bindings o notes before index ts) :
    b.2.note ∈ notes := by
  induction ts generalizing before index with
  | nil => cases h
  | cons t after ih =>
    unfold bindings at h
    dsimp only at h
    split at h
    · next a found =>
      rcases List.mem_cons.mp h with rfl | h
      · unfold noteOf? at found
        split at found
        · exact Array.mem_of_getElem? found
        · cases found
      · exact ih h
    · exact ih h

theorem mem_of_rejected? {d : Dialect} {bound : List (Target × Attachment)} {a : Attachment}
    (h : rejected? d bound = some a) : ∃ target, (target, a) ∈ bound := by
  unfold rejected? at h
  split at h
  · obtain ⟨b, found, rfl⟩ := Option.map_eq_some_iff.mp h
    exact ⟨b.1, List.mem_of_find?_eq_some found⟩
  · cases h

/-- Annotations that start at characters of the file are always bound or rejected. -/
theorem attach?_eq_some {d : Dialect} {source : String} {ts : List Token} {notes : List Note}
    (placed : ∀ a ∈ notes, ((LineTable.ofSource source).position? a.span.start).isSome) :
    attach? d source ts notes = some (attach d source ts notes) := by
  unfold attach? attach
  dsimp only
  split
  · next a rejected =>
    obtain ⟨target, member⟩ := mem_of_rejected? rejected
    have known := Array.mem_toList_iff.mpr (note_mem_of_mem_bindings member)
    obtain ⟨place, found⟩ := Option.isSome_iff_exists.mp (placed a.note (by simpa using known))
    simp [ambiguous, ambiguous?, found]
  · rfl

end Attachment

end Gloss

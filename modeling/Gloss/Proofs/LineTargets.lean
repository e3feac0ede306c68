import Gloss.Analysis
import Gloss.Proofs.LineSites

/-!
# The targets of a text with carriage returns

The annotations of a text with carriage returns are bound to the same targets by the
same rules, as long as no line goes on in a literal or a regular expression. The names
that the walk makes up follow the offsets (`Name.returned`), and the other names get
the carriage returns of the text that they are taken from.

`Reading.ofSource?_returned_iff` says for a whole file when it is read alike with
carriage returns, and that its annotations are bound alike then.
-/

namespace Gloss

open Host
open Text (withReturns)

/-! ## Names -/

namespace Name

/-- What stands before the offset in a made-up name. -/
def opener : List Char := "<anonymous@".toList

/-- The name that the walk makes up for what starts at an offset. -/
def anonymous (offset : Nat) : List Char := opener ++ (Nat.toDigits 10 offset ++ ['>'])

/-- The offset in the made-up name that a text starts with, and what comes after this name. -/
def anonymous? (cs : List Char) : Option (Nat × List Char) :=
  let offset := Nat.ofDigitChars 10 ((cs.drop opener.length).takeWhile Char.isDigit) 0
  ((anonymous offset).isPrefixOf? cs).map fun rest => (offset, rest)

/-- The name in a text with carriage returns, where offsets are shifted. -/
def returned (shift : Nat → Nat) (name : String) : String :=
  match anonymous? name.toList with
  | some (offset, rest) => String.ofList (anonymous (shift offset) ++ withReturns rest)
  | none => Text.returned name

theorem isDigit_of_mem_digits {n : Nat} {c : Char} (held : c ∈ Nat.toDigits 10 n) :
    c.isDigit = true :=
  Nat.isDigit_of_mem_toDigits (by decide) (by decide) held

theorem not_mem_anonymous {c : Char} (digit : c.isDigit = false) (other : c ∉ '>' :: opener)
    (n : Nat) : c ∉ anonymous n := by
  rw [List.mem_cons, not_or] at other
  rw [anonymous, List.mem_append, List.mem_append, List.mem_singleton]
  rintro (held | held | held)
  · exact other.2 held
  · exact absurd (isDigit_of_mem_digits held) (by simp [digit])
  · exact other.1 held

theorem anonymous?_eq_some {cs rest : List Char} {n : Nat} :
    anonymous? cs = some (n, rest) ↔ cs = anonymous n ++ rest := by
  rw [anonymous?, Option.map_eq_some_iff]
  constructor
  · rintro ⟨rest', found, same⟩
    obtain ⟨rfl, rfl⟩ := Prod.mk.inj same
    exact (List.isPrefixOf?_eq_some_iff_append_eq.mp found).symm
  · rintro rfl
    have digits : ((anonymous n ++ rest).drop opener.length).takeWhile Char.isDigit =
        Nat.toDigits 10 n := by
      rw [anonymous, List.append_assoc, List.drop_left, List.append_assoc,
        List.takeWhile_append_of_pos fun c held => isDigit_of_mem_digits held,
        List.singleton_append, List.takeWhile_cons_of_neg (by decide), List.append_nil]
    rw [digits, Nat.ofDigitChars_ten_toDigits]
    exact ⟨rest, List.isPrefixOf?_eq_some_iff_append_eq.mpr rfl, rfl⟩

/-- What comes after a full stop plays no part in whether a name is made up. -/
theorem anonymous?_append (cs more : List Char) :
    anonymous? (cs ++ '.' :: more) =
      (anonymous? cs).map fun (n, rest) => (n, rest ++ '.' :: more) := by
  rcases here : anonymous? cs with _ | ⟨n, rest⟩
  · rw [Option.map_none]
    by_contra made
    obtain ⟨⟨n, rest⟩, made⟩ := Option.ne_none_iff_exists'.mp made
    obtain ⟨more', rfl⟩ : ∃ more', cs = anonymous n ++ more' := by
      rcases List.append_eq_append_iff.mp (anonymous?_eq_some.mp made) with
        ⟨within, name, tail⟩ | ⟨after, whole, -⟩
      · rcases within with _ | ⟨c, within⟩
        · exact ⟨[], by rw [name, List.append_nil, List.append_nil]⟩
        · obtain ⟨rfl, -⟩ := List.cons.inj tail
          exact absurd (name ▸ List.mem_append_right cs (.head within))
            (not_mem_anonymous (by decide) (by decide) n)
      · exact ⟨after, whole⟩
    rw [anonymous?_eq_some.mpr rfl] at here
    cases here
  · rw [Option.map_some, anonymous?_eq_some, anonymous?_eq_some.mp here, List.append_assoc]

theorem anonymous?_none {cs : List Char} (head : cs.head? ≠ some '<') : anonymous? cs = none := by
  by_contra made
  obtain ⟨⟨n, rest⟩, made⟩ := Option.ne_none_iff_exists'.mp made
  have first : opener.head? = some '<' := by decide
  rw [anonymous?_eq_some.mp made, anonymous, List.append_assoc, List.head?_append, first] at head
  exact head Option.some_or

variable {shift : Nat → Nat}

theorem returned_of_head {name : String} (head : name.toList.head? ≠ some '<') :
    returned shift name = Text.returned name := by
  rw [returned, anonymous?_none head]

/-- Made-up names follow the offsets. -/
theorem renames (shift : Nat → Nat) : Renames shift (returned shift) where
  anonymous n := by
    have spelled (n : Nat) : (s!"<anonymous@{n}>").toList = Name.anonymous n := by
      have digits : (toString n).toList = Nat.toDigits 10 n := by
        rw [Nat.toString_eq_ofList_toDigits, String.toList_ofList]
      have last : (toString ">").toList = ['>'] := by decide
      rw [String.toList_append, String.toList_append, digits, last, List.append_assoc]
      rfl
    apply String.toList_inj.mp
    rw [returned, spelled, anonymous?_eq_some.mpr (List.append_nil _).symm]
    dsimp only
    rw [String.toList_ofList, spelled, Text.withReturns_nil, List.append_nil]
  member owner member := by
    have spelled (owner member : String) :
        (s!"{owner}.{member}").toList = owner.toList ++ '.' :: member.toList := by
      rw [String.toList_append, String.toList_append, List.append_assoc]
      rfl
    have dotted : withReturns (owner.toList ++ '.' :: member.toList) =
        withReturns owner.toList ++ '.' :: (Text.returned member).toList := by
      rw [Text.withReturns_append, Text.withReturns_cons (by decide), Text.returned,
        String.toList_ofList]
    apply String.toList_inj.mp
    rw [returned, spelled, spelled, anonymous?_append, returned]
    rcases anonymous? owner.toList with _ | ⟨n, rest⟩
    · rw [Option.map_none]
      dsimp only
      rw [Text.returned, Text.returned, String.toList_ofList, String.toList_ofList, spelled, dotted]
    · rw [Option.map_some]
      dsimp only
      rw [String.toList_ofList, String.toList_ofList, Text.withReturns_append,
        Text.withReturns_cons (by decide), Text.returned, String.toList_ofList, List.append_assoc]

/-- Where a text with carriage returns starts with something on one line, so does the text without
them. -/
theorem exists_of_withReturns {w cs rest : List Char} (feed : '\n' ∉ w) (ret : '\r' ∉ w)
    (same : withReturns cs = w ++ rest) : ∃ more, cs = w ++ more := by
  induction w generalizing cs with
  | nil => exact ⟨cs, rfl⟩
  | cons c w ih =>
    rw [List.mem_cons, not_or] at feed ret
    rcases cs with _ | ⟨c', cs⟩
    · cases same
    · by_cases line : c' = '\n'
      · subst line
        rw [Text.withReturns_lineFeed, List.cons_append] at same
        exact absurd (List.cons.inj same).1 ret.1
      · rw [Text.withReturns_cons line, List.cons_append] at same
        obtain ⟨rfl, later⟩ := List.cons.inj same
        obtain ⟨more, rfl⟩ := ih feed.2 ret.2 later
        exact ⟨more, rfl⟩

theorem returned_injective (inj : Function.Injective shift) :
    Function.Injective (returned shift) := by
  -- a made-up name and another one stay apart
  have apart {t : String} {n : Nat} {rest : List Char} (other : anonymous? t.toList = none)
      (same : anonymous n ++ withReturns rest = withReturns t.toList) : False := by
    obtain ⟨more, made⟩ := exists_of_withReturns (not_mem_anonymous (by decide) (by decide) n)
      (not_mem_anonymous (by decide) (by decide) n) same.symm
    rw [anonymous?_eq_some.mpr made] at other
    cases other
  intro s t same
  apply String.toList_inj.mp
  have lists := congrArg String.toList same
  rw [returned, returned] at lists
  rcases left : anonymous? s.toList with _ | ⟨n, rest⟩ <;>
    rcases right : anonymous? t.toList with _ | ⟨m, rest'⟩ <;>
    simp only [left, right, Text.returned, String.toList_ofList] at lists
  · exact Text.withReturns_injective lists
  · exact (apart left lists.symm).elim
  · exact (apart right lists).elim
  · have here := anonymous?_eq_some.mpr lists
    rw [anonymous?_eq_some.mpr rfl] at here
    obtain ⟨offset, tail⟩ := Prod.mk.inj (Option.some.inj here)
    obtain rfl := inj offset
    rw [anonymous?_eq_some.mp left, anonymous?_eq_some.mp right, Text.withReturns_injective tail]

end Name

/-! ## Targets -/

namespace Target

/-- The target in a text with carriage returns. -/
def returned (name : String → String) : Target → Target
  | moduleScope => moduleScope
  | «variable» n => «variable» (Text.returned n)
  | parameter function slot => parameter (name function) slot
  | functionReturn function => functionReturn (name function)
  | classMember owner member => classMember (name owner) (Text.returned member)
  | constructorParameter owner slot => constructorParameter (name owner) slot
  | importSpecifier source n => importSpecifier (Text.returned source) (Text.returned n)
  | exportSpecifier n => exportSpecifier (Text.returned n)

theorem returned_injective {name : String → String} (inj : Function.Injective name) :
    Function.Injective (returned name) := by
  intro s t same
  cases s <;> cases t <;>
    simp only [returned, reduceCtorEq, «variable».injEq, parameter.injEq, functionReturn.injEq,
      classMember.injEq, constructorParameter.injEq, importSpecifier.injEq,
      exportSpecifier.injEq, inj.eq_iff, Text.returned_injective.eq_iff] at same ⊢ <;>
    exact same

end Target

variable (shift : Nat → Nat) (name : String → String)

theorem Site.target_returned (site : Site) :
    (site.returned name).target = site.target.returned name := by
  cases site <;> rfl

theorem Clause.target_returned (n : String) (clause : Clause) :
    clause.returned.target (Text.returned n) = (clause.target n).returned name := by
  cases clause <;> rfl

/-! ## The outline -/

namespace Outline

/-- The outline of a text with carriage returns. -/
def returned (o : Outline) : Outline := ⟨o.placements.map (·.returned name)⟩

variable (o : Outline)

theorem last?_returned {α : Type} {pick : Placement → Option α} {f : α → α}
    (picks : ∀ p : Placement, pick (p.returned name) = (pick p).map f) :
    (o.returned name).last? pick = (o.last? pick).map f := by
  have placed : (o.returned name).placements.reverse =
      o.placements.reverse.map (·.returned name) := List.map_reverse.symm
  rw [last?, last?, placed, List.findSome?_map, List.map_findSome?]
  exact congrArg (List.findSome? · _) (funext picks)

theorem leading?_returned (index : Nat) :
    (o.returned name).leading? index = (o.leading? index).map (·.returned name) := by
  refine last?_returned name o fun p => ?_
  cases p with
  | leading i site =>
    simp only [Placement.returned, Placement.siteBefore?]
    split <;> rfl
  | trailing | slot => rfl

theorem trailing?_returned (index : Nat) :
    (o.returned name).trailing? index = (o.trailing? index).map (·.returned name) := by
  refine last?_returned name o fun p => ?_
  cases p with
  | trailing i site =>
    simp only [Placement.returned, Placement.siteAfter?]
    split <;> rfl
  | leading | slot => rfl

theorem slot?_returned (index : Nat) :
    (o.returned name).slot? index = (o.slot? index).map (·.returned) := by
  refine last?_returned name o fun p => ?_
  cases p with
  | slot i clause =>
    simp only [Placement.returned, Placement.slotAt?]
    split <;> rfl
  | leading | trailing => rfl

end Outline

/-! ## Bindings -/

/-- The attachment in a text with carriage returns. -/
def Attachment.returned (a : Attachment) : Attachment := ⟨a.note.returned shift, a.rule⟩

/-- The entry of a text with carriage returns. -/
def Table.Entry.returned (e : Table.Entry) : Table.Entry :=
  ⟨e.target.returned name, e.attachments.map (·.returned shift)⟩

/-- The table of a text with carriage returns. -/
def Table.returned (t : Table) : Table := ⟨t.entries.map (·.returned shift name)⟩

namespace Attachment

/-- The setting of an annotation in a text with carriage returns. -/
def Setting.returned (s : Setting) : Setting where
  before := s.before.map (·.returned shift)
  token := s.token.returned shift
  after := s.after.map (·.returned shift)
  index := s.index

theorem preceding?_returned (index : Nat) (t : Token) (before : List Token) :
    preceding? index (t.returned shift) (before.map (·.returned shift)) =
      preceding? index t before := by
  induction before generalizing index t with
  | nil => rfl
  | cons u more ih =>
    rw [List.map_cons, preceding?, preceding?, ih, Token.isNote_returned]
    rfl

theorem isIsolated_returned (ts : List Token) :
    isIsolated (ts.map (·.returned shift)) = isIsolated ts := by
  induction ts with
  | nil => rfl
  | cons t rest ih =>
    rw [List.map_cons, isIsolated, isIsolated, ih, Token.isNote_returned]
    rfl

theorem isLeadingModifier_returned (t : Token) :
    isLeadingModifier (t.returned shift) = isLeadingModifier t := by
  rw [isLeadingModifier, isLeadingModifier, Token.returned, Text.contains_returned (by decide)]

theorem following?_returned (index : Nat) (ts : List Token) :
    following? index (ts.map (·.returned shift)) = following? index ts := by
  induction ts generalizing index with
  | nil => rfl
  | cons t rest ih =>
    rw [List.map_cons, following?, following?, ih, Token.isNote_returned,
      Token.isPunct_returned _ _ (by decide), isLeadingModifier_returned]

variable (o : Outline)

/-- An annotation is bound to the same target by the same rule. -/
theorem bind_returned (s : Setting) (a : Note) :
    bind (o.returned name) (s.returned shift) (a.returned shift) =
      ((bind o s a).1.returned name, (bind o s a).2) := by
  have trailing : (s.returned shift).trailingSite? (o.returned name) =
      (s.trailingSite? o).map (·.returned name) := by
    rw [Setting.trailingSite?, Setting.returned, preceding?_returned, Setting.trailingSite?,
      Option.map_bind]
    exact congrArg _ (funext (Outline.trailing?_returned name o))
  have leading : (s.returned shift).leadingSite? (o.returned name) =
      (s.leadingSite? o).map (·.returned name) := by
    rw [Setting.leadingSite?, Setting.returned, following?_returned, Setting.leadingSite?,
      Option.map_bind]
    exact congrArg _ (funext (Outline.leading?_returned name o))
  have isolated : isIsolated (s.returned shift).after = isIsolated s.after :=
    isIsolated_returned shift s.after
  have form : (a.returned shift).form = a.form := rfl
  have index : (s.returned shift).index = s.index := rfl
  have payload : (a.returned shift).payload = Text.returned a.payload := rfl
  unfold bind
  rw [form, trailing, isolated, index, payload, Outline.slot?_returned, leading]
  split
  · rfl
  rcases s.trailingSite? o with _ | site
  · rw [Option.map_none]
    dsimp only
    split
    · rfl
    rcases o.slot? s.index with _ | clause
    · rcases s.leadingSite? o with _ | site
      · rfl
      · exact Prod.ext (Site.target_returned name site) rfl
    · exact Prod.ext (Clause.target_returned name a.payload clause) rfl
  · exact Prod.ext (Site.target_returned name site) rfl

theorem noteOf?_returned (notes : List Note) (t : Token) :
    noteOf? (notes.map (·.returned shift)).toArray (t.returned shift) =
      (noteOf? notes.toArray t).map (·.returned shift) := by
  have kind : (t.returned shift).kind = t.kind := rfl
  rw [noteOf?, noteOf?, kind]
  split
  · rw [List.getElem?_toArray, List.getElem?_toArray, List.getElem?_map]
  · rfl

theorem bindings_returned (notes : List Note) (before : List Token) (index : Nat)
    (ts : List Token) :
    bindings (o.returned name) (notes.map (·.returned shift)).toArray
        (before.map (·.returned shift)) index (ts.map (·.returned shift)) =
      (bindings o notes.toArray before index ts).map
        fun b => (b.1.returned name, b.2.returned shift) := by
  induction ts generalizing before index with
  | nil => rfl
  | cons t after ih =>
    rw [List.map_cons, bindings, bindings, noteOf?_returned, ← List.map_cons, ih]
    cases noteOf? notes.toArray t with
    | none => rfl
    | some a =>
      have bound := bind_returned shift name o ⟨before, t, after, index⟩ a
      rw [Setting.returned] at bound
      rw [Option.map_some]
      dsimp only
      rw [bound, List.map_cons]
      rfl

end Attachment

namespace Table

variable {name : String → String}

/-- Targets that were apart stay apart, so the attachment comes into the same entry. -/
theorem insertEntry_returned (inj : Function.Injective name) (target : Target) (a : Attachment)
    (es : List Entry) :
    insertEntry (target.returned name) (a.returned shift) (es.map (·.returned shift name)) =
      (insertEntry target a es).map (·.returned shift name) := by
  induction es with
  | nil => rfl
  | cons e es ih =>
    have same : (e.returned shift name).target = target.returned name ↔ e.target = target :=
      (Target.returned_injective inj).eq_iff
    rw [List.map_cons, insertEntry, insertEntry]
    simp only [same, ih]
    split
    · rw [List.map_cons, Entry.returned, Entry.returned, List.map_append]
      rfl
    · rfl

theorem insert_returned (inj : Function.Injective name) (t : Table) (target : Target)
    (a : Attachment) :
    (t.returned shift name).insert (target.returned name) (a.returned shift) =
      (t.insert target a).returned shift name :=
  congrArg Table.mk (insertEntry_returned shift inj target a t.entries)

end Table

/-- Bindings are grouped in the same way. -/
theorem Attachment.table_returned {name : String → String} (inj : Function.Injective name)
    (bound : List (Target × Attachment)) :
    table (bound.map fun b => (b.1.returned name, b.2.returned shift)) =
      (table bound).returned shift name := by
  rw [table, table, List.foldl_map]
  change List.foldl _ (Table.empty.returned shift name) bound = _
  refine List.foldl_hom (Table.returned shift name) fun t b => ?_
  exact Table.insert_returned shift inj t b.1 b.2

/-- The analysis of a text with carriage returns. -/
def Analysis.returned (a : Analysis) : Analysis where
  notes := a.notes.map (·.returned shift)
  table := a.table.returned shift name
  malformed := a.malformed.map (·.mapOffset shift)

/-- A lenient dialect binds all annotations. -/
theorem Attachment.attach_of_lenient {d : Dialect} (lenient : d.strict = false) (source : String)
    (ts : List Token) (notes : List Note) :
    attach d source ts notes = .ok (table (bindings (.ofTokens ts) notes.toArray [] 0 ts)) := by
  simp [attach, rejected?, lenient]

/-- What is read alike is bound alike. -/
theorem Analysis.ofReading_returned {d : Dialect} (lenient : d.strict = false) {shift : Nat → Nat}
    {name : String → String} (renames : Renames shift name) (inj : Function.Injective name)
    {r : Reading} (named : ∀ t ∈ r.tokens, t.kind = .ident → name t.text = Text.returned t.text)
    (source source' : String) :
    ∃ a, ofReading d source r = .ok a ∧
      ofReading d source' (r.returned shift) = .ok (a.returned shift name) := by
  have outline : Outline.ofTokens (r.returned shift).tokens =
      (Outline.ofTokens r.tokens).returned name :=
    congrArg Outline.mk (Outline.placements_returned renames named)
  have bound := Attachment.bindings_returned shift name (.ofTokens r.tokens) r.notes [] 0 r.tokens
  rw [ofReading, ofReading, Attachment.attach_of_lenient lenient,
    Attachment.attach_of_lenient lenient, outline]
  refine ⟨_, rfl, ?_⟩
  have table : Attachment.table (Attachment.bindings ((Outline.ofTokens r.tokens).returned name)
      (r.returned shift).notes.toArray [] 0 (r.returned shift).tokens) =
      (Attachment.table (Attachment.bindings (.ofTokens r.tokens) r.notes.toArray [] 0
        r.tokens)).returned shift name := by
    rw [← Attachment.table_returned shift inj, ← bound]
    rfl
  rw [table]
  rfl

/-! ## The whole file -/

/-- An identifier starts as one. -/
theorem Token.isIdentifierStart_of_hostShape {d : Dialect} {last : Option Token} {ch : Char}
    {rest : List Char} (ident : (hostShape d last ch rest).1 = .ident) :
    isIdentifierStart ch = true := by
  unfold hostShape at ident
  split at ident
  · unfold introducerShape at ident
    split at ident <;> cases ident
  · unfold shape at ident
    split at ident
    · cases ident
    split at ident
    · cases ident
    unfold plainShape at ident
    split at ident
    · assumption
    split_ifs at ident

namespace Reading

variable {d : Dialect} {source : String}

theorem any_head?_of_ident (d : Dialect) (ctx : Context) (c : Cursor) :
    ∀ t ∈ (ofPieces (pieces d ctx c)).tokens, t.kind = .ident →
      t.text.toList.head?.any isIdentifierStart = true := by
  induction ctx, c using pieces_induction with
  | last => exact List.forall_mem_nil _
  | cons ctx c gap ch rest text trivia starts ih =>
    refine List.forall_mem_cons.mpr ⟨fun ident => ?_, ih⟩
    have here := Cursor.rest_advance_append text
    have pos := Piece.length_pos d ctx (c.advance gap.length) (gap.count '\n') ch rest
    rw [Piece.readAfter] at ident ⊢
    dsimp only at ident ⊢
    rcases Piece.read_cases d ctx (c.advance gap.length) (gap.count '\n') ch rest with
      ⟨a, length, note, -⟩ | ⟨host, -⟩
    · rw [note] at ident
      cases ident
    · obtain ⟨token, length⟩ := Piece.read_hostShape host
      rw [length] at pos
      rw [token] at ident ⊢
      obtain ⟨n, size⟩ := Nat.exists_eq_add_one.mpr pos
      rw [size, Piece.tokenAt, Cursor.lexeme, here, String.toList_ofList, List.take_succ_cons]
      exact Token.isIdentifierStart_of_hostShape ident

/-- The names of the identifiers of a file are left as they are. -/
theorem named_ofPieces (d : Dialect) (ctx : Context) (c : Cursor) (shift : Nat → Nat) :
    ∀ t ∈ (ofPieces (pieces d ctx c)).tokens, t.kind = .ident →
      Name.returned shift t.text = Text.returned t.text := by
  intro t held ident
  have start := any_head?_of_ident d ctx c t held ident
  refine Name.returned_of_head fun head => ?_
  rw [head] at start
  exact absurd start (by decide)

/-- A file is read alike with carriage returns exactly when no line goes on in a literal or a
regular expression. Then its annotations are bound to the same targets by the same rules. -/
theorem ofSource?_returned_iff (valid : d.Valid) (inline : d.Inline)
    (plain : '\r' ∉ source.toList) :
    ∃ r r', ofSource? d source = some r ∧ ofSource? d (Text.returned source) = some r' ∧
      (r.SameLines r' ↔ ¬ GoesOn d .initial (.start source.toList)) ∧
      (¬ GoesOn d .initial (.start source.toList) → d.strict = false →
        ∃ a, Analysis.ofSource? d source = some (.ok a) ∧
          Analysis.ofSource? d (Text.returned source) = some (.ok (a.returned
            (Position.shifted source) (Name.returned (Position.shifted source))))) := by
  -- no hashbang line is torn when the marker is no carriage return
  have whole := ofSource?_eq_some inline.hashbang.2
  have deep := (Dialect.valid_iff.mp valid).1
  have zero := Position.shifted_eq_zero source
  have at_ := Cursor.Returned.start plain
  have list : (Text.returned source).toList = withReturns source.toList := String.toList_ofList
  have crlf : ofSource d (Text.returned source) =
      ofPieces (pieces d (Context.initial.returned (Position.shifted source))
        (.start (withReturns source.toList))) := by
    rw [ofSource, piecesOf, list]
    rfl
  have same (quiet : ¬ GoesOn d .initial (.start source.toList)) :
      ofSource d (Text.returned source) =
        (ofSource d source).returned (Position.shifted source) := by
    rw [crlf, pieces_withReturns inline zero at_ quiet]
    rfl
  refine ⟨_, _, whole _, whole _, ⟨fun alike goes => ?_, fun quiet => ?_⟩, fun quiet lenient => ?_⟩
  · rw [crlf] at alike
    exact not_sameLines_of_goesOn deep inline zero at_ goes alike
  · rw [same quiet]
    exact (plain_pieces d .initial (.start source.toList) plain).sameLines _
  · have named := named_ofPieces d .initial (.start source.toList) (Position.shifted source)
    obtain ⟨a, here, there⟩ := Analysis.ofReading_returned lenient (Name.renames _)
      (Name.returned_injective (Position.shifted_injective source)) named source
      (Text.returned source)
    refine ⟨a, ?_, ?_⟩
    · rw [Analysis.ofSource?, whole, Option.map_some]
      exact congrArg some here
    · rw [Analysis.ofSource?, whole, Option.map_some, same quiet]
      exact congrArg some there

theorem ofSource?_returned_iff_let :
    Dialect.hash.Valid ∧ Dialect.hash.Inline ∧ '\r' ∉ "let a #T\nlet b".toList ∧
      ¬ GoesOn .hash .initial (.start "let a #T\nlet b".toList) ∧
      ∃ a, Analysis.ofSource? .hash "let a #T\nlet b" = some (.ok a) ∧
        Analysis.ofSource? .hash "let a #T\r\nlet b" = some (.ok (a.returned
          (Position.shifted "let a #T\nlet b")
          (Name.returned (Position.shifted "let a #T\nlet b")))) := by
  have plain : '\r' ∉ "let a #T\nlet b".toList := by decide +kernel
  have text : Text.returned "let a #T\nlet b" = "let a #T\r\nlet b" := by decide
  obtain ⟨r, r', here, there, alike, bound⟩ :=
    ofSource?_returned_iff Dialect.hash_valid Dialect.hash_inline plain
  rw [text] at there bound
  have same : r.SameLines r' := by
    rw [eq_ofSource here, eq_ofSource there]
    constructor <;> decide +kernel
  exact ⟨Dialect.hash_valid, Dialect.hash_inline, plain, alike.mp same, bound (alike.mp same) rfl⟩

/-- A backslash before a line feed lets a quoted literal go on in the next line. Before a carriage
return it does not: the literal is left open there and takes up the rest of the text. -/
theorem ofSource?_returned_escape :
    Dialect.hash.Valid ∧ Dialect.hash.Inline ∧ '\r' ∉ "'a\\\nb' c".toList ∧
      ∃ r r', ofSource? .hash "'a\\\nb' c" = some r ∧
        ofSource? .hash (Text.returned "'a\\\nb' c") = some r' ∧ ¬ r.SameLines r' ∧
        r.tokens.map (·.kind) = [.string, .ident] ∧ r'.tokens.map (·.kind) = [.string] := by
  refine ⟨Dialect.hash_valid, Dialect.hash_inline, by decide +kernel, _, _,
    ofSource?_eq_some (by decide) _, ofSource?_eq_some (by decide) _, fun alike => ?_, ?_, ?_⟩
  · exact absurd (congrArg List.length alike.kinds) (by decide +kernel)
  all_goals decide +kernel

end Reading

end Gloss

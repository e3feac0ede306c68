import Gloss.Analysis
import Gloss.Data

/-!
# Data shapes of the findings

How spans, annotations, targets and problems are written as data. The fields
stand in the order of the declarations, with the tag of a variant first.
-/

namespace Gloss

/-- A span by its ends. -/
def Span.toData (s : Span) : Data := .record [("start", .number s.start), ("end", .number s.stop)]

/-- A place by offset, line and column. -/
def Position.toData (p : Position) : Data :=
  .record [("offset", .number p.offset), ("line", .number p.line), ("column", .number p.column)]

/-- A form by its name, with its bracket or quote. -/
def Form.toData (f : Form) : Data :=
  .record <| ("form", .text f.name) ::
    match f with
    | .block b => [("delimiter", .text b.name)]
    | .quoted q => [("quote", .char q)]
    | _ => []

/-- Both flags of a marker. -/
def Marker.toData (m : Marker) : Data :=
  .record [("optional", .bool m.optional), ("non_null", .bool m.nonNull)]

/-- The fields of an annotation. -/
def Note.fields (a : Note) : List (String × Data) :=
  [("span", a.span.toData), ("introducer", a.form.toData), ("payload", .text a.payload),
    ("payload_span", a.payloadSpan.toData), ("trailing", .ofOption Marker.toData a.marker)]

/-- An annotation with all that is known about it. -/
def Note.toData (a : Note) : Data := .record a.fields

/-- A target by its kind and names. -/
def Target.toData : Target → Data
  | moduleScope => .record [("kind", .text "module_scope")]
  | «variable» name => .record [("kind", .text "variable_declaration"), ("name", .text name)]
  | parameter function slot =>
    .record [("kind", .text "parameter"), ("function", .text function), ("index", .number slot)]
  | functionReturn function =>
    .record [("kind", .text "function_return"), ("function", .text function)]
  | classMember owner member =>
    .record [("kind", .text "class_member"), ("class", .text owner), ("member", .text member)]
  | constructorParameter owner slot =>
    .record [("kind", .text "class_constructor_parameter"), ("class", .text owner),
      ("index", .number slot)]
  | importSpecifier source name =>
    .record [("kind", .text "import_specifier"), ("module", .text source), ("name", .text name)]
  | exportSpecifier name => .record [("kind", .text "export_specifier"), ("name", .text name)]

/-- An attachment by its annotation and rule. -/
def Attachment.toData (a : Attachment) : Data :=
  .record [("node", a.note.toData), ("rule", .text a.rule.name)]

/-- A table as the list of its entries. -/
def Table.toData (t : Table) : Data :=
  .list <| t.entries.map fun e =>
    .record [("target", e.target.toData),
      ("annotations", .list (e.attachments.map Attachment.toData))]

/-- A problem by its wording and place. -/
def Problem.toData (p : Problem) : Data :=
  .record [("message", .text p.message), ("position", p.position.toData)]

/-- The fields of an analysis. -/
def Analysis.fields (a : Analysis) : List (String × Data) :=
  [("nodes", .list (a.notes.map Note.toData)), ("table", a.table.toData),
    ("diagnostics", .list (a.problems.map Problem.toData))]

/-- The name of a token kind. -/
def Token.Kind.name : Token.Kind → String
  | ident => "ident"
  | keyword => "keyword"
  | privateName => "private_name"
  | number => "number"
  | string => "string"
  | regex => "regex"
  | punct => "punct"
  | arrow => "arrow"
  | note _ => "annotation"

/-- A token kind by its name, with the index of an annotation. -/
def Token.Kind.toData (k : Token.Kind) : Data :=
  .record <| ("kind", .text k.name) ::
    match k with
    | note index => [("node", .number index)]
    | _ => []

/-- A token with its place and the line feeds before it. -/
def Token.toData (t : Token) : Data :=
  .record [("kind", t.kind.toData), ("text", .text t.text), ("span", t.span.toData),
    ("newlines_before", .number t.newlinesBefore)]

/-- All parts of a dialect. -/
def Dialect.toData (d : Dialect) : Data :=
  .record [("introducer", .char d.introducer),
    ("block_delimiters", .list (d.brackets.map fun b => .text b.name)),
    ("special_chars", .list (d.specials.map .char)),
    ("max_nesting_depth", .number d.depthLimit),
    ("hashbang_marker", .ofOption .char d.hashbang),
    ("disambiguator", .ofOption .char d.disambiguator),
    ("quoted_blocks", .bool d.quotedBlocks),
    ("strict_attachment", .bool d.strict)]

end Gloss

import Gloss.Proofs.Inertness
import Gloss.Proofs.Lines
import Gloss.Proofs.Octets
import Gloss.Proofs.StrideLengths
import Gloss.Proofs.Tiling
import Gloss.Attachment

/-!
# Nothing is cut out of place

Whatever the text and the dialect, valid or not, what the readers compute lies in
the text and starts and ends between characters: tokens, annotations with their
payloads, and the places of malformed annotations (`Reading.ofSource?_safe`). The readers
of literals and regular expressions, which look at bytes, end between characters
too. Every token and every stride of the outline takes up something, so reading
and walking come to an end.
-/

namespace Gloss

open Host

/-! ## Boundaries -/

/-- A cursor of a text: it is reached from the start over some characters. -/
def Cursor.IsBoundary (source : List Char) (c : Cursor) : Prop := ∃ n, c = (start source).advance n

/-- A span that lies in a text with its ends between characters, and the text that it covers. -/
structure Span.Covers (s : Span) (source text : String) : Prop where
  ordered : s.start ≤ s.stop
  inside : s.stop ≤ Text.width source.toList
  slice : s.slice? source = some text

/-- The first parts of a text are the same when they have the same width. -/
theorem Text.append_inj_of_width {as bs cs ds : List Char} (same : as ++ bs = cs ++ ds)
    (size : width as = width cs) : as = cs ∧ bs = ds := by
  have cut := splitBytes?_width_append as bs
  rw [same, size, splitBytes?_width_append] at cut
  exact (Prod.mk.inj (Option.some.inj cut)).imp Eq.symm Eq.symm

/-- What a span covers has a part of the text before it and another after it. -/
theorem Span.covers_iff {s : Span} {source text : String} :
    s.Covers source text ↔ ∃ before after, source.toList = before ++ (text.toList ++ after) ∧
      s.start = Text.width before ∧ s.stop = s.start + Text.width text.toList := by
  constructor
  · rintro ⟨ordered, -, slice⟩
    obtain ⟨middle, part, rfl⟩ := Option.map_eq_some_iff.mp slice
    rw [Text.slice?, if_pos ordered] at part
    obtain ⟨⟨before, rest⟩, cut, part⟩ := Option.bind_eq_some_iff.mp part
    obtain ⟨⟨middle, after⟩, cut', rfl⟩ := Option.map_eq_some_iff.mp part
    obtain ⟨whole, start⟩ := Text.splitBytes?_eq_some cut
    obtain ⟨rfl, size⟩ := Text.splitBytes?_eq_some cut'
    rw [String.toList_ofList]
    exact ⟨before, after, whole, start.symm, by dsimp only at size ⊢; omega⟩
  · rintro ⟨before, after, whole, start, stop⟩
    refine ⟨by omega, ?_, ?_⟩
    · rw [whole, Text.width_append, Text.width_append]
      omega
    · rw [slice?, stop, start, whole, ← List.append_assoc, Text.slice?_append, Option.map_some,
        String.ofList_toList]

/-- A place between characters of a text. -/
def Position.IsBoundary (source : List Char) (p : Position) : Prop :=
  ∃ c : Cursor, c.IsBoundary source ∧ p = c.position

namespace Cursor

variable {source : List Char} {c : Cursor}

theorem isBoundary_start (source : List Char) : (start source).IsBoundary source := ⟨0, rfl⟩

theorem IsBoundary.advance (boundary : c.IsBoundary source) (n : Nat) :
    (c.advance n).IsBoundary source := by
  obtain ⟨m, rfl⟩ := boundary
  exact ⟨m + n, advance_advance ..⟩

/-- A boundary parts the text. -/
theorem IsBoundary.exists_append (boundary : c.IsBoundary source) :
    ∃ before, source = before ++ c.rest ∧ c.offset = Text.width before := by
  obtain ⟨n, rfl⟩ := boundary
  refine ⟨source.take n, ?_, ?_⟩
  · rw [advance_rest]
    exact (List.take_append_drop n source).symm
  · rw [advance_offset]
    exact Nat.zero_add _

/-- The next characters after a boundary are what their span covers. -/
theorem IsBoundary.covers {source : String} (boundary : c.IsBoundary source.toList)
    (length : Nat) : (c.span length).Covers source (c.lexeme length) := by
  obtain ⟨before, text, here⟩ := boundary.exists_append
  obtain ⟨before', text', here'⟩ := (boundary.advance length).exists_append
  refine ⟨c.offset_le_advance length, ?_, ?_⟩
  · rw [text', Text.width_append, ← here']
    exact Nat.le_add_right ..
  · have slice := Piece.slice_tokenAt c before here 0 .punct length
    rw [← text] at slice
    rw [Span.slice?]
    exact (congrArg _ slice).trans (congrArg some String.ofList_toList)

end Cursor

/-! ## Annotations -/

/-- An annotation that lies in a text, with its payload inside of it. -/
structure Note.Fits (source : String) (a : Note) : Prop where
  covers : ∃ text, a.span.Covers source text
  payload : a.payloadSpan.Covers source a.payload
  starts : a.span.start ≤ a.payloadSpan.start
  stops : a.payloadSpan.stop ≤ a.span.stop

/-- What stands at an introducer fits: an annotation starts there and takes up characters that the
text has, and a malformed one has a place in the text. -/
def Scan.Fits (source : String) (c : Cursor) : Scan → Prop
  | .plain => True
  | .found a length =>
    a.Fits source ∧ a.span = c.span length ∧ 0 < length ∧ length ≤ c.rest.length
  | .malformed m => m.position.IsBoundary source.toList
  | .torn => False

/-- Flags lie in the text that they are read from. -/
theorem Marker.read_le (m : Marker) (length : Nat) (cs : List Char) :
    (m.read length cs).2 ≤ length + cs.length := by
  fun_induction read m length cs with
  | case1 => exact Nat.le_refl _
  | case2 _ _ _ _ _ ih | case3 _ _ _ _ _ _ ih =>
    rw [List.length_cons]
    omega
  | case4 => exact Nat.le_add_right ..

theorem Marker.run_le (cs : List Char) : (run cs).2 ≤ cs.length := by
  have bound := none.read_le 0 cs
  unfold run
  split
  · exact Nat.zero_le _
  · next read => rwa [read, Nat.zero_add] at bound

namespace Block

variable {limit : Nat} {own : Bracket} {start : Position} {stack : List Bracket} {read : Nat}
  {c : Cursor}

/-- The bracket that closes a block comes after its payload. -/
theorem lt_of_close {length : Nat} (closed : close limit own start stack read c = .ok length) :
    length < read + c.rest.length := by
  fun_induction close limit own start stack read c with
  | case1 => cases closed
  | case2 stack read c item found stack' go ih =>
    have later := ih closed
    have bound := (item?_length found).1
    rw [Cursor.advance_rest, List.length_drop] at later
    omega
  | case3 stack read c item found done =>
    obtain rfl := Except.ok.inj closed
    have more : c.rest ≠ [] := by
      intro none
      rw [none] at found
      cases found
    have := List.length_pos_iff.mpr more
    omega
  | case4 => cases closed

/-- The flaw of a block is where the annotation starts, or at an item of the body. -/
theorem position_of_close {m : Malformed}
    (failed : close limit own start stack read c = .error m) :
    m.position = start ∨ ∃ n, m.position = (c.advance n).position := by
  fun_induction close limit own start stack read c with
  | case1 =>
    obtain rfl := Except.error.inj failed
    exact .inl rfl
  | case2 stack read c item found stack' go ih =>
    rcases ih failed with first | ⟨n, later⟩
    · exact .inl first
    · rw [Cursor.advance_advance] at later
      exact .inr ⟨_, later⟩
  | case3 => cases failed
  | case4 =>
    obtain rfl := Except.error.inj failed
    exact .inr ⟨0, rfl⟩

end Block

/-- The character that closes a literal is one of its own. -/
theorem Host.Literal.lt_of_close {layers : List Layer} {read length : Nat} {cs : List Char}
    (open_ : layers ≠ []) (closed : close layers read cs = some length) : read < length := by
  cases layers with
  | nil => exact absurd rfl open_
  | cons layer outer =>
    cases cs with
    | nil => cases closed
    | cons c rest =>
      rw [close] at closed
      split at closed
      · exact (close_le closed).1
      · split at closed
        · cases closed
        · exact Nat.lt_of_succ_lt (close_le closed).1
      · cases closed

/-- A literal has two quotes. -/
theorem Host.Literal.two_le_of_extent? {cs : List Char} {length : Nat}
    (closed : extent? cs = some (.closed length)) : 2 ≤ length := by
  have ends {layer : Layer} {rest : List Char}
      (closed : Extent.ofEnd (close [layer] 1 rest) = .closed length) : 2 ≤ length :=
    lt_of_close (List.cons_ne_nil _ _) (ofEnd_eq_closed.mp closed)
  cases cs with
  | nil => cases closed
  | cons c rest =>
    rw [extent?] at closed
    split at closed
    · exact ends (Option.some.inj closed)
    split at closed
    · exact ends (Option.some.inj closed)
    · cases closed

namespace Note

variable {d : Dialect} {memberStart : Bool} {c : Cursor} {a : Note} {length : Nat}

theorem length_le_of_scanWord (found : scanWord d memberStart c = .found a length) :
    length ≤ c.rest.length := by
  have flags_le {form : Form} {payload : Nat} (room : wordOpening d c + payload ≤ c.rest.length)
      (found : flagged c form (wordOpening d c) payload = .found a length) :
      length ≤ c.rest.length := by
    obtain ⟨-, rfl⟩ := Scan.found.inj found
    have flags := Marker.run_le (c.rest.drop (wordOpening d c + payload))
    rw [List.length_drop] at flags
    omega
  unfold scanWord at found
  split at found
  · cases found
  next ch rest text =>
  have room := congrArg List.length text
  rw [List.length_drop, List.length_cons] at room
  have run : identifierRun rest ≤ rest.length := (List.takeWhile_sublist _).length_le
  split at found
  · split at found
    · cases found
    split at found
    · cases found
    · exact flags_le (by omega) found
  split at found
  · exact flags_le (by omega) found
  · cases found

/-- An annotation takes up characters that the text has. -/
theorem length_le_of_scan (found : scan d memberStart c = .found a length) :
    length ≤ c.rest.length := by
  unfold scan at found
  split at found
  · cases found
  next first rest text =>
  split at found
  · cases found
  split at found
  · exact length_le_of_scanWord found
  next ch follows =>
  obtain ⟨more, rfl⟩ := List.head?_eq_some_iff.mp follows
  rw [text, List.length_cons, List.length_cons]
  split at found
  · unfold scanHashbang at found
    split at found
    · cases found
    · obtain ⟨-, rfl⟩ := Scan.found.inj found
      have line : (lineBody more).length ≤ more.length := by
        have whole := (List.takeWhile_sublist (· ≠ '\n') (l := more)).length_le
        unfold lineBody
        dsimp only
        split
        · rw [List.length_dropLast]
          omega
        · exact whole
      rw [text, List.drop_succ_cons, List.drop_succ_cons, List.drop_zero]
      omega
  split at found
  · unfold scanBlock at found
    split at found
    · cases found
    split at found
    · next payload closed =>
      obtain ⟨-, rfl⟩ := Scan.found.inj found
      have inside := Block.lt_of_close closed
      rw [Cursor.advance_rest, text, List.drop_succ_cons, List.drop_succ_cons, List.drop_zero]
        at inside
      omega
    · cases found
  split at found
  · unfold scanQuoted at found
    split at found
    · cases found
    · cases found
    · next payload closed =>
      obtain ⟨-, rfl⟩ := Scan.found.inj found
      have quotes := Literal.two_le_of_extent? closed
      have inside := (Literal.extent?_closed_le closed).2
      rw [text, List.drop_succ_cons, List.drop_zero, List.length_cons] at inside
      omega
  · have bound := length_le_of_scanWord found
    rwa [text, List.length_cons, List.length_cons] at bound

/-- What is cut out of a text fits. -/
theorem fits_cut {source : String} (boundary : c.IsBoundary source.toList) (form : Form)
    (opening payload closing : Nat) (marker : Option Marker) :
    (cut c form opening payload closing marker).Fits source where
  covers := ⟨_, boundary.covers _⟩
  payload := (boundary.advance opening).covers payload
  starts := c.offset_le_advance opening
  stops := by
    show ((c.advance opening).advance payload).offset ≤
      (c.advance (opening + payload + closing)).offset
    rw [← Cursor.advance_advance, ← Cursor.advance_advance]
    exact Cursor.offset_le_advance ..

/-- A flaw is found between characters of the text. -/
theorem isBoundary_of_scan {source : List Char} (boundary : c.IsBoundary source) {m : Malformed}
    (flawed : scan d memberStart c = .malformed m) : m.position.IsBoundary source := by
  have word (flawed : scanWord d memberStart c = .malformed m) :
      m.position.IsBoundary source := by
    unfold scanWord flagged at flawed
    split at flawed
    · cases flawed
    · repeat' split at flawed
      all_goals cases flawed
  unfold scan at flawed
  split at flawed
  · cases flawed
  split at flawed
  · cases flawed
  split at flawed
  · exact word flawed
  split at flawed
  · unfold scanHashbang at flawed
    split at flawed <;> cases flawed
  split at flawed
  · unfold scanBlock at flawed
    split at flawed
    · obtain rfl := Scan.malformed.inj flawed
      exact ⟨_, boundary.advance 1, rfl⟩
    split at flawed
    · cases flawed
    · next failed =>
      obtain rfl := Scan.malformed.inj flawed
      rcases Block.position_of_close failed with first | ⟨n, later⟩
      · exact ⟨c, boundary, first⟩
      · exact ⟨_, (boundary.advance 2).advance n, later⟩
  split at flawed
  · unfold scanQuoted at flawed
    split at flawed
    · cases flawed
    · obtain rfl := Scan.malformed.inj flawed
      exact ⟨_, boundary.advance 1, rfl⟩
    · cases flawed
  · exact word flawed

/-- Between any two characters of a text an annotation can be looked for. -/
theorem scan_fits {source : String} (marker : d.hashbang ≠ some '\r')
    (boundary : c.IsBoundary source.toList) (memberStart : Bool) :
    (scan d memberStart c).Fits source c := by
  cases stands : scan d memberStart c with
  | plain => trivial
  | found a length =>
    obtain ⟨form, opening, payload, closing, marker, cut, -⟩ := isCut_of_scan stands
    have fits := fits_cut boundary form opening payload closing marker
    rw [← cut] at fits
    exact ⟨fits, span_of_scan stands, length_pos_of_scan stands, length_le_of_scan stands⟩
  | malformed m => exact isBoundary_of_scan boundary stands
  | torn => exact absurd stands (scan_ne_torn marker memberStart c)

end Note

/-! ## Readings -/

/-- What a step of the reader yields fits: the token is the next characters after a boundary, at
least one, and what was found at an introducer was found there. -/
structure Piece.FitsAt (source : String) (p : Piece) (c : Cursor) : Prop where
  boundary : c.IsBoundary source.toList
  span : p.token.span = c.span p.length
  text : p.token.text = c.lexeme p.length
  pos : 0 < p.length
  le : p.length ≤ c.rest.length
  scan : ∀ scan, p.scan = some scan → scan.Fits source c

/-- Everything that was read lies in the text between characters, and the tokens come one after the
other. -/
structure Reading.Fits (source : String) (r : Reading) : Prop where
  tokens : ∀ t ∈ r.tokens, t.span.Covers source t.text ∧ t.span.start < t.span.stop
  advances : r.tokens.Pairwise fun t u => t.span.stop ≤ u.span.start
  notes : ∀ a ∈ r.notes, a.Fits source
  malformed : ∀ m ∈ r.malformed, m.position.IsBoundary source.toList

section Reading

variable {d : Dialect} {source : String}

theorem Piece.fitsAt_read {ctx : Context} {c : Cursor} {newlines : Nat} {ch : Char}
    {rest : List Char} (marker : d.hashbang ≠ some '\r') (boundary : c.IsBoundary source.toList)
    (here : c.rest = ch :: rest) : (read d ctx c newlines ch rest).1.FitsAt source c := by
  obtain ⟨kind, token⟩ := exists_token_read d ctx c newlines ch rest
  refine ⟨boundary, by rw [token]; rfl, by rw [token]; rfl, length_pos .., ?_,
    fun scan stands => ?_⟩
  · by_cases host : (read d ctx c newlines ch rest).1.note? = none
    · rw [(read_hostShape host).2, here]
      exact Token.hostShape_le ..
    · by_cases intro : ch = d.introducer
      · cases stands : Note.scan d (ctx.afterGap newlines).atMemberStart c with
        | found a length =>
          rw [read_note intro stands]
          exact Note.length_le_of_scan stands
        | plain | malformed | torn =>
          rw [read_plain intro stands (by simp)] at host
          exact absurd rfl host
      · rw [read_host intro] at host
        exact absurd rfl host
  · rw [read_scan] at stands
    split at stands
    · obtain rfl := Option.some.inj stands
      exact Note.scan_fits marker boundary _
    · cases stands

/-- Every piece of a text fits where it was read. -/
theorem Reading.pieces_fit {c : Cursor} (ctx : Context) (marker : d.hashbang ≠ some '\r')
    (boundary : c.IsBoundary source.toList) :
    ∀ p ∈ pieces d ctx c, ∃ c', p.FitsAt source c' := by
  induction ctx, c using Reading.pieces_induction with
  | last ctx c end_ =>
    intro p held
    cases held
  | cons ctx c gap ch rest text trivia starts ih =>
    have here := boundary.advance gap.length
    intro p held
    rcases List.mem_cons.mp held with rfl | held
    · exact ⟨_, Piece.fitsAt_read marker here (Cursor.rest_advance_append text)⟩
    · exact ih (here.advance _) p held

/-- Tokens that tile a text come one after the other. -/
theorem Token.Tile.advances {source : List Char} {offset : Nat} {ts : List Token}
    (tile : Tile source offset ts) : ts.Pairwise fun t u => t.span.stop ≤ u.span.start := by
  induction ts generalizing offset with
  | nil => exact .nil
  | cons t ts ih =>
    obtain ⟨-, -, -, later⟩ := tile
    exact List.pairwise_cons.mpr ⟨fun u member => later.le_start member, ih later⟩

/-- A file is read between its characters. -/
theorem Reading.ofSource_fits (marker : d.hashbang ≠ some '\r') (source : String) :
    (ofSource d source).Fits source := by
  have fits := pieces_fit .initial marker (Cursor.isBoundary_start source.toList)
  refine ⟨fun t held => ?_, (ofSource_tile d source).advances, fun a held => ?_,
    fun m held => ?_⟩
  · obtain ⟨p, member, rfl⟩ := List.mem_map.mp held
    obtain ⟨c, boundary, span, text, pos, le, -⟩ := fits p member
    obtain ⟨ch, rest, here⟩ := List.exists_cons_of_length_pos (Nat.lt_of_lt_of_le pos le)
    rw [span, text]
    exact ⟨boundary.covers _, Cursor.offset_lt_advance here pos⟩
  · obtain ⟨p, held, note⟩ := List.mem_filterMap.mp held
    obtain ⟨c, -, -, -, -, -, scan⟩ := fits p held
    unfold Piece.note? at note
    split at note
    · next a' length found =>
      obtain rfl := Option.some.inj note
      exact (scan _ found).1
    · cases note
  · obtain ⟨p, held, flawed⟩ := List.mem_filterMap.mp held
    obtain ⟨c, -, -, -, -, -, scan⟩ := fits p held
    unfold Piece.malformed? at flawed
    split at flawed
    · next m' found =>
      obtain rfl := Option.some.inj flawed
      exact scan _ found
    · cases flawed

end Reading

/-! ## The whole engine -/

/-- Whatever is looked for at a boundary ends at a boundary: annotations, and the literals and
regular expressions that are found in the bytes of the text. -/
structure Cursor.Scans (d : Dialect) (source : String) (c : Cursor) : Prop where
  note : ∀ memberStart, (Note.scan d memberStart c).Fits source c
  literal : Literal.extent? (Text.octets c.rest) =
    (Literal.extent? c.rest).map (·.inBytes c.rest)
  regex : ∀ prev, Regex.extent? prev (Text.octets c.rest) =
    (Regex.extent? prev c.rest).map (·.inBytes c.rest)

namespace Reading.Fits

variable {source : String} {r : Reading} (fits : r.Fits source)
include fits

/-- Annotations that fit can be named by their places. -/
theorem attach?_eq_some (d : Dialect) :
    Attachment.attach? d source r.tokens r.notes =
      some (Attachment.attach d source r.tokens r.notes) := by
  refine Attachment.attach?_eq_some fun a held => ?_
  obtain ⟨text, covers⟩ := (fits.notes a held).covers
  obtain ⟨before, after, whole, start, -⟩ := Span.covers_iff.mp covers
  rw [start, ← String.ofList_toList (s := source), whole, LineTable.position?_width]
  rfl

end Reading.Fits

/-- What a boundary offers to the readers is found and ends at boundaries. -/
theorem Cursor.IsBoundary.scans {d : Dialect} {source : String} {c : Cursor}
    (marker : d.hashbang ≠ some '\r') (boundary : c.IsBoundary source.toList) :
    c.Scans d source where
  note := Note.scan_fits marker boundary
  literal := Literal.extent?_octets c.rest
  regex prev := Regex.extent?_octets prev c.rest

/-- Every file is read, outlined, bound and stripped, under any dialect whose hashbang marker is no
carriage return. Everything that is cut out of the text lies in it between characters, each token
comes after the one before, each step of the outline takes up a token, and at every boundary of the
text the readers find what ends at a boundary. -/
theorem Reading.ofSource?_safe {d : Dialect} (marker : d.hashbang ≠ some '\r') (source : String) :
    (∃ r, ofSource? d source = some r ∧ r.Fits source ∧
      (∀ s ∈ Outline.steps r.tokens, 0 < s.stride.length) ∧
      (∃ bound, Attachment.attach? d source r.tokens r.notes = some bound) ∧
      ∃ left, Removal.ofNotes? source r.notes = some left) ∧
    ∀ c : Cursor, c.IsBoundary source.toList → c.Scans d source := by
  have fits := ofSource_fits marker source
  obtain ⟨left, removed, -⟩ :=
    Removal.removeFrom_spans d .initial (.start source.toList) none
  have stripped : Removal.ofNotes? source (ofSource d source).notes =
      some (String.ofList left) := by
    rw [ofNotes?_ofSource]
    exact congrArg _ removed
  exact ⟨⟨_, ofSource?_eq_some marker source, fits, Outline.walk_length_pos _ _ _ _,
    ⟨_, fits.attach?_eq_some d⟩, _, stripped⟩, fun c boundary => boundary.scans marker⟩

/-- An escaped character of two bytes, and literals and annotations that are left open. -/
theorem Reading.ofSource?_safe_escapes :
    Dialect.hash.hashbang ≠ some '\r' ∧
      (∃ r, ofSource? .hash "#!é\r\n'\\é' /[é/]\\é/g #T? #<'é\\" = some r ∧
        r.Fits "#!é\r\n'\\é' /[é/]\\é/g #T? #<'é\\" ∧
        (∀ s ∈ Outline.steps r.tokens, 0 < s.stride.length) ∧
        (∃ bound, Attachment.attach? .hash "#!é\r\n'\\é' /[é/]\\é/g #T? #<'é\\" r.tokens
          r.notes = some bound) ∧
        ∃ left, Removal.ofNotes? "#!é\r\n'\\é' /[é/]\\é/g #T? #<'é\\" r.notes =
          some left) ∧
      ∀ c : Cursor, c.IsBoundary "#!é\r\n'\\é' /[é/]\\é/g #T? #<'é\\".toList →
        c.Scans .hash "#!é\r\n'\\é' /[é/]\\é/g #T? #<'é\\" :=
  ⟨by decide, (ofSource?_safe (by decide) _).1, (ofSource?_safe (by decide) _).2⟩

end Gloss

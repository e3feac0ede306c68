import Gloss.Host.Identifier
import Gloss.Proofs.NameLists
import Gloss.Proofs.Surroundings
import Mathlib.Data.List.DropRight

/-!
# Import and export clauses with lists

A clause outside of all brackets is read in one step (`Walk.step_export`, `Walk.step_import`). No
token and no annotation is part of two slots, so in whatever order names and free slots come and
wherever annotations stand, the first and the last token of each name get its site, and the
annotations of a free slot, and no others, are in a slot (`NameClause.Proper.listed_iff`). The
module of an import clause is read without any quotes at both ends. So a module whose name begins or
ends with a quote loses it (`Clause.unquote_eq_self_iff`).
-/

namespace Gloss

open Token (Seated)
open Host (isQuote)

/-! ## What a list places -/

namespace NameList

theorem Row.exists_of_mem_specifiers {r : Row} {s : Specifier} (held : s ∈ r.specifiers) :
    ∃ first ∈ r.tokens, ∃ last ∈ r.tokens, first.index = s.first ∧ last.index = s.last := by
  obtain ⟨names, stop⟩ := r
  unfold specifiers at held
  dsimp only at held
  split at held
  · next name =>
    rw [List.mem_singleton.mp held]
    exact ⟨name, .head _, name, .head _, rfl, rfl⟩
  · next name joint other =>
    rw [List.mem_singleton.mp held]
    exact ⟨name, .head _, other, .tail _ (.tail _ (.head _)), rfl, rfl⟩
  · cases held

/-- A slot with a name lists one specifier, from its first token to its last. -/
theorem Row.Proper.exists_specifier {r : Row} (proper : r.Proper) {first last : Seated}
    (head : r.names.head? = some first) (final : r.names.getLast? = some last) :
    ∃ name, Token.listedName? (r.names.map (·.toToken)) = some name ∧
      r.specifiers = [⟨first.index, last.index, name⟩] := by
  obtain ⟨names, stop⟩ := r
  rcases proper.cases with none_ | ⟨name, rfl, -⟩ | ⟨name, joint, other, rfl, -⟩
  · dsimp only at head none_
    rw [none_] at head
    cases head
  · cases head
    cases final
    exact ⟨_, rfl, rfl⟩
  · cases head
    cases final
    exact ⟨_, rfl, rfl⟩

section Rows

variable {ts : List Token} {rows : List Row}
  (sub : (rows.flatMap Row.tokens).Sublist (Token.hosts ts))
  {r : Row} (held : r ∈ rows)

include sub held

/-- Slots have no tokens in common. -/
theorem eq_of_mem_tokens {r' : Row} (held' : r' ∈ rows) {v v' : Seated} (member : v ∈ r.tokens)
    (member' : v' ∈ r'.tokens) (same : v.index = v'.index) : r = r' := by
  obtain ⟨-, apart⟩ := List.pairwise_flatMap.mp ((Token.pairwise_hosts ts).sublist sub)
  obtain ⟨xs, ys, rfl⟩ := List.append_of_mem held
  obtain ⟨-, late, early⟩ := List.pairwise_append.mp apart
  rcases List.mem_append.mp held' with held' | held'
  · have := early r' held' r (.head _) v' member' v member
    omega
  rcases List.mem_cons.mp held' with rfl | held'
  · rfl
  · have := (List.pairwise_cons.mp late).1 r' held' v member v' member'
    omega

/-- An annotation of a slot is free exactly when the slot has no name. -/
theorem mem_free_iff {v : Seated} (member : v ∈ r.tokens) {i : Nat} (note : i ∈ v.noteIndices) :
    i ∈ rows.flatMap Row.free ↔ r.names = [] := by
  have host {r' : Row} (held' : r' ∈ rows) {v' : Seated} (member' : v' ∈ r'.tokens) :
      v' ∈ Token.hosts ts := sub.subset (List.mem_flatMap.mpr ⟨r', held', member'⟩)
  constructor
  · intro free
    obtain ⟨r', held', free⟩ := List.mem_flatMap.mp free
    unfold Row.free at free
    split at free
    · next none_ =>
      have stop : r'.stop ∈ r'.tokens := List.mem_append_right _ (.head _)
      have same := Token.eq_of_mem_noteIndices (host held member) (host held' stop) note free
      rw [eq_of_mem_tokens sub held held' member stop (congrArg _ same), none_]
    · cases free
  · intro none_
    refine List.mem_flatMap.mpr ⟨r, held, ?_⟩
    rw [Row.tokens, none_] at member
    rw [Row.free, if_pos none_, ← List.mem_singleton.mp member]
    exact note

variable {site : String → Site} {clause : Clause} {slots : List Nat} (proper : r.Proper)
  {first last : Seated} (head : r.names.head? = some first) (final : r.names.getLast? = some last)

include proper head final

/-- The sites of a name are at its first token and at its last one. -/
theorem sites_place :
    let o : Outline := ⟨Clause.place site clause (rows.flatMap Row.specifiers) slots⟩
    ∃ name, Token.listedName? (r.names.map (·.toToken)) = some name ∧
      o.leading? first.index = some (site name) ∧ o.trailing? last.index = some (site name) := by
  intro o
  obtain ⟨name, listed, own⟩ := proper.exists_specifier head final
  have member : first ∈ r.tokens := List.mem_append_left _ (List.mem_of_head? head)
  have member' : last ∈ r.tokens := List.mem_append_left _ (List.mem_of_getLast? final)
  have here : ⟨first.index, last.index, name⟩ ∈ rows.flatMap Row.specifiers :=
    List.mem_flatMap.mpr ⟨r, held, own ▸ List.mem_singleton_self _⟩
  -- whatever else is placed belongs to other tokens
  have only {s : Specifier} (known : s ∈ rows.flatMap Row.specifiers)
      (same : s.first = first.index ∨ s.last = last.index) : s.name = name := by
    obtain ⟨r', held', known⟩ := List.mem_flatMap.mp known
    obtain ⟨t, here, u, here', index, index'⟩ := Row.exists_of_mem_specifiers known
    have row : r = r' := by
      rcases same with same | same
      · exact eq_of_mem_tokens sub held held' member here (index.trans same).symm
      · exact eq_of_mem_tokens sub held held' member' here' (index'.trans same).symm
    rw [← row, own] at known
    rw [List.mem_singleton.mp known]
  refine ⟨name, listed, ?_, ?_⟩
  · refine Outline.last?_of_only (Clause.mem_place.mpr (.inl ⟨_, here, .inl rfl⟩)) (if_pos rfl) ?_
    intro q placed a gives
    rcases Clause.mem_place.mp placed with ⟨s, known, rfl | rfl⟩ | ⟨i, -, rfl⟩
    · obtain ⟨same, rfl⟩ := Option.ite_some_none_eq_some.mp gives
      rw [only known (.inl same)]
    · cases gives
    · cases gives
  · refine Outline.last?_of_only (Clause.mem_place.mpr (.inl ⟨_, here, .inr rfl⟩)) (if_pos rfl) ?_
    intro q placed a gives
    rcases Clause.mem_place.mp placed with ⟨s, known, rfl | rfl⟩ | ⟨i, -, rfl⟩
    · cases gives
    · obtain ⟨same, rfl⟩ := Option.ite_some_none_eq_some.mp gives
      rw [only known (.inr same)]
    · cases gives

end Rows

/-- A step of a file takes up a list and places what the list says. -/
structure ReadBy (ts : List Token) (rows : List Row) (site : String → Site) (clause : Clause)
    (s : Step) : Prop where
  held : s ∈ Outline.steps ts
  placed : s.stride.placements =
    Clause.place site clause (rows.flatMap Row.specifiers) (rows.flatMap Row.free)
  taken : (rows.flatMap Row.tokens).Sublist (s.place.tokens.take s.stride.length)

namespace ReadBy

variable {ts : List Token} {rows : List Row} {site : String → Site} {clause : Clause} {s : Step}
  (read : ReadBy ts rows site clause s)
include read

theorem sublist : (rows.flatMap Row.tokens).Sublist (Token.hosts ts) :=
  read.taken.trans ((List.take_sublist _ _).trans (Outline.tokens_suffix read.held).sublist)

variable {index : Nat} {x : ListSlot} (own : x.row index ∈ rows) {xs ys : List Token} {t : Token}
  (inside : x.inside = xs ++ t :: ys)
include own

theorem mem_taken {v : Seated} (member : v ∈ (x.row index).tokens) :
    v ∈ s.place.tokens.take s.stride.length :=
  read.taken.subset (List.mem_flatMap.mpr ⟨_, own, member⟩)

include inside

/-- The first host token of a slot has the site of the name. -/
theorem leading? (proper : (x.row index).Proper) (notes : ∀ u ∈ xs, u.isNote = true)
    (host : t.isNote = false) :
    ∃ name, Token.listedName? x.names = some name ∧
      (Outline.ofTokens ts).leading? (index + xs.length) = some (site name) := by
  have head := ListSlot.head?_names_row index inside notes host
  have member := List.mem_of_head? head
  have final := List.getLast?_eq_some_getLast (List.ne_nil_of_mem member)
  obtain ⟨name, listed, leading, -⟩ := sites_place read.sublist own proper head final
  refine ⟨name, ListSlot.map_names_row index x ▸ listed, ?_⟩
  refine Outline.last?_of_taken read.held (read.mem_taken own (List.mem_append_left _ member)) ?_
    fun _ _ => Placement.host?_of_siteBefore?
  rw [read.placed]
  exact leading

/-- The last host token of a slot has the site of the name. -/
theorem trailing? (proper : (x.row index).Proper) (notes : ∀ u ∈ ys, u.isNote = true)
    (host : t.isNote = false) :
    ∃ name, Token.listedName? x.names = some name ∧
      (Outline.ofTokens ts).trailing? (index + xs.length) = some (site name) := by
  have final := ListSlot.getLast?_names_row index inside notes host
  have member := List.mem_of_getLast? final
  have head := List.head?_eq_some_head (List.ne_nil_of_mem member)
  obtain ⟨name, listed, -, trailing⟩ := sites_place read.sublist own proper head final
  refine ⟨name, ListSlot.map_names_row index x ▸ listed, ?_⟩
  refine Outline.last?_of_taken read.held (read.mem_taken own (List.mem_append_left _ member)) ?_
    fun _ _ => Placement.host?_of_siteAfter?
  rw [read.placed]
  exact trailing

/-- An annotation is in a slot of the clause exactly when no name is. -/
theorem slot? (stop : x.stop.isNote = false) (note : t.isNote = true) :
    (Outline.ofTokens ts).slot? (index + xs.length) =
      if x.names = [] then some clause else none := by
  obtain ⟨v, known, belongs⟩ := ListSlot.exists_mem_row index stop inside note
  rw [Outline.slot?_of_taken read.held (read.mem_taken own known) belongs, read.placed,
    Clause.slot?_place]
  refine if_congr ?_ rfl rfl
  rw [mem_free_iff read.sublist own known belongs, ← ListSlot.map_names_row index x,
    List.map_eq_nil_iff]

end ReadBy

end NameList

/-! ## The step over a clause -/

namespace Clause

open NameList (Row)

variable {more : List Row} {last : Row} {word brace : Seated} {rest : List Seated}
  (proper : ∀ r ∈ more ++ [last], r.Proper) (commas : ∀ r ∈ more, r.stop.isPunct "," = true)
  (ending : last.stop.isPunct "\x7d" = true) (opens : brace.isPunct "\x7b" = true)

include proper commas ending opens

/-- The list after the word of a clause. -/
theorem braces_rows :
    braces (word :: brace :: ((more ++ [last]).flatMap Row.tokens ++ rest)) 1 =
      ⟨(more ++ [last]).flatMap Row.specifiers, (more ++ [last]).flatMap Row.free,
        ((more ++ [last]).flatMap Row.tokens).length + 2⟩ := by
  have length : ((more ++ [last]).flatMap Row.tokens).length =
      (more.flatMap Row.tokens).length + last.names.length + 1 := by
    simp [Row.tokens, Nat.add_assoc]
  have read := NameList.read_rows rest proper commas ending 2
  have separator : NameList.opensSlot brace = true := by
    rw [NameList.opensSlot, opens, Bool.true_or]
  have slots := NameList.slots_rows rest proper commas separator
  rw [braces]
  simp only [List.drop_succ_cons, List.drop_zero, read, Option.getD_some]
  rw [show 2 + (more.flatMap Row.tokens).length + last.names.length - 1 =
    ((more ++ [last]).flatMap Row.tokens).length by omega, slots]
  exact congrArg (Braces.mk _ _) (by omega)

theorem readExport_rows :
    (readExport (word :: brace :: ((more ++ [last]).flatMap Row.tokens ++ rest)) 1).placements =
        place .exportName .exported ((more ++ [last]).flatMap Row.specifiers)
          ((more ++ [last]).flatMap Row.free) ∧
      ((more ++ [last]).flatMap Row.tokens).length + 2 ≤
        (readExport (word :: brace :: ((more ++ [last]).flatMap Row.tokens ++ rest)) 1).length := by
  rw [readExport, braces_rows proper commas ending opens]
  exact ⟨rfl, le_module? _ _⟩

/-- After the list the word `from` and a string give the module. -/
theorem readImport_rows {joint source : Seated} (text : joint.text = "from")
    (string : source.kind = .string) :
    (readImport (word :: brace :: ((more ++ [last]).flatMap Row.tokens ++
        joint :: source :: rest))).placements =
      place (.importName (unquote source.text)) (.importFrom (unquote source.text))
        ((more ++ [last]).flatMap Row.specifiers) ((more ++ [last]).flatMap Row.free) ∧
      ((more ++ [last]).flatMap Row.tokens).length + 2 ≤
        (readImport (word :: brace :: ((more ++ [last]).flatMap Row.tokens ++
          joint :: source :: rest))).length := by
  have list : braces (word :: brace :: ((more ++ [last]).flatMap Row.tokens ++
      joint :: source :: rest)) 1 = _ := braces_rows proper commas ending opens
  generalize (more ++ [last]).flatMap Row.tokens = us at list ⊢
  generalize tokens : word :: brace :: (us ++ joint :: source :: rest) = ts at list ⊢
  have kind := Token.kind_of_isPunct opens
  have second : ts[1]? = some brace := by rw [← tokens]; rfl
  have start : importStart ts = 1 := by
    have mark : brace.text = "\x7b" := by
      simp only [Token.isPunct, Bool.and_eq_true, beq_iff_eq] at opens
      exact opens.2
    simp [importStart, textAt, second, mark]
  have none_ (other : Token.Kind) (apart : other ≠ .punct) : kindAt ts 1 other = false := by
    simp [kindAt, second, kind, apart.symm]
  have star : punctAt ts 1 "*" = false := by simp [punctAt, second, Token.isPunct_eq_beq opens]
  have here : punctAt ts 1 "\x7b" = true := by simp [punctAt, second, opens]
  have module : module? ts (us.length + 2) = (some (unquote source.text), us.length + 4) := by
    have third : ts[us.length + 2]? = some joint := by simp [← tokens]
    have fourth : ts[us.length + 3]? = some source := by simp [← tokens]
    simp [module?, textAt, kindAt, third, fourth, text, string]
  have string' : kindAt ts 1 .string = false := none_ .string (by decide)
  have single : defaultName ts 1 = ([], 1) := by
    rw [defaultName, none_ .ident (by decide)]
    rfl
  have whole : namespaceName ts 1 = ([], 1) := by
    rw [namespaceName, star]
    rfl
  have listed : bracesAt ts 1 = _ := (if_pos here).trans list
  have read : readImport ts = _ := if_neg (start.symm ▸ string' ▸ Bool.false_ne_true)
  simp only [read, start, single, whole, listed, module]
  exact ⟨rfl, by omega⟩

end Clause

namespace Walk

variable {w : Walk} {p : Place}

theorem step_export (bare : w.depth = 0) (word : p.token.kind = .keyword)
    (text : p.token.text = "export") (opens : Clause.punctAt p.tokens 1 "\x7b" = true) :
    (w.step p).length = (Clause.readExport p.tokens 1).length ∧
      (w.step p).placements = (Clause.readExport p.tokens 1).placements := by
  have found : exportBrace? p = some 1 := if_pos opens
  rw [step_of_bare bare, plainStep, word]
  simp [keywordStep, text, found]

theorem step_import (bare : w.depth = 0) (word : p.token.kind = .keyword)
    (text : p.token.text = "import") :
    (w.step p).length = (Clause.readImport p.tokens).length ∧
      (w.step p).placements = (Clause.readImport p.tokens).placements := by
  rw [step_of_bare bare, plainStep, word]
  simp [keywordStep, text]

end Walk

/-! ## The module of a clause -/

namespace Clause

/-- The quotes around a text are no more than the quotes at its ends. -/
theorem unquote_of_quoted {text inner : String} {q : Char} (quote : isQuote q = true)
    (quoted : text.toList = q :: (inner.toList ++ [q])) : unquote text = unquote inner := by
  rw [unquote_eq, unquote_eq, quoted, List.dropWhile_cons_of_pos quote, List.dropWhile_append]
  split
  · next none_ =>
    rw [List.isEmpty_iff.mp none_, List.dropWhile_cons_of_pos quote, List.dropWhile_nil]
  · rw [List.rdropWhile_concat_pos _ _ _ quote]

/-- A text stays as it is exactly when it neither begins nor ends with a quote. -/
theorem unquote_eq_self_iff (text : String) :
    unquote text = text ↔
      text.toList.head?.any isQuote = false ∧ text.toList.getLast?.any isQuote = false := by
  have same : unquote text = text ↔
      (text.toList.dropWhile isQuote).rdropWhile isQuote = text.toList := by
    rw [unquote_eq, ← String.toList_inj, String.toList_ofList]
  rw [same]
  generalize text.toList = cs
  have front : cs.dropWhile isQuote = cs ↔ cs.head?.any isQuote = false := by
    cases cs with
    | nil => simp
    | cons c cs => simp [List.dropWhile_eq_self_iff]
  have back : cs.rdropWhile isQuote = cs ↔ cs.getLast?.any isQuote = false := by
    rcases List.eq_nil_or_concat cs with rfl | ⟨early, c, rfl⟩
    · simp
    · simp [List.rdropWhile_eq_self_iff]
  rw [← front, ← back]
  constructor
  · intro whole
    -- neither end can lose anything when nothing is lost
    have first : cs.dropWhile isQuote = cs := by
      refine (List.dropWhile_suffix isQuote).eq_of_length_le ?_
      rw [← congrArg List.length whole]
      exact (List.rdropWhile_prefix isQuote _).length_le
    rw [first] at whole
    exact ⟨first, whole⟩
  · rintro ⟨first, last⟩
    rw [first, last]

end Clause

/-! ## Clauses in a file -/

/-- What a clause does with the names of its list. -/
inductive ClauseUse : Type
  | exports
  | imports (module : String)

namespace ClauseUse

/-- The site of a name. -/
def site : ClauseUse → String → Site
  | exports => .exportName
  | imports module => .importName module

/-- The clause of a slot. -/
def clause : ClauseUse → Clause
  | exports => .exported
  | imports module => .importFrom module

/-- The clause as it is read: quotes at the ends of the name of the module are lost. -/
def read : ClauseUse → ClauseUse
  | exports => exports
  | imports module => imports (Clause.unquote module)

/-- The name of the module neither begins nor ends with a quote. -/
def Plain : ClauseUse → Prop
  | exports => True
  | imports module =>
    module.toList.head?.any isQuote = false ∧ module.toList.getLast?.any isQuote = false

theorem read_eq_self_iff (use : ClauseUse) : use.read = use ↔ use.Plain := by
  cases use with
  | exports => exact iff_of_true rfl trivial
  | imports module =>
    rw [read, imports.injEq, Clause.unquote_eq_self_iff]
    rfl

theorem clause_injective {use use' : ClauseUse} (same : use.clause = use'.clause) : use = use' := by
  cases use <;> cases use' <;> simp_all [clause]

theorem eq_of_site {use use' : ClauseUse} {name name' : String}
    (same : use.site name = use'.site name') : use = use' := by
  cases use <;> cases use' <;> simp_all [site]

/-- The clause has this word, and these tokens come after its list. -/
inductive Ends (word : Token) : List Token → ClauseUse → Prop
  | exports (after : List Token) : word.text = "export" → Ends word after .exports
  | imports {gap gap' rest : List Token} {joint source : Token} {module : String} {q : Char} :
    word.text = "import" → (∀ t ∈ gap ++ gap', t.isNote = true) →
    joint.isNote = false → joint.text = "from" → source.kind = .string →
    isQuote q = true → source.text.toList = q :: (module.toList ++ [q]) →
    Ends word (gap ++ joint :: (gap' ++ source :: rest)) (.imports module)

theorem Ends.near {word joint source : Token} {module : String} {q : Char}
    (import_ : word.text = "import") (host : joint.isNote = false) (from_ : joint.text = "from")
    (string : source.kind = .string) (quote : isQuote q = true)
    (quoted : source.text.toList = q :: (module.toList ++ [q])) :
    Ends word [joint, source] (.imports module) :=
  @imports word [] [] [] joint source module q import_ (List.forall_mem_nil _) host from_ string
    quote quoted

end ClauseUse

/-- A clause up to the brace that closes its list. Annotations may stand before the list and
anywhere in it. -/
structure NameClause : Type where
  word : Token
  gap : List Token
  brace : Token
  more : List ListSlot
  last : ListSlot

namespace NameClause

def slots (c : NameClause) : List ListSlot := c.more ++ [c.last]

/-- The clause up to some of its slots. -/
def front (c : NameClause) (earlier : List ListSlot) : List Token :=
  c.word :: (c.gap ++ c.brace :: earlier.flatMap ListSlot.tokens)

def tokens (c : NameClause) : List Token := c.front c.slots

/-- Each slot is free, or has a name that may have an alias. -/
structure Proper (c : NameClause) : Prop where
  word : c.word.kind = .keyword
  gap : ∀ t ∈ c.gap, t.isNote = true
  brace : c.brace.isPunct "\x7b" = true
  filled : ∀ x ∈ c.slots, Token.fillSlot x.names = true
  commas : ∀ x ∈ c.more, x.stop.isPunct "," = true
  ending : c.last.stop.isPunct "\x7d" = true

/-- The seats of the slots, when the clause stands at an index. -/
def rows (c : NameClause) (index : Nat) : List NameList.Row :=
  ListSlot.rows (index + (c.front []).length) c.slots

namespace Proper

variable {c : NameClause} (proper : c.Proper)
include proper

theorem stop {x : ListSlot} (held : x ∈ c.slots) :
    x.stop.isPunct "," = true ∨ x.stop.isPunct "\x7d" = true := by
  rcases List.mem_append.mp held with held | held
  · exact .inl (proper.commas x held)
  · rw [List.mem_singleton.mp held]
    exact .inr proper.ending

theorem stop_host {x : ListSlot} (held : x ∈ c.slots) : x.stop.isNote = false := by
  rcases proper.stop held with stop | stop <;> exact Token.isNote_of_isPunct stop

theorem row {x : ListSlot} (held : x ∈ c.slots) (index : Nat) : (x.row index).Proper where
  names := by
    rw [ListSlot.map_names_row]
    exact proper.filled x held
  stop := proper.stop held

/-- The list of a clause is one that `NameList.read` can read. -/
theorem exists_rows (index : Nat) :
    ∃ more last, c.rows index = more ++ [last] ∧ (∀ r ∈ more ++ [last], r.Proper) ∧
      (∀ r ∈ more, r.stop.isPunct "," = true) ∧ last.stop.isPunct "\x7d" = true := by
  have rows : c.rows index = _ :=
    ListSlot.rows_append (index + (c.front []).length) c.more [c.last]
  refine ⟨_, _, rows, fun r held => ?_, fun r held => ?_, proper.ending⟩
  · have held : r ∈ c.rows index := rows.symm ▸ held
    obtain ⟨x, member, start, rfl⟩ := ListSlot.exists_of_mem_rows held
    exact proper.row member start
  · obtain ⟨x, member, start, rfl⟩ := ListSlot.exists_of_mem_rows held
    exact proper.commas x member

/-- The seats of the clause after its word. -/
theorem seatFrom_front (index : Nat) (after : List Token) :
    Token.seatFrom (index + 1) [] (c.gap ++ c.brace :: (c.slots.flatMap ListSlot.tokens ++ after)) =
      ⟨c.brace, index + 1 + c.gap.length, c.gap⟩ :: ((c.rows index).flatMap NameList.Row.tokens ++
        Token.seatFrom (index + c.tokens.length) [] after) := by
  rw [Token.seatFrom_of_notes proper.gap,
    Token.seatFrom_cons_host (Token.isNote_of_isPunct proper.brace),
    ListSlot.seatFrom_flatMap_tokens _ fun x held => proper.stop_host held, rows]
  have start : index + 1 + c.gap.length + 1 = index + (c.front []).length := by
    simp [front, Nat.add_assoc, Nat.add_comm 1]
  have length :
      (c.front []).length + (c.slots.flatMap ListSlot.tokens).length = c.tokens.length := by
    simp [tokens, front]
    omega
  rw [start, Nat.add_assoc index (c.front []).length, length, List.nil_append]

variable {use : ClauseUse} {before after : List Token} (ends : use.Ends c.word after)
  (reached : ∃ s ∈ Outline.steps (before ++ c.tokens ++ after),
    s.place.token.index = before.length ∧ s.before.frames = [])
include ends reached

/-- The step over the clause takes up its list and places what the list says. -/
theorem exists_readBy :
    ∃ s, NameList.ReadBy (before ++ c.tokens ++ after) (c.rows before.length) use.read.site
      use.read.clause s := by
  obtain ⟨s, held, here, bare⟩ := reached
  have host : c.word.isNote = false := Token.isNote_of_kind proper.word (by simp)
  have file : before ++ c.tokens ++ after =
      before ++ c.word :: (c.gap ++ c.brace :: (c.slots.flatMap ListSlot.tokens ++ after)) := by
    simp [tokens, front]
  obtain ⟨notes, seats⟩ := Outline.exists_seats_of_mem host (file ▸ held) here
  rw [proper.seatFrom_front] at seats
  obtain ⟨more, last, rows, proper', commas, ending⟩ := proper.exists_rows before.length
  have first : s.place.token = ⟨c.word, before.length, notes⟩ := (List.cons.inj seats).1
  have word : s.place.token.kind = .keyword := by
    rw [first]
    exact proper.word
  have text : s.place.token.text = c.word.text := by rw [first]
  have stride := Outline.stride_of_mem held
  have bare : s.before.depth = 0 := congrArg List.length bare
  rw [rows] at seats
  have opens : Token.isPunct c.brace "\x7b" = true := proper.brace
  suffices taken : s.stride.placements = Clause.place use.read.site use.read.clause
      ((more ++ [last]).flatMap NameList.Row.specifiers)
      ((more ++ [last]).flatMap NameList.Row.free) ∧
        ((more ++ [last]).flatMap NameList.Row.tokens).length + 2 ≤ s.stride.length by
    obtain ⟨placed, enough⟩ := taken
    refine ⟨s, held, rows ▸ placed, ?_⟩
    rw [rows, seats, ← List.cons_append, ← List.cons_append]
    refine List.Sublist.trans (.cons _ (.cons _ (.refl _)))
      (List.prefix_take_iff.mpr ⟨List.prefix_append _ _, ?_⟩).sublist
    exact enough
  cases ends with
  | exports after export_ =>
    have second : Clause.punctAt s.place.tokens 1 "\x7b" = true := by
      simp [seats, Clause.punctAt, opens]
    obtain ⟨length, placed⟩ := Walk.step_export bare word (text.trans export_) second
    rw [stride, length, placed, seats]
    exact Clause.readExport_rows proper' commas ending opens
  | @imports gap gap' rest joint source module q import_ gaps joins from_ string quote quoted =>
    obtain ⟨length, placed⟩ := Walk.step_import bare word (text.trans import_)
    obtain ⟨notes', notes''⟩ := List.forall_mem_append.mp gaps
    have host' : source.isNote = false := Token.isNote_of_kind string (by simp)
    rw [Token.seatFrom_of_notes notes', Token.seatFrom_cons_host joins,
      Token.seatFrom_of_notes notes'', Token.seatFrom_cons_host host'] at seats
    rw [stride, length, placed, seats, ClauseUse.read, ← Clause.unquote_of_quoted quote quoted]
    exact Clause.readImport_rows proper' commas ending opens from_ string

end Proper

end NameClause

/-- What comes of a slot between some tokens of a file. -/
structure ListSlot.Listed (before : List Token) (x : ListSlot) (after : List Token)
    (use : ClauseUse) : Prop where
  /-- The first token of a name has the site of the name, or of its alias. -/
  first : ∀ xs t ys, x.inside = xs ++ t :: ys → (∀ u ∈ xs, u.isNote = true) → t.isNote = false →
    ∃ name, Token.listedName? x.names = some name ∧
      (Outline.ofTokens (before ++ x.tokens ++ after)).leading? (before.length + xs.length) =
        some (use.site name)
  /-- So has the last token. -/
  last : ∀ xs t ys, x.inside = xs ++ t :: ys → (∀ u ∈ ys, u.isNote = true) → t.isNote = false →
    ∃ name, Token.listedName? x.names = some name ∧
      (Outline.ofTokens (before ++ x.tokens ++ after)).trailing? (before.length + xs.length) =
        some (use.site name)
  /-- An annotation is in a slot of the clause exactly when the slot has no name. -/
  slot : ∀ xs t ys, x.inside = xs ++ t :: ys → t.isNote = true →
    (Outline.ofTokens (before ++ x.tokens ++ after)).slot? (before.length + xs.length) =
      if x.names = [] then some use.clause else none
  /-- Without a name, an annotation that is not isolated names what the clause lists. -/
  bound : x.names = [] → ∀ xs t ys, x.inside = xs ++ t :: ys →
    Attachment.isIsolated (ys ++ x.stop :: after) = false → ∀ a : Note, a.form ≠ .hashbang →
      Attachment.bind (.ofTokens (before ++ x.tokens ++ after))
        (.around (before ++ xs) t (ys ++ x.stop :: after)) a =
          (use.clause.target a.payload, .listSlot)

namespace ListSlot.Listed

variable {before after : List Token} {x : ListSlot} {use use' : ClauseUse}

/-- Nothing comes of an empty slot. -/
theorem of_nil (none_ : x.inside = []) : x.Listed before after use where
  first := fun xs t ys inner => by simp [none_] at inner
  last := fun xs t ys inner => by simp [none_] at inner
  slot := fun xs t ys inner => by simp [none_] at inner
  bound := fun _ xs t ys inner => by simp [none_] at inner

/-- What comes of any other slot shows the clause. -/
theorem eq_of_listed (first : x.Listed before after use) (second : x.Listed before after use')
    (filled : x.inside ≠ []) : use = use' := by
  by_cases named : x.names = []
  · obtain ⟨t, ys, inner⟩ := List.exists_cons_of_ne_nil filled
    have note : t.isNote = true := by
      simp only [names, List.filter_eq_nil_iff, inner] at named
      simpa using named t (.head _)
    have same := (first.slot [] t ys inner note).symm.trans (second.slot [] t ys inner note)
    rw [if_pos named, if_pos named, Option.some.injEq] at same
    exact ClauseUse.clause_injective same
  · have found : x.inside.find? (!·.isNote) = _ :=
      (List.head?_filter ..).symm.trans (List.head?_eq_some_head named)
    obtain ⟨host, xs, ys, inner, notes⟩ := List.find?_eq_some_iff_append.mp found
    have notes : ∀ u ∈ xs, u.isNote = true := by simpa using notes
    obtain ⟨name, -, here⟩ := first.first xs _ ys inner notes (by simpa using host)
    obtain ⟨name', -, here'⟩ := second.first xs _ ys inner notes (by simpa using host)
    exact ClauseUse.eq_of_site (Option.some.inj (here.symm.trans here'))

end ListSlot.Listed

namespace NameClause

variable {c : NameClause}

theorem tokens_eq {early late : List ListSlot} {x : ListSlot}
    (split : c.slots = early ++ x :: late) :
    c.tokens = c.front early ++ x.tokens ++ late.flatMap ListSlot.tokens := by
  simp [tokens, front, split]

theorem row_mem_rows {early late : List ListSlot} {x : ListSlot}
    (split : c.slots = early ++ x :: late) (index : Nat) :
    x.row (index + (c.front early).length) ∈ c.rows index := by
  have length : (c.front []).length + (early.flatMap ListSlot.tokens).length =
      (c.front early).length := by
    simp [front]
    omega
  rw [rows, split, ListSlot.rows_append, Nat.add_assoc, length]
  exact List.mem_append_right _ (.head _)

namespace Proper

variable (proper : c.Proper)
include proper

/-- A slot comes right after a brace or a comma. -/
theorem exists_separator {early late : List ListSlot} {x : ListSlot}
    (split : c.slots = early ++ x :: late) :
    ∃ us h, c.front early = us ++ [h] ∧ h.isNote = false ∧ h.hasSite = false := by
  have bare {t : Token} {text : String} (mark : t.isPunct text = true) (other : text ≠ ")") :
      t.isNote = false ∧ t.hasSite = false := by
    refine ⟨Token.isNote_of_isPunct mark, ?_⟩
    rw [Token.hasSite, Token.isName, Token.kind_of_isPunct mark, Token.isPunct_eq_beq mark]
    simpa using other
  rcases List.eq_nil_or_concat early with rfl | ⟨es, e, rfl⟩
  · exact ⟨c.word :: c.gap, c.brace, by simp [front], bare proper.brace (by decide)⟩
  · have held : e ∈ c.slots := split ▸ by simp
    have plain : e.stop.isNote = false ∧ e.stop.hasSite = false := by
      rcases proper.stop held with stop | stop
      · exact bare stop (by decide)
      · exact bare stop (by decide)
    exact ⟨c.front es ++ e.inside, e.stop, by simp [front, ListSlot.tokens], plain⟩

theorem listed_slot {use : ClauseUse} {before after : List Token} (ends : use.Ends c.word after)
    (reached : ∃ s ∈ Outline.steps (before ++ c.tokens ++ after),
      s.place.token.index = before.length ∧ s.before.frames = [])
    {early late : List ListSlot} {x : ListSlot} (split : c.slots = early ++ x :: late) :
    x.Listed (before ++ c.front early) (late.flatMap ListSlot.tokens ++ after) use.read := by
  obtain ⟨s, read⟩ := proper.exists_readBy ends reached
  have file : before ++ c.tokens ++ after =
      before ++ c.front early ++ x.tokens ++ (late.flatMap ListSlot.tokens ++ after) := by
    simp [tokens_eq split]
  rw [file] at read
  have member : x ∈ c.slots := split ▸ by simp
  have own := row_mem_rows split before.length
  rw [← List.length_append] at own
  have fits := proper.row member (before ++ c.front early).length
  have stop := proper.stop_host member
  exact {
    first := fun xs t ys inner notes host => read.leading? own inner fits notes host
    last := fun xs t ys inner notes host => read.trailing? own inner fits notes host
    slot := fun xs t ys inner note => read.slot? own inner stop note
    bound := fun none_ xs t ys inner near a plain => by
      have notes : ∀ u ∈ x.inside, u.isNote = true := by
        simpa [ListSlot.names, List.filter_eq_nil_iff] using none_
      rw [inner] at notes
      obtain ⟨notes, others⟩ := List.forall_mem_append.mp notes
      have free := read.slot? own inner stop (others t (.head _))
      rw [if_pos none_] at free
      obtain ⟨us, h, separator, host, bare⟩ := proper.exists_separator split
      have around : before ++ c.front early ++ xs = before ++ us ++ h :: xs := by
        simp [separator]
      have whole : before ++ c.front early ++ x.tokens ++
          (late.flatMap ListSlot.tokens ++ after) = before ++ us ++ h :: (xs ++ t ::
            (ys ++ x.stop :: (late.flatMap ListSlot.tokens ++ after))) := by
        simp [separator, ListSlot.tokens, inner]
      refine Attachment.bind_listSlot plain ?_ near ?_
      · rw [around, whole]
        exact Attachment.trailingSite?_eq_none notes host bare
      · rw [← free]
        exact congrArg _ List.length_append }

end Proper

/-- Every slot of a clause is listed for the clause as it is read. It is so for the clause as it
stands exactly when the module neither begins nor ends with a quote, or when nothing is listed. -/
theorem Proper.listed_iff {c : NameClause} (proper : c.Proper) {use : ClauseUse}
    {before after : List Token} (ends : use.Ends c.word after)
    (reached : ∃ s ∈ Outline.steps (before ++ c.tokens ++ after),
      s.place.token.index = before.length ∧ s.before.frames = []) :
    (∀ early x late, c.slots = early ++ x :: late →
        x.Listed (before ++ c.front early) (late.flatMap ListSlot.tokens ++ after) use.read) ∧
      ((∀ early x late, c.slots = early ++ x :: late →
          x.Listed (before ++ c.front early) (late.flatMap ListSlot.tokens ++ after) use) ↔
        use.Plain ∨ ∀ x ∈ c.slots, x.inside = []) := by
  have listed (early x late) (split : c.slots = early ++ x :: late) :=
    proper.listed_slot ends reached split
  refine ⟨listed, fun same => ?_, ?_⟩
  · by_contra neither
    obtain ⟨other, some_⟩ := not_or.mp neither
    obtain ⟨x, member, filled⟩ : ∃ x ∈ c.slots, x.inside ≠ [] := by simpa using some_
    obtain ⟨early, late, split⟩ := List.append_of_mem member
    rw [← ClauseUse.read_eq_self_iff] at other
    exact other ((listed early x late split).eq_of_listed (same early x late split) filled)
  · rintro (plain | none_) early x late split
    · rw [← use.read_eq_self_iff.mpr plain]
      exact listed early x late split
    · exact .of_nil (none_ x (split ▸ by simp))

/-- The clause of `import { #T, a } from` and a string. -/
def withFree : NameClause where
  word := ⟨.keyword, "import", ⟨0, 6⟩, 0⟩
  gap := []
  brace := ⟨.punct, "\x7b", ⟨7, 8⟩, 0⟩
  more := [⟨[⟨.note 0, "#T", ⟨9, 11⟩, 0⟩], ⟨.punct, ",", ⟨11, 12⟩, 0⟩⟩]
  last := ⟨[⟨.ident, "a", ⟨13, 14⟩, 0⟩], ⟨.punct, "\x7d", ⟨15, 16⟩, 0⟩⟩

theorem withFree_proper : withFree.Proper := ⟨rfl, by decide, rfl, by decide, by decide, rfl⟩

/-- From a module without quotes in its name the names are imported as they stand. -/
theorem listed_iff_plain :
    let after : List Token := [⟨.ident, "from", ⟨17, 21⟩, 0⟩, ⟨.string, "'m'", ⟨22, 25⟩, 0⟩]
    let use : ClauseUse := .imports "m"
    withFree.Proper ∧ use.Ends withFree.word after ∧
      (∃ s ∈ Outline.steps ([] ++ withFree.tokens ++ after),
        s.place.token.index = ([] : List Token).length ∧ s.before.frames = []) ∧
      ∀ early x late, withFree.slots = early ++ x :: late →
        x.Listed ([] ++ withFree.front early) (late.flatMap ListSlot.tokens ++ after) use := by
  intro after use
  have ends : use.Ends withFree.word after :=
    .near (q := '\'') rfl rfl rfl rfl (by decide) (by decide)
  have reached : ∃ s ∈ Outline.steps ([] ++ withFree.tokens ++ after),
      s.place.token.index = ([] : List Token).length ∧ s.before.frames = [] := by decide +kernel
  have plain : use.Plain := ⟨by decide, by decide⟩
  exact ⟨withFree_proper, ends, reached,
    (Proper.listed_iff withFree_proper ends reached).2.mpr (.inl plain)⟩

/-- From a module with quotes in its name the names are imported without them. -/
theorem unquoted_module :
    let after : List Token := [⟨.ident, "from", ⟨17, 21⟩, 0⟩, ⟨.string, "'\"x\"'", ⟨22, 27⟩, 0⟩]
    let o := Outline.ofTokens ([] ++ withFree.tokens ++ after)
    (Reading.ofSource .hash "import \x7b #T, a \x7d from '\"x\"'").tokens =
        [] ++ withFree.tokens ++ after ∧
      withFree.Proper ∧ ClauseUse.Ends withFree.word after (.imports "\"x\"") ∧
      (∃ s ∈ Outline.steps ([] ++ withFree.tokens ++ after),
        s.place.token.index = ([] : List Token).length ∧ s.before.frames = []) ∧
      o.slot? 2 = some (.importFrom "x") ∧ o.leading? 4 = some (.importName "x" "a") ∧
      o.trailing? 4 = some (.importName "x" "a") := by
  intro after o
  refine ⟨by decide +kernel, withFree_proper, ?_, by decide +kernel, by decide +kernel,
    by decide +kernel, by decide +kernel⟩
  exact .near (q := '\'') rfl rfl rfl rfl (by decide) (by decide)

end NameClause

end Gloss

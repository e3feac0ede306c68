import Gloss.Host.Identifier
import Gloss.Proofs.Invisibility
import Mathlib.Data.List.DropRight

/-!
# What sites say of their tokens

A site names the token that it is about. A declared name or a parameter is an identifier, the name
of a class member is a name or the text inside the quotes of a string, and a listed name is the
token itself or, before a token, its alias. The result of a function has no site before a token: it
has one after the parenthesis that closes the parameters, or after the only parameter in front of an
arrow (`Site.Precedes`, `Site.Follows`).

Each kind of step places such sites only, about tokens that it has still before it
(`Walk.step_fits`).
-/

namespace Gloss

open Token (Seated)
open Host (isQuote)

/-! ## Names of tokens -/

/-- The name is the text without the quotes at its ends. -/
structure Clause.Unquotes (text name : String) : Prop where
  ends : ∃ before after, text.toList = before ++ (name.toList ++ after) ∧
    (∀ c ∈ before, isQuote c = true) ∧ ∀ c ∈ after, isQuote c = true
  first : name.toList.head?.any isQuote = false
  last : name.toList.getLast?.any isQuote = false

theorem Clause.unquote_eq (text : String) :
    unquote text = String.ofList ((text.toList.dropWhile isQuote).rdropWhile isQuote) := by
  have quote : (fun c : Char => c == '"' || c == '\'' || c == '\x60') = isQuote :=
    funext fun c => by rw [isQuote, Bool.or_comm (c == '"')]
  rw [← quote]
  rfl

theorem Clause.unquotes_unquote (text : String) : Unquotes text (unquote text) := by
  rw [unquote_eq]
  generalize cut : text.toList.dropWhile isQuote = cs
  have split : cs = cs.rdropWhile isQuote ++ cs.rtakeWhile isQuote :=
    List.rdropWhile_append_rtakeWhile.symm
  constructor
  · rw [String.toList_ofList]
    refine ⟨text.toList.takeWhile isQuote, cs.rtakeWhile isQuote, ?_, fun c held => ?_,
      fun c held => List.mem_rtakeWhile_imp held⟩
    · rw [← split, ← cut, List.takeWhile_append_dropWhile]
    · exact List.mem_takeWhile_imp held
  · rw [String.toList_ofList]
    cases name : cs.rdropWhile isQuote with
    | nil => rfl
    | cons c name =>
      -- the first character of the name is the first that is no quote
      have first : cs.head? = some c := by
        rw [split, name]
        rfl
      have plain := List.head?_dropWhile_not isQuote text.toList
      rw [cut, first] at plain
      simpa using plain
  · rw [String.toList_ofList]
    by_cases some_ : cs.rdropWhile isQuote = []
    · rw [some_]
      rfl
    · rw [List.getLast?_eq_some_getLast some_]
      simpa using List.rdropWhile_last_not isQuote cs some_

namespace Token

theorem isName_of_ident {t : Token} (ident : t.kind = .ident) : t.isName = true := by
  rw [isName, ident]

/-- The token is the identifier. -/
def IsIdent (t : Token) (name : String) : Prop := t.kind = .ident ∧ t.text = name

/-- The token names a class member; a string does so by what stands in its quotes. -/
def NamesMember (t : Token) (name : String) : Prop :=
  t.isName = true ∧ if t.kind = .string then Clause.Unquotes t.text name else t.text = name

/-- The token lists the name, which is its own or that of the alias after it. -/
def Lists (t : Token) (after : List Token) (name : String) : Prop :=
  t.isName = true ∧ (t.text = name ∨ ∃ joint other more, after = joint :: other :: more ∧
    joint.text = "as" ∧ other.isName = true ∧ other.text = name)

theorem namesMember_memberName {t : Token} (name : t.isName = true) :
    t.NamesMember (Walk.memberName t) := by
  refine ⟨name, ?_⟩
  unfold Walk.memberName
  split
  · exact Clause.unquotes_unquote t.text
  · rfl

end Token

/-! ## What sites say -/

namespace Site

/-- What a site before a token says of this token and of the host tokens after it. -/
def Precedes (t : Token) (after : List Token) : Site → Prop
  | declarator name | param _ _ name | constructorParam _ _ name => t.IsIdent name
  | returnSlot _ => False
  | member _ name => t.NamesMember name
  | importName _ name | exportName name => t.Lists after name

/-- What a site after a token says of this token and of the host tokens after it. -/
def Follows (t : Token) (after : List Token) : Site → Prop
  | declarator name | param _ _ name | constructorParam _ _ name => t.IsIdent name
  | returnSlot _ =>
    t.isPunct ")" = true ∨ t.kind = .ident ∧ after.head?.any (·.kind == .arrow) = true
  | member _ name => t.NamesMember name
  | importName _ name | exportName name => t.isName = true ∧ t.text = name

variable {t : Token} {after : List Token} {site : Site}

theorem isName_of_precedes (precedes : site.Precedes t after) : t.isName = true := by
  cases site with
  | declarator | param | constructorParam => exact Token.isName_of_ident precedes.1
  | returnSlot => exact precedes.elim
  | member | importName | exportName => exact precedes.1

theorem isName_of_follows (follows : site.Follows t after) :
    t.isName = true ∨ t.isPunct ")" = true := by
  cases site with
  | declarator | param | constructorParam => exact .inl (Token.isName_of_ident follows.1)
  | returnSlot => exact follows.symm.imp_left fun arrow => Token.isName_of_ident arrow.1
  | member | importName | exportName => exact .inl follows.1

end Site

/-- What is placed says the truth about one of some tokens, given with all that come after it. -/
def Placement.FitsIn (us : List Seated) : Placement → Prop
  | leading i site => ∃ t after, t :: after <:+ us ∧ t.index = i ∧
    site.Precedes t.toToken (after.map (·.toToken))
  | trailing i site => ∃ t after, t :: after <:+ us ∧ t.index = i ∧
    site.Follows t.toToken (after.map (·.toToken))
  | slot i _ => i ∈ Token.noteIndices us

namespace Placement

variable {us vs : List Seated} {q : Placement}

theorem FitsIn.mono (fits : q.FitsIn us) (suffix : us <:+ vs) : q.FitsIn vs := by
  cases q with
  | leading | trailing =>
    obtain ⟨t, after, inner, rest⟩ := fits
    exact ⟨t, after, inner.trans suffix, rest⟩
  | slot => exact Token.noteIndices_subset suffix.subset fits

theorem fitsIn_of_both {t : Seated} {after : List Seated} {site : Site}
    (suffix : t :: after <:+ us) (precedes : site.Precedes t.toToken (after.map (·.toToken)))
    (follows : site.Follows t.toToken (after.map (·.toToken))) :
    ∀ q ∈ both t.index site, q.FitsIn us :=
  List.forall_mem_cons.mpr ⟨⟨t, after, suffix, rfl, precedes⟩,
    List.forall_mem_singleton.mpr ⟨t, after, suffix, rfl, follows⟩⟩

end Placement

/-! ## Clauses -/

/-- The first token of a specifier lists its name, and the last one is the name. -/
def Specifier.FitsIn (us : List Seated) (s : Specifier) : Prop :=
  (∃ t after, t :: after <:+ us ∧ t.index = s.first ∧
    t.Lists (after.map (·.toToken)) s.name) ∧
  ∃ t after, t :: after <:+ us ∧ t.index = s.last ∧ t.isName = true ∧ t.text = s.name

namespace Specifier

variable {us vs : List Seated} {s : Specifier}

theorem FitsIn.mono (fits : s.FitsIn us) (suffix : us <:+ vs) : s.FitsIn vs := by
  obtain ⟨⟨t, after, inner, first⟩, u, after', inner', last⟩ := fits
  exact ⟨⟨t, after, inner.trans suffix, first⟩, u, after', inner'.trans suffix, last⟩

theorem single_fits {t : Seated} {after : List Seated} (suffix : t :: after <:+ us)
    (name : t.isName = true) : (single t).FitsIn us :=
  ⟨⟨t, after, suffix, rfl, name, .inl rfl⟩, t, after, suffix, rfl, name, rfl⟩

end Specifier

theorem NameList.read_fits (position : Nat) (us : List Seated) :
    ∀ s ∈ (read position us).2, s.FitsIn us := by
  fun_induction read position us with
  | case1 | case2 => exact List.forall_mem_nil _
  | case3 position t rest close skip ih | case4 position t rest close skip modifier ih =>
    exact fun s held => (ih s held).mono (List.suffix_cons t rest)
  | case5 position t rest close skip modifier name found tail ih =>
    obtain ⟨joint, more, rfl, text, named⟩ := exists_of_alias? found
    have head : t.isName = true := by
      simp only [Bool.or_eq_true, Bool.not_eq_true', not_or, Bool.not_eq_false] at skip
      exact skip.2
    have last : name :: more <:+ t :: joint :: name :: more := ⟨[t, joint], rfl⟩
    refine List.forall_mem_cons.mpr ⟨⟨⟨t, _, List.suffix_rfl, rfl, head, .inr ?_⟩,
      name, more, last, rfl, named, rfl⟩, fun s held => (ih s held).mono ?_⟩
    · exact ⟨joint.toToken, name.toToken, more.map (·.toToken), rfl, text, named, rfl⟩
    · exact (List.suffix_cons name more).trans last
  | case6 position t rest close skip modifier none tail ih =>
    have head : t.isName = true := by
      simp only [Bool.or_eq_true, Bool.not_eq_true', not_or, Bool.not_eq_false] at skip
      exact skip.2
    exact List.forall_mem_cons.mpr ⟨Specifier.single_fits List.suffix_rfl head,
      fun s held => (ih s held).mono (List.suffix_cons t rest)⟩

namespace Clause

variable (us : List Seated)

theorem nameAt_fits (position : Nat) : ∀ s ∈ nameAt us position, s.FitsIn us := by
  unfold nameAt
  split
  · next t found =>
    split
    · next ident =>
      obtain ⟨inside, rfl⟩ := List.getElem?_eq_some_iff.mp found
      have suffix := List.drop_suffix position us
      rw [List.drop_eq_getElem_cons inside] at suffix
      exact List.forall_mem_singleton.mpr
        (Specifier.single_fits suffix (Token.isName_of_ident ident))
    · exact List.forall_mem_nil _
  · exact List.forall_mem_nil _

theorem defaultName_fits (position : Nat) : ∀ s ∈ (defaultName us position).1, s.FitsIn us := by
  unfold defaultName
  split
  · exact nameAt_fits us position
  · exact List.forall_mem_nil _

theorem namespaceName_fits (position : Nat) :
    ∀ s ∈ (namespaceName us position).1, s.FitsIn us := by
  unfold namespaceName
  split
  · exact nameAt_fits us _
  · exact List.forall_mem_nil _

theorem braces_fits (position : Nat) : ∀ s ∈ (braces us position).specifiers, s.FitsIn us :=
  fun s held => (NameList.read_fits _ _ s held).mono
    ((List.drop_suffix 1 _).trans (List.drop_suffix position us))

theorem bracesAt_fits (position : Nat) : ∀ s ∈ (bracesAt us position).specifiers, s.FitsIn us := by
  unfold bracesAt
  split
  · exact braces_fits us position
  · exact List.forall_mem_nil _

variable {us}

/-- The sites of a clause are about the first and the last tokens of its specifiers. -/
theorem place_fits {site : String → Site} {clause : Clause} {specifiers : List Specifier}
    {slots : List Nat}
    (precedes : ∀ t after name, t.Lists after name → (site name).Precedes t after)
    (follows : ∀ t after name, t.isName = true ∧ t.text = name → (site name).Follows t after)
    (named : ∀ s ∈ specifiers, s.FitsIn us) (noted : slots ⊆ Token.noteIndices us) :
    ∀ q ∈ place site clause specifiers slots, q.FitsIn us := by
  intro q held
  rcases List.mem_append.mp held with held | held
  · obtain ⟨s, member, held⟩ := List.mem_flatMap.mp held
    obtain ⟨⟨t, after, suffix, first, lists⟩, u, after', suffix', last, name⟩ := named s member
    rcases List.mem_cons.mp held with rfl | held
    · exact ⟨t, after, suffix, first, precedes _ _ _ lists⟩
    · rw [List.mem_singleton.mp held]
      exact ⟨u, after', suffix', last, follows _ _ _ name⟩
  · obtain ⟨i, member, rfl⟩ := List.mem_map.mp held
    exact noted member

variable (us)

theorem readImport_fits : ∀ q ∈ (readImport us).placements, q.FitsIn us := by
  unfold readImport
  dsimp only
  split
  · exact List.forall_mem_nil _
  · refine place_fits (fun _ _ _ lists => lists) (fun _ _ _ name => name) ?_
      (bracesAt_slots_subset us _)
    exact List.forall_mem_append.mpr ⟨List.forall_mem_append.mpr
      ⟨defaultName_fits us _, namespaceName_fits us _⟩, bracesAt_fits us _⟩

theorem readExport_fits (position : Nat) :
    ∀ q ∈ (readExport us position).placements, q.FitsIn us :=
  place_fits (fun _ _ _ lists => lists) (fun _ _ _ name => name) (braces_fits us position)
    (braces_slots_subset us position)

end Clause

/-! ## Steps -/

namespace Walk

variable {w : Walk} {p : Place} {s : Stride}

theorem declaredName_fits : ∀ q ∈ declaredName p.rest.head?, q.FitsIn p.tokens := by
  unfold declaredName
  split
  · next t first =>
    split
    · next ident =>
      obtain ⟨more, rest⟩ := List.head?_eq_some_iff.mp first
      have suffix : t :: more <:+ p.tokens := rest ▸ List.suffix_cons p.token p.rest
      exact Placement.fitsIn_of_both suffix ⟨ident, rfl⟩ ⟨ident, rfl⟩
    · exact List.forall_mem_nil _
  · exact List.forall_mem_nil _

theorem ReadsPlain.fits (reads : w.ReadsPlain p s) : ∀ q ∈ s.placements, q.FitsIn p.tokens := by
  have whole : p.token :: p.rest <:+ p.tokens := List.suffix_rfl
  cases reads with
  | still | function | heading | paren | square | body | block | closing =>
    exact List.forall_mem_nil _
  | declares | comma => exact declaredName_fits
  | imports => exact Clause.readImport_fits p.tokens
  | exports position => exact Clause.readExport_fits p.tokens position
  | arrow name ident arrow =>
    refine List.forall_mem_cons.mpr ⟨⟨p.token, p.rest, whole, rfl, ident, rfl⟩,
      List.forall_mem_singleton.mpr ⟨p.token, p.rest, whole, rfl, .inr ⟨ident, ?_⟩⟩⟩
    rw [List.head?_map, Option.any_map]
    exact arrow

theorem ReadsHead.fits {owner : String} (reads : w.ReadsHead p owner s) :
    ∀ q ∈ s.placements, q.FitsIn p.tokens := by
  obtain ⟨mods, t, sign, rest, params, binding, -, split, -, name, -⟩ := reads
  have names := Token.namesMember_memberName name
  exact Placement.fitsIn_of_both ⟨mods, split.symm⟩ names names

theorem ReadsParam.fits {w' : Walk} {owner : Owner} {slot : Nat} {fresh : Bool}
    {outer : List Frame} {placements : List Placement}
    (reads : w.ReadsParam p owner slot fresh outer (w', some placements)) :
    ∀ q ∈ placements, q.FitsIn p.tokens := by
  have whole : p.token :: p.rest <:+ p.tokens := List.suffix_rfl
  cases reads with
  | skipped => exact List.forall_mem_nil _
  | closing closing =>
    exact List.forall_mem_singleton.mpr ⟨p.token, p.rest, whole, rfl, .inl closing⟩
  | name _ ident =>
    have ident : p.token.IsIdent p.token.text := ⟨ident, rfl⟩
    cases owner with
    | function | constructor => exact Placement.fitsIn_of_both whole ident ident

/-- What a step places says the truth about a token that is left. -/
theorem step_fits (w : Walk) (p : Place) : ∀ q ∈ (w.step p).placements, q.FitsIn p.tokens := by
  have reads := w.step_reads p
  generalize w.step p = s at reads
  cases reads with
  | head _ _ _ reads => exact reads.fits
  | plain _ _ reads | inner _ _ _ _ _ _ reads => exact reads.fits
  | param _ _ _ _ _ reads => exact reads.fits

end Walk

end Gloss

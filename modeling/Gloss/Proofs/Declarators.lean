import Gloss.Proofs.OpenDeclaration

/-!
# The declarators of a declaration

The walk remembers one open declaration by the depth of its brackets. After a comma outside of all
brackets it finds a declarator exactly when the last `let`, `const` or `var` that it read stood
outside of them too: a declaration in the brackets of an initializer takes the place of the one
around it (`Declaration.declarators_iff`).
-/

namespace Gloss

open Token (Seated)

/-! ## Seats of a part of the tokens -/

namespace Token

variable {index : Nat} {notes us : List Token} {t : Token}

theorem seatFrom_cons_host (host : t.isNote = false) :
    seatFrom index notes (t :: us) = ⟨t, index, notes⟩ :: seatFrom (index + 1) [] us := by
  rw [seatFrom, if_neg (by rw [host]; decide)]

theorem seatFrom_append (index : Nat) (notes us vs : List Token) :
    ∃ notes', (∀ a ∈ notes', a ∈ notes ++ us) ∧
      seatFrom index notes (us ++ vs) =
        seatFrom index notes us ++ seatFrom (index + us.length) notes' vs := by
  induction us generalizing index notes with
  | nil => exact ⟨notes, fun a held => List.mem_append_left _ held, rfl⟩
  | cons t us ih =>
    rw [List.cons_append, seatFrom, seatFrom, List.length_cons, Nat.add_comm us.length,
      ← Nat.add_assoc]
    split
    · obtain ⟨notes', held, split⟩ := ih (index + 1) (notes ++ [t])
      exact ⟨notes', fun a h => by simpa using held a h, split⟩
    · obtain ⟨notes', held, split⟩ := ih (index + 1) []
      refine ⟨notes', fun a h => List.mem_append_right _ (.tail _ (held a h)), ?_⟩
      rw [split, List.cons_append]

theorem map_seatFrom (index : Nat) (notes us : List Token) :
    (seatFrom index notes us).map (·.toToken) = us.filter (!·.isNote) := by
  induction us generalizing index notes with
  | nil => rfl
  | cons t us ih =>
    rw [seatFrom]
    split
    · next note => rw [ih, List.filter_cons_of_neg (by simp [note])]
    · next host => rw [List.map_cons, ih, List.filter_cons_of_pos (by simp [host])]

theorem mem_of_mem_seatFrom {u : Seated} (held : u ∈ seatFrom index notes us) :
    u.toToken ∈ us := by
  have held := List.mem_map_of_mem (f := (·.toToken)) held
  rw [map_seatFrom] at held
  exact List.mem_of_mem_filter held

/-- Where no line ends before the tokens, none ends before a seat. -/
theorem breaksLine_of_seatFrom (line : ∀ t ∈ notes ++ us, t.newlinesBefore = 0) :
    ∀ u ∈ seatFrom index notes us, u.breaksLine = false := by
  induction us generalizing index notes with
  | nil => exact List.forall_mem_nil _
  | cons t us ih =>
    rw [seatFrom]
    split
    · exact ih (by simpa using line)
    · refine List.forall_mem_cons.mpr ⟨?_, ih fun u held => line u ?_⟩
      · have first := line t (by simp)
        have others : notes.any (fun a => 0 < a.newlinesBefore) = false :=
          List.any_eq_false.mpr fun a held => by
            rw [line a (List.mem_append_left _ held)]
            decide
        rw [Seated.breaksLine, first, others]
        rfl
      · exact List.mem_append_right _ (.tail _ held)

variable {bare : Token → Bool} {height : Nat} {ts xs ys : List Token}

theorem isClosed_append (first : isClosed bare height xs = true)
    (second : isClosed bare 0 ys = true) : isClosed bare height (xs ++ ys) = true := by
  induction xs generalizing height with
  | nil =>
    obtain rfl : height = 0 := beq_iff_eq.mp first
    exact second
  | cons t xs ih =>
    obtain ⟨out, height', turned, later⟩ := isClosed_cons.mp first
    exact isClosed_cons.mpr ⟨out, height', turned, ih later⟩

theorem isClosed_mono {wider : Token → Bool} (sub : ∀ t, bare t = true → wider t = true)
    (closed : isClosed bare height ts = true) : isClosed wider height ts = true := by
  induction ts generalizing height with
  | nil => exact closed
  | cons t ts ih =>
    obtain ⟨out, height', turned, later⟩ := isClosed_cons.mp closed
    exact isClosed_cons.mpr ⟨out.imp_right (sub t), height', turned, ih later⟩

/-- Annotations are no brackets. -/
theorem isClosed_hosts (closed : isClosed bare height ts = true) :
    isClosed bare height (ts.filter (!·.isNote)) = true := by
  induction ts generalizing height with
  | nil => exact closed
  | cons t ts ih =>
    obtain ⟨out, height', turned, later⟩ := isClosed_cons.mp closed
    cases note : t.isNote with
    | true =>
      have kind : t.kind ≠ .punct := fun punct => by
        rw [isNote, punct] at note
        cases note
      obtain ⟨opens, closes⟩ := plain_of_ne kind
      rw [turn_of_plain opens closes] at turned
      rw [List.filter_cons_of_neg (by simp [note]), Option.some.inj turned]
      exact ih later
    | false =>
      rw [List.filter_cons_of_pos (by simp [note])]
      exact isClosed_cons.mpr ⟨out, height', turned, ih later⟩

end Token

/-! ## Declarators -/

namespace Outline

/-- A name has the site of a declarator on both sides. -/
def IsDeclarator (o : Outline) (index : Nat) (name : String) : Prop :=
  o.leading? index = some (.declarator name) ∧ o.trailing? index = some (.declarator name)

/-- The last step before a token that starts a declaration. -/
def lastDeclaration? (ts : List Token) (index : Nat) : Option Step :=
  ((steps ts).filter fun s => s.declares && decide (s.place.token.index < index)).getLast?

/-- Of what is placed only that counts for a token which is about it. -/
theorem last?_between {α : Type} {pick : Placement → Option α} {i : Nat}
    {before own after : List Placement} (about : ∀ q a, pick q = some a → q.host? = some i)
    (apart : ∀ q ∈ before ++ after, q.host? ≠ some i) :
    (⟨before ++ own ++ after⟩ : Outline).last? pick = (⟨own⟩ : Outline).last? pick := by
  have silent {qs : List Placement} (apart : ∀ q ∈ qs, q.host? ≠ some i) :
      qs.reverse.findSome? pick = none := by
    rw [List.findSome?_eq_none_iff]
    intro q held
    by_contra some_
    obtain ⟨a, found⟩ := Option.ne_none_iff_exists'.mp some_
    exact apart q (List.mem_reverse.mp held) (about q a found)
  rw [last?, last?, List.reverse_append, List.reverse_append, List.findSome?_append,
    List.findSome?_append, silent fun q held => apart q (List.mem_append_right _ held),
    silent fun q held => apart q (List.mem_append_left _ held), Option.none_or, Option.or_none]

section Name

variable {ts : List Token} {us vs : List Seated} {c n e z : Seated} {ss : List Step} {a : State}

variable (hosts : Token.hosts ts = us ++ c :: n :: e :: (vs ++ [z]))
  (leads : Leads (c :: n :: e :: (vs ++ [z])) ⟨.initial, 0, none⟩ us ss a)
  (clauses : ∀ t ∈ Token.hosts ts, t.isClauseWord = false) (bare : a.walk.depth = 0)
  (plain : c.opensBracket = false ∧ c.closesBracket = false) (ident : n.kind = .ident)
  (equals : e.isPunct "=" = true) (alone : z.isCarried = false)
  (one : (a.walk.step (a.place c (n :: e :: (vs ++ [z])))).length = 1)

include hosts leads clauses bare plain ident equals alone one

/-- A name between a step outside of all brackets and an equals sign is a step of its own, and what
is placed after it is about later tokens. -/
theorem exists_steps :
    ∃ later, steps ts = ss ++ a.step c (n :: e :: (vs ++ [z])) :: later ∧
      (∀ s ∈ later, s.place.token ∈ n :: e :: (vs ++ [z])) ∧
      ∀ s ∈ later, ∀ q ∈ s.stride.placements, ∀ i, q.host? = some i →
        ∃ t ∈ e :: (vs ++ [z]), t.index = i := by
  rw [hosts] at clauses
  have whole : steps ts = State.steps ⟨.initial, 0, none⟩ (Token.hosts ts) := rfl
  rw [whole, hosts, leads.steps_eq, State.steps_cons, one, Nat.sub_self, List.drop_zero]
  have bare : (a.next c (n :: e :: (vs ++ [z]))).walk.depth = 0 := by
    refine a.walk.step_depth _ (clauses c (by simp)) ?_
    rw [Walk.taken, one, Place.take_one, bare]
    exact Token.height?_of_plain fun t held => List.mem_singleton.mp held ▸ plain
  generalize a.next c (n :: e :: (vs ++ [z])) = b at bare
  refine ⟨b.steps (n :: e :: (vs ++ [z])), rfl, token_mem_of_walk, ?_⟩
  obtain ⟨one, nothing⟩ := Walk.step_name (p := b.place n (e :: (vs ++ [z]))) bare ident equals
  have inner : ∀ t ∈ e :: vs, t.isClauseWord = false := fun t held => clauses t (by
    rcases List.mem_cons.mp held with rfl | held <;> simp [*])
  obtain ⟨ss', d, later⟩ := exists_leads (b.next n (e :: (vs ++ [z]))) (e :: vs) [] alone inner
  have rest : State.steps _ (e :: (vs ++ [z])) = ss' ++ State.steps d [z] := later.steps_eq
  rw [State.steps_cons, one, Nat.sub_self, List.drop_zero, rest, State.steps_cons, List.drop_nil,
    State.steps_nil]
  intro s held q placed i host
  rcases List.mem_cons.mp held with rfl | held
  · rw [State.step, nothing] at placed
    cases placed
  rcases List.mem_append.mp held with held | held
  · exact later.placed inner s held q placed i host
  · rw [List.mem_singleton.mp held] at placed
    obtain ⟨t, near, index⟩ :=
      (d.walk.step_acts (d.place z []) (clauses z (by simp))).placed q placed i host
    have near := List.mem_of_mem_take near
    exact ⟨t, .tail _ (List.mem_append_right _ near), index⟩

omit leads clauses bare plain ident equals alone one in
/-- The seats ascend. -/
theorem index_lt_of_hosts :
    (∀ t ∈ us, t.index < c.index) ∧ c.index < n.index ∧
      ∀ t ∈ e :: (vs ++ [z]), n.index < t.index := by
  have ascending := Token.pairwise_hosts ts
  rw [hosts, List.pairwise_append] at ascending
  obtain ⟨-, ascending, early⟩ := ascending
  obtain ⟨first, ascending⟩ := List.pairwise_cons.mp ascending
  exact ⟨fun t held => early t held c (.head _), first n (.head _),
    (List.pairwise_cons.mp ascending).1⟩

/-- Such a name is a declarator exactly when the step before it finds it. -/
theorem isDeclarator_iff {found : Prop} [Decidable found]
    (places : (a.walk.step (a.place c (n :: e :: (vs ++ [z])))).placements =
      if found then Walk.declaredName (some n) else []) :
    (ofTokens ts).IsDeclarator n.index n.text ↔ found := by
  obtain ⟨later, split, -, after⟩ :=
    exists_steps hosts leads clauses bare plain ident equals alone one
  obtain ⟨early, next, late⟩ := index_lt_of_hosts hosts
  have inside : ∀ u ∈ us, u.isClauseWord = false :=
    fun u held => clauses u (hosts ▸ List.mem_append_left _ held)
  have apart : ∀ q ∈ ss.flatMap (·.stride.placements) ++ later.flatMap (·.stride.placements),
      q.host? ≠ some n.index := by
    intro q held host
    rcases List.mem_append.mp held with held | held
    · obtain ⟨s, member, placed⟩ := List.mem_flatMap.mp held
      obtain ⟨t, near, index⟩ := leads.placed inside s member q placed _ host
      rcases List.mem_append.mp near with near | near
      · have := early t near
        omega
      · rw [List.mem_singleton.mp near] at index
        omega
    · obtain ⟨s, member, placed⟩ := List.mem_flatMap.mp held
      obtain ⟨t, near, index⟩ := after s member q placed _ host
      have := late t near
      omega
  have placements : ofTokens ts = ⟨ss.flatMap (·.stride.placements) ++
      (if found then Walk.declaredName (some n) else []) ++
      later.flatMap (·.stride.placements)⟩ := by
    rw [ofTokens, split, List.flatMap_append, List.flatMap_cons, State.step, places,
      List.append_assoc]
  rw [IsDeclarator, placements, leading?, trailing?,
    last?_between (fun _ _ => Placement.host?_of_siteBefore?) apart,
    last?_between (fun _ _ => Placement.host?_of_siteAfter?) apart, Walk.declaredName, if_pos ident]
  split
  · next yes =>
    refine iff_of_true ?_ yes
    simp [last?, Placement.both, Placement.siteBefore?, Placement.siteAfter?]
  · next no =>
    refine iff_of_false ?_ no
    simp [last?]

/-- The steps before the name say which declaration was started last. -/
theorem lastDeclaration?_eq :
    lastDeclaration? ts c.index = (ss.filter (·.declares)).getLast? := by
  obtain ⟨later, split, tokens, -⟩ :=
    exists_steps hosts leads clauses bare plain ident equals alone one
  obtain ⟨early, next, late⟩ := index_lt_of_hosts hosts
  have before : ss.filter (fun s => s.declares && decide (s.place.token.index < c.index)) =
      ss.filter (·.declares) := List.filter_congr fun s held => by
    rw [decide_eq_true (early _ (leads.token_mem s held)), Bool.and_true]
  have after : (a.step c (n :: e :: (vs ++ [z])) :: later).filter
      (fun s => s.declares && decide (s.place.token.index < c.index)) = [] := by
    rw [List.filter_eq_nil_iff]
    intro s held counts
    simp only [Bool.and_eq_true, decide_eq_true_eq] at counts
    rcases List.mem_cons.mp held with rfl | held
    · exact Nat.lt_irrefl _ counts.2
    rcases List.mem_cons.mp (tokens s held) with same | held
    · rw [same] at counts
      omega
    · have := late _ held
      omega
  rw [lastDeclaration?, split, List.filter_append, before, after, List.append_nil]

end Name

end Outline

/-- A name with an equals sign and an initializer. -/
structure Declarator : Type where
  name : Token
  equals : Token
  init : List Token

namespace Declarator

def tokens (d : Declarator) : List Token := d.name :: d.equals :: d.init

/-- The brackets of the initializer are closed, with neither a comma nor a semicolon outside of
them, and no word in it starts a clause. -/
structure Proper (d : Declarator) : Prop where
  name : d.name.kind = .ident
  equals : d.equals.isPunct "=" = true
  closed : Token.isClosed (fun t => !(t.isPunct "," || t.isPunct ";")) 0 d.init = true
  clauses : ∀ t ∈ d.init, t.isClauseWord = false

end Declarator

/-- A declaration: its word, its declarators with commas between them, and a semicolon. -/
structure Declaration : Type where
  word : Token
  first : Declarator
  more : List (Token × Declarator)
  ending : Token

namespace Declaration

/-- Declarators with the commas before them. -/
def listed (more : List (Token × Declarator)) : List Token :=
  more.flatMap fun x => x.1 :: x.2.tokens

/-- The declaration before a comma. -/
def front (d : Declaration) (earlier : List (Token × Declarator)) : List Token :=
  d.word :: (d.first.tokens ++ listed earlier)

def tokens (d : Declaration) : List Token := d.front d.more ++ [d.ending]

/-- A declaration on one line. -/
structure Proper (d : Declaration) : Prop where
  word : d.word.isDeclarationWord = true
  first : d.first.Proper
  more : ∀ x ∈ d.more, x.1.isPunct "," = true ∧ x.2.Proper
  ending : d.ending.isPunct ";" = true
  line : ∀ t ∈ d.tokens.tail, t.newlinesBefore = 0

end Declaration

namespace Token

variable {t : Token} {ts : List Token} {height : Nat}

theorem isClauseWord_of_ne (kind : t.kind ≠ .keyword) : t.isClauseWord = false := by
  simp [isClauseWord, kind]

theorem isClauseWord_of_isDeclarationWord (word : t.isDeclarationWord = true) :
    t.isClauseWord = false := by
  simp only [isDeclarationWord, Bool.and_eq_true, Bool.or_eq_true, beq_iff_eq] at word
  rcases word.2 with (text | text) | text <;> simp [isClauseWord, text]

theorem isNote_of_kind {kind : Kind} (here : t.kind = kind) (host : ∀ i, kind ≠ .note i) :
    t.isNote = false := by
  unfold isNote
  split
  · next i note => exact absurd (here.symm.trans note) (host i)
  · rfl

theorem isClosed_cons_quiet (quiet : t.isQuiet = true)
    (closed : isClosed (!·.isPunct ";") height ts = true) :
    isClosed (!·.isPunct ";") height (t :: ts) = true := by
  obtain ⟨opens, closes⟩ := plain_of_quiet quiet
  refine isClosed_cons.mpr ⟨.inr ?_, height, turn_of_plain opens closes, closed⟩
  simp only [isQuiet, Bool.not_eq_true', Bool.or_eq_false_iff] at quiet
  simp [quiet.1.2]

end Token

namespace Declarator.Proper

variable {d : Declarator} (proper : d.Proper)
include proper

theorem isClosed : Token.isClosed (!·.isPunct ";") 0 d.tokens = true := by
  have name := Token.isQuiet_of_ident proper.name
  have equals := Token.isQuiet_of_isPunct proper.equals (by decide)
  have init : Token.isClosed (!·.isPunct ";") 0 d.init = true :=
    Token.isClosed_mono (fun t bare => by simp_all) proper.closed
  exact Token.isClosed_cons_quiet name (Token.isClosed_cons_quiet equals init)

theorem isClauseWord : ∀ t ∈ d.tokens, t.isClauseWord = false := by
  have name : d.name.isClauseWord = false :=
    Token.isClauseWord_of_ne (by rw [proper.name]; decide)
  have equals : d.equals.isClauseWord = false :=
    Token.isClauseWord_of_ne (by rw [Token.kind_of_isPunct proper.equals]; decide)
  exact List.forall_mem_cons.mpr ⟨name, List.forall_mem_cons.mpr ⟨equals, proper.clauses⟩⟩

end Declarator.Proper

namespace Declaration

section Listed

variable {more : List (Token × Declarator)}
  (proper : ∀ x ∈ more, x.1.isPunct "," = true ∧ x.2.Proper)
include proper

theorem isClosed_listed : Token.isClosed (!·.isPunct ";") 0 (listed more) = true := by
  induction more with
  | nil => rfl
  | cons x more ih =>
    obtain ⟨⟨comma, declarator⟩, others⟩ := List.forall_mem_cons.mp proper
    have quiet := Token.isQuiet_of_isPunct comma (by decide)
    exact Token.isClosed_append (Token.isClosed_cons_quiet quiet declarator.isClosed) (ih others)

theorem isClauseWord_listed : ∀ t ∈ listed more, t.isClauseWord = false := by
  intro t held
  obtain ⟨x, member, held⟩ := List.mem_flatMap.mp held
  obtain ⟨comma, declarator⟩ := proper x member
  rcases List.mem_cons.mp held with rfl | held
  · exact Token.isClauseWord_of_ne (by rw [Token.kind_of_isPunct comma]; decide)
  · exact declarator.isClauseWord t held

end Listed

theorem listed_append (earlier later : List (Token × Declarator)) :
    listed (earlier ++ later) = listed earlier ++ listed later := List.flatMap_append

/-- The tokens around a further name. -/
theorem tokens_of_more {d : Declaration} {earlier later : List (Token × Declarator)} {comma : Token}
    {x : Declarator} (more : d.more = earlier ++ (comma, x) :: later) :
    d.tokens = d.front earlier ++
      comma :: x.name :: x.equals :: (x.init ++ listed later ++ [d.ending]) := by
  rw [tokens, front, more, listed_append]
  simp [front, listed, Declarator.tokens]

/-- The seats around a name. -/
theorem exists_hosts (before between : List Token) {c n e z : Token} (first : c.isNote = false)
    (ident : n.kind = .ident) (equals : e.isPunct "=" = true) (last : z.isPunct ";" = true) :
    ∃ notes index notes', Token.hosts (before ++ c :: n :: e :: (between ++ [z])) =
      Token.seatFrom 0 [] before ++ ⟨c, before.length, notes⟩ ::
        ⟨n, before.length + 1, []⟩ :: ⟨e, before.length + 2, []⟩ ::
          (Token.seatFrom (before.length + 3) [] between ++ [⟨z, index, notes'⟩]) := by
  have name : n.isNote = false := Token.isNote_of_kind ident (by simp)
  obtain ⟨notes, -, split⟩ :=
    Token.seatFrom_append 0 [] before (c :: n :: e :: (between ++ [z]))
  obtain ⟨notes', -, split'⟩ := Token.seatFrom_append (before.length + 3) [] between [z]
  refine ⟨notes, before.length + 3 + between.length, notes', ?_⟩
  rw [Token.hosts, split, Nat.zero_add, Token.seatFrom_cons_host first,
    Token.seatFrom_cons_host name, Token.seatFrom_cons_host (Token.isNote_of_isPunct equals),
    split', Token.seatFrom_cons_host (Token.isNote_of_isPunct last)]
  rfl

section Proper

variable {d : Declaration} (proper : d.Proper)
include proper

theorem Proper.isClauseWord : ∀ t ∈ Token.hosts d.tokens, t.isClauseWord = false := by
  intro t held
  have held := Token.mem_of_mem_seatFrom held
  rcases List.mem_append.mp held with held | held
  · rcases List.mem_cons.mp held with same | held
    · exact same ▸ Token.isClauseWord_of_isDeclarationWord proper.word
    rcases List.mem_append.mp held with held | held
    · exact proper.first.isClauseWord _ held
    · exact isClauseWord_listed proper.more _ held
  · rw [List.mem_singleton.mp held]
    exact Token.isClauseWord_of_ne (by rw [Token.kind_of_isPunct proper.ending]; decide)

theorem Proper.alone : d.ending.isCarried = false := by
  rw [Token.isCarried, Token.isPunct_eq_beq proper.ending, Token.isPunct_eq_beq proper.ending,
    Token.isName, Token.kind_of_isPunct proper.ending]
  rfl

theorem isDeclarator_first :
    (Outline.ofTokens d.tokens).IsDeclarator 1 d.first.name.text := by
  have kind := Token.kind_of_isDeclarationWord proper.word
  have shape : d.tokens = [] ++ d.word :: d.first.name :: d.first.equals ::
      (d.first.init ++ listed d.more ++ [d.ending]) := by
    simp [tokens, front, Declarator.tokens]
  have clauses := proper.isClauseWord
  obtain ⟨notes, index, notes', hosts⟩ := exists_hosts [] (d.first.init ++ listed d.more)
    (Token.isNote_of_kind kind (by simp)) proper.first.name proper.first.equals proper.ending
  rw [← shape] at hosts
  have sites : (Outline.ofTokens d.tokens).IsDeclarator 1 d.first.name.text ↔ True := by
    refine Outline.isDeclarator_iff hosts .done clauses rfl ?_ proper.first.name proper.first.equals
      proper.alone ?_ ?_
    · exact Token.plain_of_ne (by rw [kind]; decide)
    · exact (Walk.step_word rfl proper.word).1
    · exact (Walk.step_word rfl proper.word).2.trans (if_pos trivial).symm
  exact sites.mpr trivial

omit proper in
/-- The first word starts a declaration outside of all brackets. -/
theorem started {word : Token} (declares : word.isDeclarationWord = true) (rest : List Seated) :
    let a : Outline.State := ⟨.initial, 0, none⟩
    (a.walk.step (a.place ⟨word, 0, []⟩ rest)).length = 1 ∧
      (a.next ⟨word, 0, []⟩ rest).walk.declaration = some 0 ∧
      (a.next ⟨word, 0, []⟩ rest).walk.depth = 0 ∧
      (a.step ⟨word, 0, []⟩ rest).declares = true := by
  intro a
  have plain := Token.isClauseWord_of_isDeclarationWord declares
  have one := (Walk.step_word (p := a.place ⟨word, 0, []⟩ rest) (rfl : a.walk.depth = 0) declares).1
  have starts : a.walk.declares (a.place ⟨word, 0, []⟩ rest) = true := by
    rw [Walk.declares]
    exact Bool.and_eq_true_iff.mpr ⟨declares, rfl⟩
  refine ⟨one, ?_, ?_, starts⟩
  · show (a.walk.step (a.place ⟨word, 0, []⟩ rest)).walk.declaration = some 0
    rw [(a.walk.step_acts _ plain).declaration, starts]
    rfl
  · refine a.walk.step_depth _ plain ?_
    have plain := Token.plain_of_ne (t := word)
      (by rw [Token.kind_of_isDeclarationWord declares]; decide)
    rw [Walk.taken, one]
    exact Token.height?_of_plain fun t held => List.mem_singleton.mp held ▸ plain

/-- Before a comma the walk stands outside of all brackets, and a declaration is open exactly when
the last one that was started stands outside of them too. -/
theorem Proper.exists_leads {earlier : List (Token × Declarator)} (part : earlier <+: d.more)
    {c : Seated} (tail : List Seated) (alone : c.isCarried = false) :
    ∃ ss b, Outline.Leads (c :: tail) ⟨.initial, 0, none⟩ (Token.seatFrom 0 [] (d.front earlier))
        ss b ∧ b.walk.depth = 0 ∧
      (b.walk.declaration = some 0 ↔
        ∃ s, (ss.filter (·.declares)).getLast? = some s ∧ s.before.depth = 0) := by
  have others : ∀ y ∈ earlier, y.1.isPunct "," = true ∧ y.2.Proper :=
    fun y held => proper.more y (part.subset held)
  have host := Token.isNote_of_kind (Token.kind_of_isDeclarationWord proper.word) (by simp)
  rw [front, Token.seatFrom_cons_host host]
  generalize inner : d.first.tokens ++ listed earlier = ts
  have clauses : ∀ t ∈ Token.seatFrom 1 [] ts, t.isClauseWord = false := by
    intro t held
    have held := Token.mem_of_mem_seatFrom held
    rw [← inner] at held
    rcases List.mem_append.mp held with held | held
    · exact proper.first.isClauseWord _ held
    · exact isClauseWord_listed others _ held
  have lines : ∀ t ∈ Token.seatFrom 1 [] ts, t.breaksLine = false := by
    refine Token.breaksLine_of_seatFrom fun t held => proper.line t ?_
    rw [List.nil_append, ← inner] at held
    obtain ⟨later, more⟩ := part
    rw [tokens, ← more, front, listed_append, ← List.append_assoc]
    exact List.mem_append_left _ (List.mem_append_left _ held)
  have closed : Token.isClosed (!·.isPunct ";") 0
      ((Token.seatFrom 1 [] ts).map (·.toToken)) = true := by
    rw [Token.map_seatFrom, ← inner]
    have closed := Token.isClosed_append proper.first.isClosed (isClosed_listed others)
    exact Token.isClosed_hosts closed
  generalize Token.seatFrom 1 [] ts = us at clauses lines closed
  have plain := Token.isClauseWord_of_isDeclarationWord proper.word
  obtain ⟨one, opened, bare, declares⟩ := started proper.word (us ++ c :: tail)
  obtain ⟨ss, b, leads⟩ := Outline.exists_leads _ us tail alone clauses
  obtain ⟨bare', open_⟩ := leads.declaration_iff clauses lines (bare ▸ closed)
  have whole : Outline.Leads (c :: tail) ⟨.initial, 0, none⟩ (⟨d.word, 0, []⟩ :: ([] ++ us))
    (Outline.State.step ⟨.initial, 0, none⟩ ⟨d.word, 0, []⟩ (us ++ c :: tail) :: ss) b :=
      .step one leads
  refine ⟨_, b, whole, bare', open_.trans ?_⟩
  rw [List.filter_cons_of_pos declares, List.getLast?_cons]
  cases (ss.filter (·.declares)).getLast? with
  | none => exact iff_of_true opened ⟨_, rfl, rfl⟩
  | some s =>
    refine ⟨fun zero => ⟨s, rfl, zero⟩, ?_⟩
    rintro ⟨_, same, zero⟩
    obtain rfl := Option.some.inj same
    exact zero

/-- A further name is a declarator exactly when the last declaration that was started before its
comma stands outside of all brackets. -/
theorem isDeclarator_more {earlier later : List (Token × Declarator)} {comma : Token}
    {x : Declarator} (more : d.more = earlier ++ (comma, x) :: later) :
    (Outline.ofTokens d.tokens).IsDeclarator ((d.front earlier).length + 1) x.name.text ↔
      ∃ s, Outline.lastDeclaration? d.tokens (d.front earlier).length = some s ∧
        s.before.depth = 0 := by
  obtain ⟨mark, declarator⟩ : comma.isPunct "," = true ∧ x.Proper :=
    proper.more (comma, x) (more ▸ by simp)
  have plain := Token.plain_of_quiet (Token.isQuiet_of_isPunct mark (by decide))
  have alone : comma.isCarried = false := by
    rw [Token.isCarried, Token.isPunct_eq_beq mark, Token.isPunct_eq_beq mark, Token.isName,
      Token.kind_of_isPunct mark]
    rfl
  have clauses := proper.isClauseWord
  obtain ⟨notes, index, notes', hosts⟩ := exists_hosts (d.front earlier) (x.init ++ listed later)
    (Token.isNote_of_isPunct mark) declarator.name declarator.equals proper.ending
  rw [← tokens_of_more more] at hosts
  obtain ⟨ss, b, leads, bare, open_⟩ := proper.exists_leads ⟨_, more.symm⟩
    (c := ⟨comma, (d.front earlier).length, notes⟩) _ alone
  obtain ⟨one, places⟩ := Walk.step_comma
    (p := b.place ⟨comma, (d.front earlier).length, notes⟩ _) bare mark
  rw [Outline.isDeclarator_iff hosts leads clauses bare plain declarator.name declarator.equals
    proper.alone one places, open_]
  rw [← Outline.lastDeclaration?_eq hosts leads clauses bare plain declarator.name
    declarator.equals proper.alone one]

end Proper

/-- The first name of a declaration on one line is a declarator. A further one is a declarator
exactly when the last `let`, `const` or `var` before its comma that starts a declaration stands
outside of all brackets: one inside the brackets of an initializer takes the place of the first. -/
theorem declarators_iff (d : Declaration) (proper : d.Proper) :
    (Outline.ofTokens d.tokens).IsDeclarator 1 d.first.name.text ∧
      ∀ earlier comma x later, d.more = earlier ++ (comma, x) :: later →
        ((Outline.ofTokens d.tokens).IsDeclarator ((d.front earlier).length + 1) x.name.text ↔
          ∃ s, Outline.lastDeclaration? d.tokens (d.front earlier).length = some s ∧
            s.before.depth = 0) :=
  ⟨isDeclarator_first proper, fun _ _ _ _ more => isDeclarator_more proper more⟩

/-- The declaration `let a = function() { return 1; }, c = 2;`. -/
def withReturn : Declaration where
  word := ⟨.keyword, "let", ⟨0, 3⟩, 0⟩
  first := ⟨⟨.ident, "a", ⟨4, 5⟩, 0⟩, ⟨.punct, "=", ⟨6, 7⟩, 0⟩,
    [⟨.keyword, "function", ⟨8, 16⟩, 0⟩, ⟨.punct, "(", ⟨16, 17⟩, 0⟩, ⟨.punct, ")", ⟨17, 18⟩, 0⟩,
      ⟨.punct, "\x7b", ⟨19, 20⟩, 0⟩, ⟨.keyword, "return", ⟨21, 27⟩, 0⟩,
      ⟨.number, "1", ⟨28, 29⟩, 0⟩, ⟨.punct, ";", ⟨29, 30⟩, 0⟩, ⟨.punct, "\x7d", ⟨31, 32⟩, 0⟩]⟩
  more := [(⟨.punct, ",", ⟨32, 33⟩, 0⟩, ⟨⟨.ident, "c", ⟨34, 35⟩, 0⟩,
    ⟨.punct, "=", ⟨36, 37⟩, 0⟩, [⟨.number, "2", ⟨38, 39⟩, 0⟩]⟩)]
  ending := ⟨.punct, ";", ⟨39, 40⟩, 0⟩

/-- The body of the function starts no declaration, so the name after it is a declarator. -/
theorem declarators_iff_return :
    withReturn.Proper ∧ (Outline.ofTokens withReturn.tokens).IsDeclarator 1 "a" ∧
      (Outline.ofTokens withReturn.tokens).IsDeclarator 12 "c" := by
  have proper : withReturn.Proper := by
    refine ⟨rfl, ⟨rfl, rfl, rfl, by decide⟩, ?_, rfl, by decide⟩
    exact List.forall_mem_singleton.mpr ⟨rfl, rfl, rfl, rfl, by decide⟩
  obtain ⟨first, more⟩ := declarators_iff withReturn proper
  have outside :
      (Outline.lastDeclaration? withReturn.tokens 11).any (·.before.depth == 0) = true := by
    decide +kernel
  obtain ⟨s, last, zero⟩ := (Option.any_eq_true _ _).mp outside
  exact ⟨proper, first, (more [] _ _ [] rfl).mpr ⟨s, last, beq_iff_eq.mp zero⟩⟩

/-- The declaration `let a = function() { let b = 1; }, c = 2;`. -/
def withLet : Declaration where
  word := ⟨.keyword, "let", ⟨0, 3⟩, 0⟩
  first := ⟨⟨.ident, "a", ⟨4, 5⟩, 0⟩, ⟨.punct, "=", ⟨6, 7⟩, 0⟩,
    [⟨.keyword, "function", ⟨8, 16⟩, 0⟩, ⟨.punct, "(", ⟨16, 17⟩, 0⟩, ⟨.punct, ")", ⟨17, 18⟩, 0⟩,
      ⟨.punct, "\x7b", ⟨19, 20⟩, 0⟩, ⟨.keyword, "let", ⟨21, 24⟩, 0⟩, ⟨.ident, "b", ⟨25, 26⟩, 0⟩,
      ⟨.punct, "=", ⟨27, 28⟩, 0⟩, ⟨.number, "1", ⟨29, 30⟩, 0⟩, ⟨.punct, ";", ⟨30, 31⟩, 0⟩,
      ⟨.punct, "\x7d", ⟨32, 33⟩, 0⟩]⟩
  more := [(⟨.punct, ",", ⟨33, 34⟩, 0⟩, ⟨⟨.ident, "c", ⟨35, 36⟩, 0⟩,
    ⟨.punct, "=", ⟨37, 38⟩, 0⟩, [⟨.number, "2", ⟨39, 40⟩, 0⟩]⟩)]
  ending := ⟨.punct, ";", ⟨40, 41⟩, 0⟩

/-- The declaration in the body of the function takes the place of the one around it, and the name
after the comma has no site. -/
theorem not_isDeclarator_after_let :
    withLet.Proper ∧ withLet.tokens[14]? = some ⟨.ident, "c", ⟨35, 36⟩, 0⟩ ∧
      (Outline.ofTokens withLet.tokens).leading? 14 = none ∧
      (Outline.ofTokens withLet.tokens).trailing? 14 = none := by
  refine ⟨?_, rfl, by decide +kernel, by decide +kernel⟩
  refine ⟨rfl, ⟨rfl, rfl, rfl, by decide⟩, ?_, rfl, by decide⟩
  exact List.forall_mem_singleton.mpr ⟨rfl, rfl, rfl, rfl, by decide⟩

end Declaration

end Gloss

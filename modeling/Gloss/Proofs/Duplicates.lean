import Gloss.Input
import Gloss.Proofs.TreeWalk
import Gloss.Proofs.WholeReports
import Mathlib.Data.List.Find

/-!
# Duplicate inputs

Arguments stand for inputs of a tree as `FileTree.Denotes` says. The inputs of a command are the
first ones of their identity among these, in the order in which the arguments come to them.

An identity keeps a full stop at the front of a path, so a file that is found with and without it is
listed twice. `Input.collect_firsts` says when no file is listed twice: exactly when no file is
found in both spellings.
-/

namespace Gloss

/-! ## Files of patterns -/

namespace Glob

/-- The tree has at the path of the place what the place says. -/
def Place.Stands (tree : FileTree) (p : Place) : Prop := p.kind = tree.kind? p.path

variable {tree : FileTree} {stdin : ByteArray}

theorem Place.stands_at (path : String) : (Place.at (tree.disk stdin) path).run.Stands tree := rfl

theorem Place.stands_child (directory name : String) :
    (Place.child (tree.disk stdin) directory name).run.Stands tree := rfl

theorem visit_succ (disk : Disk Id) (fuel : Nat) (segments : List (List Piece)) (name : String)
    (place : Place) :
    (visit disk (fuel + 1) segments name place).run =
      (match segments.dropWhile fun pieces => decide (pieces = [.anyDirectories]) with
        | [] => []
        | pieces :: more =>
          if fits pieces name.toList then (search disk fuel more place).run else []) ++
      if segments.head?.any (fun pieces => decide (pieces = [.anyDirectories])) &&
          place.kind = some .directory then
        (search disk fuel ([.anyDirectories] ::
          segments.dropWhile fun pieces => decide (pieces = [.anyDirectories])) place).run
      else [] := by
  rw [visit]
  cases segments.dropWhile fun pieces => decide (pieces = [Piece.anyDirectories]) with
  | nil => dsimp only; split <;> rfl
  | cons pieces more =>
    dsimp only
    split <;> rw [Id.run_bind] <;> split <;> rfl

/-- A search that starts from what stands in a tree finds only files of the tree. -/
theorem kind?_of_mem_search (fuel : Nat) :
    (∀ segments (place : Place), place.Stands tree →
      ∀ q ∈ (search (tree.disk stdin) fuel segments place).run, tree.kind? q = some .file) ∧
    ∀ segments name (place : Place), place.Stands tree →
      ∀ q ∈ (visit (tree.disk stdin) fuel segments name place).run, tree.kind? q = some .file := by
  -- both at once, since each goes on with the other on less fuel
  induction fuel with
  | zero =>
    constructor
    · intro segments place stands q member
      cases member
    · intro segments name place stands q member
      cases member
  | succ fuel ih =>
    obtain ⟨searched, visited⟩ := ih
    constructor
    · intro segments place stands q member
      cases segments with
      | nil =>
        rw [search, Id.run_pure, Place.file] at member
        split at member
        · next file =>
          obtain rfl := List.mem_singleton.mp member
          exact stands ▸ file
        · cases member
      | cons pieces more =>
        rw [search] at member
        split at member
        · rw [Id.run_bind] at member
          split at member
          · exact searched _ _ (Place.stands_child ..) q member
          · cases member
        · split at member
          · simp only [Id.run_bind, List.idRun_mapM, Id.run_pure, List.mem_append, List.mem_flatten,
              List.mem_map] at member
            rcases member with
              ⟨found, ⟨name, dots, rfl⟩, member⟩ | ⟨found, ⟨name, named, rfl⟩, member⟩
            · exact searched _ _ (Place.stands_at _) q member
            · exact visited _ _ _ (Place.stands_child ..) q member
          · cases member
    · intro segments name place stands q member
      rw [visit_succ, List.mem_append] at member
      rcases member with here | below
      · split at here
        · cases here
        · split at here
          · exact searched _ _ stands q here
          · cases here
      · split at below
        · exact searched _ _ stands q below
        · cases below

/-- The files of a pattern are files of the tree. -/
theorem Pattern.kind?_of_mem_files {p : Pattern} {q : String}
    (member : q ∈ (p.files (tree.disk stdin)).run) : tree.kind? q = some .file := by
  rw [Pattern.files] at member
  split at member
  · cases member
  · rw [Id.run_bind] at member
    exact (kind?_of_mem_search _).1 _ _ (Place.stands_at _) q member

end Glob

/-! ## What arguments stand for -/

/-- The inputs that an argument stands for in a tree: the standard input, a file, the files inside a
directory that the settings ask for and whose paths are short enough to be looked up, or the files
that fit a pattern. -/
inductive FileTree.Denotes (tree : FileTree) (stdin : ByteArray) (s : Settings) :
    String → Input → Prop
  | stdin : Denotes tree stdin s "-" .stdin
  | file {path : String} {content : ByteArray} :
    path ≠ "-" → tree.find path = .ok (.file content) → Denotes tree stdin s path (.file path)
  | member {path : String} {entries : List (String × FileTree)} {names : List String}
    {content : ByteArray} :
    path ≠ "-" → tree.find path = .ok (.directory entries) →
    (FileTree.directory entries).inside? names = some (.file content) →
    (Path.joinAll path names).utf8ByteSize ≤ FileTree.pathLimit →
    s.accepts (Path.joinAll path names) →
    Denotes tree stdin s path (.file (Path.joinAll path names))
  | fitting {arg path : String} {pattern : Glob.Pattern} :
    arg ≠ "-" → tree.kind? arg = none → Glob.isPattern arg →
    Glob.Pattern.ofString? arg = .ok pattern → path ∈ (pattern.files (tree.disk stdin)).run →
    Denotes tree stdin s arg (.file path)

namespace Input

variable {tree : FileTree} {stdin : ByteArray} {s : Settings} {arg : String}

theorem denotes_dash_iff {i : Input} : tree.Denotes stdin s "-" i ↔ i = .stdin := by
  constructor
  · intro denotes
    cases denotes with
    | stdin => rfl
    | file other | member other | fitting other => exact absurd rfl other
  · intro same
    rw [same]
    exact .stdin

theorem denotes_file_iff {content : ByteArray} (dash : arg ≠ "-")
    (found : tree.find arg = .ok (.file content)) {i : Input} :
    tree.Denotes stdin s arg i ↔ i = .file arg := by
  constructor
  · intro denotes
    cases denotes with
    | stdin => exact absurd rfl dash
    | file => rfl
    | member _ found' => cases found.symm.trans found'
    | fitting _ none =>
      cases none.symm.trans (FileTree.kind?_eq_file_iff.mpr ⟨content, found⟩)
  · intro same
    rw [same]
    exact .file dash found

theorem denotes_directory_iff (proper : tree.Proper) {entries : List (String × FileTree)}
    (dash : arg ≠ "-") (found : tree.find arg = .ok (.directory entries)) {i : Input} :
    tree.Denotes stdin s arg i ↔
      ∃ q ∈ ((tree.disk stdin).walk (tree.disk stdin).depth arg).run,
        s.accepts q ∧ i = .file q := by
  constructor
  · intro denotes
    cases denotes with
    | stdin => exact absurd rfl dash
    | file _ found' => cases found.symm.trans found'
    | member _ found' there short accepted =>
      obtain rfl := FileTree.directory.inj (Except.ok.inj (found.symm.trans found'))
      exact ⟨_, (FileTree.mem_walk_iff proper found).mpr ⟨_, _, there, rfl, short⟩, accepted, rfl⟩
    | fitting _ none =>
      cases none.symm.trans (FileTree.kind?_eq_directory_iff.mpr ⟨entries, found⟩)
  · intro walked
    obtain ⟨q, walked, accepted, rfl⟩ := walked
    obtain ⟨names, content, there, rfl, short⟩ := (FileTree.mem_walk_iff proper found).mp walked
    exact .member dash found there short accepted

theorem denotes_pattern_iff {pattern : Glob.Pattern} (dash : arg ≠ "-")
    (none : tree.kind? arg = none) (isPattern : Glob.isPattern arg)
    (ofString : Glob.Pattern.ofString? arg = .ok pattern) {i : Input} :
    tree.Denotes stdin s arg i ↔ ∃ q ∈ (pattern.files (tree.disk stdin)).run, i = .file q := by
  constructor
  · intro denotes
    cases denotes with
    | stdin => exact absurd rfl dash
    | file _ found => cases none.symm.trans (FileTree.kind?_eq_file_iff.mpr ⟨_, found⟩)
    | member _ found => cases none.symm.trans (FileTree.kind?_eq_directory_iff.mpr ⟨_, found⟩)
    | fitting _ _ _ ofString' fits =>
      obtain rfl := Except.ok.inj (ofString.symm.trans ofString')
      exact ⟨_, fits, rfl⟩
  · intro fits
    obtain ⟨q, fits, rfl⟩ := fits
    exact .fitting dash none isPattern ofString fits

/-- An argument gives the inputs that it stands for. -/
theorem mem_ofArgument_iff (proper : tree.Proper) {is : List Input}
    (gives : (ofArgument (tree.disk stdin) s arg).run = .ok is) (i : Input) :
    i ∈ is ↔ tree.Denotes stdin s arg i := by
  have kind : ((tree.disk stdin).kind? arg).run = tree.kind? arg := rfl
  by_cases dash : arg = "-"
  · subst dash
    obtain rfl : [Input.stdin] = is := Except.ok.inj gives
    rw [denotes_dash_iff, List.mem_singleton]
  · rw [ofArgument, if_neg dash, Id.run_bind, kind] at gives
    split at gives
    · next isDirectory =>
      obtain ⟨entries, found⟩ := FileTree.kind?_eq_directory_iff.mp isDirectory
      obtain rfl := Except.ok.inj gives
      rw [denotes_directory_iff proper dash found]
      simp only [List.mem_map, List.mem_filter, and_assoc, eq_comm (a := i)]
      rfl
    · next isFile =>
      obtain ⟨content, found⟩ := FileTree.kind?_eq_file_iff.mp isFile
      obtain rfl := Except.ok.inj gives
      rw [denotes_file_iff dash found, List.mem_singleton]
    · next none =>
      split at gives
      · next isPattern =>
        split at gives
        · cases gives
        · next pattern ofString =>
          rw [Id.run_bind, Id.run_pure, ofFiles] at gives
          split at gives
          · cases gives
          · obtain rfl := Except.ok.inj gives
            rw [denotes_pattern_iff dash none isPattern ofString]
            simp only [List.mem_map, eq_comm (a := i)]
      · cases gives

/-- The inputs of a command are the first ones of those that the arguments give. -/
theorem collect_eq_ok {args : List String} {inputs : List Input}
    (collected : (collect (tree.disk stdin) s args).run = .ok inputs) :
    ∃ found, List.Forall₂ (fun arg is => (ofArgument (tree.disk stdin) s arg).run = .ok is)
        args found ∧ inputs = distinct [] found.flatten := by
  rw [collect, Id.run_bind, Id.run_pure, List.idRun_mapM, ofArguments, List.mapM_map] at collected
  rcases exists_mapM_cases (id ∘ fun arg => (ofArgument (tree.disk stdin) s arg).run) args with
    ⟨fault, failed, -⟩ | ⟨found, done, each⟩
  · rw [failed] at collected
    cases collected
  · rw [done] at collected
    exact ⟨found, each, (Except.ok.inj collected).symm⟩

/-- What an input is apart from the spelling of its path, where a full stop in it counts as
nothing. -/
def place : Input → Option (List String)
  | .stdin => none
  | .file path => some (Path.place path)

theorem place_eq_of_identity_eq {i j : Input} (same : i.identity = j.identity) :
    i.place = j.place := by
  cases i with
  | stdin => cases j with
    | stdin => rfl
    | file q => cases same
  | file p => cases j with
    | stdin => cases same
    | file q =>
      rw [place, place, Path.place_eq_iff.mpr (.inl (Option.some.inj same))]

/-- The entries are the first inputs of their kind among all, in their order. -/
structure Firsts {κ : Type} [DecidableEq κ] (key : Input → κ) (all entries : List Input) :
    Prop where
  distinct : entries.Pairwise fun i j => key i ≠ key j
  present : ∀ i ∈ all, ∃ j ∈ entries, key j = key i
  first : ∀ j ∈ entries, all.find? (fun i => key i = key j) = some j
  order : entries.Pairwise fun i j =>
    all.findIdx (fun k => key k = key i) < all.findIdx (fun k => key k = key j)

theorem identity_ne_of_mem_distinct {seen : List (Option (List String))} {all : List Input}
    {i j : Input} (old : i.identity ∈ seen) (member : j ∈ distinct seen all) :
    i.identity ≠ j.identity :=
  fun same => identity_not_mem_of_mem_distinct member (same ▸ old)

theorem find?_distinct {seen : List (Option (List String))} {all : List Input} {j : Input}
    (member : j ∈ distinct seen all) :
    all.find? (fun i => i.identity = j.identity) = some j := by
  induction all generalizing seen with
  | nil => cases member
  | cons i is ih =>
    unfold distinct at member
    split at member
    · next old =>
      have other := identity_ne_of_mem_distinct (List.contains_iff_mem.mp old) member
      rw [List.find?_cons_of_neg (by simpa using other)]
      exact ih member
    · rcases List.mem_cons.mp member with rfl | member
      · exact List.find?_cons_of_pos (by simp)
      · have other := identity_ne_of_mem_distinct (.head _) member
        rw [List.find?_cons_of_neg (by simpa using other)]
        exact ih member

theorem exists_mem_distinct (seen : List (Option (List String))) {all : List Input} {i : Input}
    (member : i ∈ all) :
    i.identity ∈ seen ∨ ∃ j ∈ distinct seen all, j.identity = i.identity := by
  induction all generalizing seen with
  | nil => cases member
  | cons i' is ih =>
    unfold distinct
    split
    · next old =>
      rcases List.mem_cons.mp member with rfl | member
      · exact .inl (List.contains_iff_mem.mp old)
      · exact ih seen member
    · rcases List.mem_cons.mp member with rfl | member
      · exact .inr ⟨_, .head _, rfl⟩
      · rcases ih (i'.identity :: seen) member with before | ⟨j, listed, same⟩
        · rcases List.mem_cons.mp before with same | before
          · exact .inr ⟨i', .head _, same.symm⟩
          · exact .inl before
        · exact .inr ⟨j, .tail _ listed, same⟩

theorem order_distinct (seen : List (Option (List String))) (all : List Input) :
    (distinct seen all).Pairwise fun i j =>
      all.findIdx (fun k => k.identity = i.identity) <
        all.findIdx (fun k => k.identity = j.identity) := by
  induction all generalizing seen with
  | nil => exact .nil
  | cons i is ih =>
    -- whether the first input is kept or dropped, those after it are others and stand one further
    have later {j : Input} (other : i.identity ≠ j.identity) :
        (i :: is).findIdx (fun k => k.identity = j.identity) =
          is.findIdx (fun k => k.identity = j.identity) + 1 := by
      simp [List.findIdx_cons, other]
    unfold distinct
    split
    · next old =>
      have other {j : Input} (member : j ∈ distinct seen is) :=
        identity_ne_of_mem_distinct (List.contains_iff_mem.mp old) member
      refine (ih seen).imp_of_mem fun first second less => ?_
      rw [later (other first), later (other second)]
      exact Nat.succ_lt_succ less
    · have other {j : Input} (member : j ∈ distinct (i.identity :: seen) is) :=
        identity_ne_of_mem_distinct (.head _) member
      refine .cons (fun j member => ?_) ((ih _).imp_of_mem fun first second less => ?_)
      · rw [later (other member)]
        simp [List.findIdx_cons]
      · rw [later (other first), later (other second)]
        exact Nat.succ_lt_succ less

theorem firsts_distinct (all : List Input) : Firsts identity all (distinct [] all) where
  distinct := distinct_pairwise [] all
  present _ member := (exists_mem_distinct [] member).resolve_left List.not_mem_nil
  first _ member := find?_distinct member
  order := order_distinct [] all

theorem Firsts.mem {κ : Type} [DecidableEq κ] {key : Input → κ} {all entries : List Input}
    (firsts : Firsts key all entries) {j : Input} (listed : j ∈ entries) : j ∈ all :=
  List.mem_of_find?_eq_some (firsts.first j listed)

theorem findIdx_congr {α : Type} {p q : α → Bool} {xs : List α} (same : ∀ x ∈ xs, p x = q x) :
    xs.findIdx p = xs.findIdx q := by
  induction xs with
  | nil => rfl
  | cons x xs ih =>
    rw [List.findIdx_cons, List.findIdx_cons, same x (.head _),
      ih fun y member => same y (.tail _ member)]

/-- Where two keys tell the same inputs apart, the first inputs by one are those by the other. -/
theorem Firsts.of_key_eq_iff {κ κ' : Type} [DecidableEq κ] [DecidableEq κ'] {key : Input → κ}
    {key' : Input → κ'} {all entries : List Input} (firsts : Firsts key all entries)
    (same : ∀ i ∈ all, ∀ j ∈ all, key i = key j ↔ key' i = key' j) : Firsts key' all entries := by
  have tests {j : Input} (listed : j ∈ entries) : ∀ i ∈ all,
      decide (key i = key j) = decide (key' i = key' j) := fun i member =>
    decide_eq_decide.mpr (same i member j (firsts.mem listed))
  refine ⟨?_, ?_, ?_, ?_⟩
  · refine firsts.distinct.imp_of_mem fun first second other => ?_
    exact fun equal => other ((same _ (firsts.mem first) _ (firsts.mem second)).mpr equal)
  · intro i member
    obtain ⟨j, listed, equal⟩ := firsts.present i member
    exact ⟨j, listed, (same j (firsts.mem listed) i member).mp equal⟩
  · intro j listed
    rw [← firsts.first j listed]
    exact (List.find?_congr (tests listed)).symm
  · refine firsts.order.imp_of_mem fun first second less => ?_
    rw [← findIdx_congr (tests first), ← findIdx_congr (tests second)]
    exact less

/-- The first inputs by identity are the first ones by place exactly when no file is found both with
and without a full stop at the front of its path. -/
theorem Firsts.place_iff {all entries : List Input} (firsts : Firsts identity all entries) :
    Firsts place all entries ↔
      ¬ ∃ p q, file p ∈ all ∧ file q ∈ all ∧ Path.parts p = "." :: Path.parts q := by
  constructor
  · intro byPlace pair
    obtain ⟨p, q, first, second, dotted⟩ := pair
    obtain ⟨i, listed, same⟩ := firsts.present _ first
    obtain ⟨j, listed', same'⟩ := firsts.present _ second
    have places : i.place = j.place := by
      rw [place_eq_of_identity_eq same, place_eq_of_identity_eq same', place, place,
        Path.place_eq_iff.mpr (.inr (.inl dotted))]
    -- a search by place comes to the same input for both spellings
    have one : some i = some j := by
      rw [← byPlace.first i listed, ← byPlace.first j listed', places]
    obtain rfl := Option.some.inj one
    have loop : Path.parts p = Path.parts q := Option.some.inj (same.symm.trans same')
    exact List.cons_ne_self "." _ (dotted.symm.trans loop)
  · intro apart
    refine firsts.of_key_eq_iff fun i member j member' => ?_
    cases i with
    | stdin => cases j <;> simp [identity, place]
    | file p =>
      cases j with
      | stdin => simp [identity, place]
      | file q =>
        simp only [identity, place, Option.some.injEq, Path.place_eq_iff]
        constructor
        · exact .inl
        · intro same
          rcases same with same | dotted | dotted
          · exact same
          · exact absurd ⟨p, q, member, member', dotted⟩ apart
          · exact absurd ⟨q, p, member', member, dotted⟩ apart

/-- Every input that is a path is a file of the tree. -/
theorem exists_find_of_denotes (proper : tree.Proper) {path : String}
    (denotes : tree.Denotes stdin s arg (.file path)) :
    ∃ content, tree.find path = .ok (.file content) := by
  cases denotes with
  | file _ found => exact ⟨_, found⟩
  | member _ found there short =>
    exact ⟨_, FileTree.find_joinAll found (proper.find found) there short⟩
  | fitting _ _ _ _ fits =>
    exact FileTree.kind?_eq_file_iff.mp (Glob.Pattern.kind?_of_mem_files fits)

/-- The inputs of a command are the first ones of their identity among those that the arguments
stand for. They are the first ones of their places, so that no file is listed twice, exactly when no
file is found both with and without a full stop at the front of its path. -/
theorem collect_firsts (proper : tree.Proper) {args : List String} {inputs : List Input}
    (collected : (collect (tree.disk stdin) s args).run = .ok inputs) :
    ∃ found : List (List Input),
      List.Forall₂ (fun arg is => (ofArgument (tree.disk stdin) s arg).run = .ok is ∧
        ∀ i, i ∈ is ↔ tree.Denotes stdin s arg i) args found ∧
      (∀ p q, file p ∈ found.flatten → file q ∈ found.flatten → Path.place p = Path.place q →
        ∃ content, tree.find p = .ok (.file content) ∧ tree.find q = .ok (.file content)) ∧
      Firsts identity found.flatten inputs ∧
      (Firsts place found.flatten inputs ↔ ¬ ∃ p q, file p ∈ found.flatten ∧
        file q ∈ found.flatten ∧ Path.parts p = "." :: Path.parts q) := by
  obtain ⟨found, each, rfl⟩ := collect_eq_ok collected
  have each := each.imp fun arg is gives =>
    And.intro gives (mem_ofArgument_iff (s := s) proper gives)
  have exists_find_of_mem : ∀ is ∈ found, ∀ p, file p ∈ is →
      ∃ content, tree.find p = .ok (.file content) :=
    forall_mem_of_forall₂ (List.Forall₂.flip (R := flip _) each) fun is arg here p member =>
      exists_find_of_denotes proper ((here.2 _).mp member)
  have exists_find {p : String} (member : file p ∈ found.flatten) :
      ∃ content, tree.find p = .ok (.file content) := by
    obtain ⟨is, listed, member⟩ := List.mem_flatten.mp member
    exact exists_find_of_mem is listed p member
  have firsts := firsts_distinct found.flatten
  refine ⟨found, each, ?_, firsts, firsts.place_iff⟩
  intro p q first second same
  obtain ⟨content, here⟩ := exists_find first
  obtain ⟨content', there⟩ := exists_find second
  have one := FileTree.find_eq_of_place_eq here there same
  exact ⟨content, here, one ▸ there⟩

/-- A directory, the file in it and the standard input: the file is listed once. -/
theorem collect_firsts_overlap :
    ∃ tree : FileTree, tree.Proper ∧
      (collect (tree.disk .empty) (.ofLayers []) ["lib", "lib/./a.js", "-"]).run =
        .ok [file "lib/a.js", .stdin] ∧
      Firsts place [file "lib/a.js", file "lib/./a.js", .stdin] [file "lib/a.js", .stdin] := by
  let lib : FileTree := .directory [("a.js", .file .empty)]
  let tree : FileTree := .directory [("lib", lib)]
  have proper : tree.Proper := by
    have name : Path.IsFileName "lib" := by decide +kernel
    have name' : Path.IsFileName "a.js" := by decide +kernel
    have inner : lib.Proper :=
      .directory (List.forall_mem_singleton.mpr name') (List.forall_mem_singleton.mpr (.file _))
    exact .directory (List.forall_mem_singleton.mpr name) (List.forall_mem_singleton.mpr inner)
  have collected : (collect (tree.disk .empty) (.ofLayers []) ["lib", "lib/./a.js", "-"]).run =
      .ok [file "lib/a.js", .stdin] := by decide +kernel
  refine ⟨tree, proper, collected, ?_⟩
  obtain ⟨found, each, -, -, once⟩ := collect_firsts proper collected
  have walked : (ofArgument (tree.disk .empty) (.ofLayers []) "lib").run =
      .ok [file "lib/a.js"] := by decide +kernel
  have itself : (ofArgument (tree.disk .empty) (.ofLayers []) "lib/./a.js").run =
      .ok [file "lib/./a.js"] := by decide +kernel
  rcases each with _ | ⟨⟨first, -⟩, _ | ⟨⟨second, -⟩, _ | ⟨⟨third, -⟩, _ | _⟩⟩⟩
  obtain rfl := Except.ok.inj (walked.symm.trans first)
  obtain rfl := Except.ok.inj (itself.symm.trans second)
  obtain rfl := Except.ok.inj third
  refine once.mpr ?_
  intro pair
  obtain ⟨p, q, first, second, dotted⟩ := pair
  have undotted : ∀ p, file p ∈ [file "lib/a.js", file "lib/./a.js", .stdin] →
      Path.parts p = ["lib", "a.js"] := by
    intro p member
    simp only [List.mem_cons, file.injEq, reduceCtorEq, List.not_mem_nil, or_false] at member
    rcases member with rfl | rfl <;> decide +kernel
  rw [undotted p first, undotted q second] at dotted
  exact absurd dotted (by decide)

/-- A file that is given without a full stop at the front and with one is listed twice. -/
theorem not_firsts_place_dotted :
    (FileTree.directory [("a.js", .file .empty)]).Proper ∧
      (collect (FileTree.disk (.directory [("a.js", .file .empty)]) .empty) (.ofLayers [])
        ["a.js", "./a.js"]).run = .ok [file "a.js", file "./a.js"] ∧
      ∀ all, ¬ Firsts place all [file "a.js", file "./a.js"] := by
  refine ⟨?_, by decide +kernel, ?_⟩
  · refine .directory (List.forall_mem_singleton.mpr ?_) (List.forall_mem_singleton.mpr (.file _))
    decide +kernel
  · intro all firsts
    have other := List.rel_of_pairwise_cons firsts.distinct (.head _)
    exact other (by decide +kernel)

end Input

end Gloss

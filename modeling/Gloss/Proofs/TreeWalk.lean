import Gloss.FileTree

/-!
# Walks through a tree

A path to a directory and the name of one of its entries make the path of that entry
(`FileTree.find_join`). From this a walk is exact: it finds a file below the directory that it
starts from by the names that lead there, unless the path that they make is too long to be looked up
(`FileTree.mem_walk_iff`). No depth cuts the walk short, since the depth of a disk is that of its
deepest directory.

The segments of a path that name nothing lead nowhere (`FileTree.follow_filter_isName`), so paths
that agree in the others, which make up their places, lead to the same file
(`FileTree.find_eq_of_place_eq`).
-/

namespace Gloss

namespace Path

/-! ## Segments -/

theorem segments_append (cs ds : List Char) :
    segments (cs ++ '/' :: ds) = segments cs ++ segments ds := by
  induction cs with
  | nil => simp [segments]
  | cons c cs ih =>
    by_cases slash : c = '/'
    · simp [segments, slash, ih]
    · have some := segments_ne_nil cs
      simp only [List.cons_append, segments, slash, ↓reduceIte, ih]
      cases heads : segments cs with
      | nil => exact absurd heads some
      | cons segment more => rfl

theorem segments_eq_singleton {cs : List Char} (whole : '/' ∉ cs) : segments cs = [cs] := by
  induction cs with
  | nil => rfl
  | cons c cs ih =>
    obtain ⟨other, rest⟩ := List.ne_and_not_mem_of_not_mem_cons whole
    simp [segments, other.symm, ih rest]

/-- The text can name an entry of a directory. -/
structure IsFileName (name : String) : Prop where
  named : isName name = true
  notAbove : name ≠ ".."
  noSlash : '/' ∉ name.toList
  noNul : '\x00' ∉ name.toList
  short : name.utf8ByteSize ≤ FileTree.nameLimit

instance (name : String) : Decidable (IsFileName name) :=
  decidable_of_iff (isName name = true ∧ name ≠ ".." ∧ '/' ∉ name.toList ∧ '\x00' ∉ name.toList ∧
      name.utf8ByteSize ≤ FileTree.nameLimit)
    ⟨fun h => ⟨h.1, h.2.1, h.2.2.1, h.2.2.2.1, h.2.2.2.2⟩, fun h => ⟨h.1, h.2, h.3, h.4, h.5⟩⟩

/-- The path of an entry has the segments of the directory, without an empty one at its end, and the
name. -/
theorem exists_split_join {directory name : String} (some : directory ≠ "")
    (noSlash : '/' ∉ name.toList) :
    ∃ front, split (join directory name) = front ++ [name] ∧
      (split directory = front ∨ split directory = front ++ [""]) := by
  have last : segments name.toList = [name.toList] := segments_eq_singleton noSlash
  unfold join
  rw [if_neg some]
  split
  · next slash =>
    obtain ⟨cs, whole⟩ := List.getLast?_eq_some_iff.mp slash
    refine ⟨(segments cs).map String.ofList, ?_, .inr ?_⟩
    · have here : (directory ++ name).toList = cs ++ '/' :: name.toList := by
        simp [String.toList_append, whole]
      rw [split, here, segments_append, last]
      simp
    · simp [split, whole, segments_append, segments]
  · refine ⟨split directory, ?_, .inl rfl⟩
    have here : (directory ++ "/" ++ name).toList = directory.toList ++ '/' :: name.toList := by
      simp [String.toList_append]
    rw [split, here, segments_append, last]
    simp [split]

theorem join_toList (directory name : String) :
    ∃ between, (join directory name).toList = directory.toList ++ between ++ name.toList ∧
      between.Sublist ['/'] := by
  unfold join
  split
  · next empty => exact ⟨[], by simp [empty], List.nil_sublist _⟩
  · split
    · exact ⟨[], by simp, List.nil_sublist _⟩
    · exact ⟨['/'], by simp, .refl _⟩

theorem size_le_size_join (directory name : String) :
    directory.utf8ByteSize ≤ (join directory name).utf8ByteSize := by
  unfold join
  split
  · next empty => simp [empty]
  · split <;> simp only [String.utf8ByteSize_append] <;> omega

/-- The path that names make, one after the other, from a directory on. -/
def joinAll (directory : String) (names : List String) : String := names.foldl join directory

theorem size_le_size_joinAll (directory : String) (names : List String) :
    directory.utf8ByteSize ≤ (joinAll directory names).utf8ByteSize := by
  induction names generalizing directory with
  | nil => exact Nat.le_refl _
  | cons name names ih => exact Nat.le_trans (size_le_size_join directory name) (ih _)

end Path

namespace FileTree

open Gloss.Path

/-! ## Following segments -/

/-- To follow more segments is to go on from where the first of them lead. -/
theorem exists_follow_append (above : List FileTree) (tree : FileTree) (front : List String) :
    ∃ above', ∀ more, follow above tree (front ++ more) =
      (follow above tree front).bind fun sub => follow above' sub more := by
  fun_induction follow above tree front with
  | case1 above tree => exact ⟨above, fun more => rfl⟩
  | case2 front entries ih =>
    obtain ⟨above', on⟩ := ih
    exact ⟨above', fun more => by simpa [follow] using on more⟩
  | case3 front entries parent above ih =>
    obtain ⟨above', on⟩ := ih
    exact ⟨above', fun more => by simpa [follow] using on more⟩
  | case4 above name front entries up named long =>
    exact ⟨[], fun more => by simp [follow, up, named, long, Except.bind]⟩
  | case5 above name front entries up named short child found ih =>
    obtain ⟨above', on⟩ := ih
    exact ⟨above', fun more => by simpa [follow, up, named, short, found] using on more⟩
  | case6 above name front entries up named short missing =>
    exact ⟨[], fun more => by simp [follow, up, named, short, missing, Except.bind]⟩
  | case7 above segment front entries up unnamed ih =>
    obtain ⟨above', on⟩ := ih
    exact ⟨above', fun more => by simpa [follow, up, unnamed] using on more⟩
  | case8 above tree segment front other =>
    refine ⟨[], fun more => ?_⟩
    cases tree with
    | directory entries => exact absurd rfl (other entries)
    | file content => rfl
    | device content => rfl

/-- What is found with a slash after it is found without. -/
theorem follow_of_append_empty {above : List FileTree} {tree sub : FileTree} {front : List String}
    (found : follow above tree (front ++ [""]) = .ok sub) : follow above tree front = .ok sub := by
  obtain ⟨above', on⟩ := exists_follow_append above tree front
  rw [on] at found
  cases before : follow above tree front with
  | error fault =>
    rw [before] at found
    cases found
  | ok sub' =>
    rw [before] at found
    cases sub' with
    | directory entries => exact found
    | file content => cases found
    | device content => cases found

/-- A property that goes over to the entries of a directory holds of what is followed. -/
theorem follow_preserves {P : FileTree → Prop}
    (entry : ∀ entries name child, P (directory entries) → entries.lookup name = some child →
      P child)
    {above : List FileTree} {tree sub : FileTree} {segments : List String}
    (before : ∀ t ∈ above, P t) (here : P tree) (found : follow above tree segments = .ok sub) :
    P sub := by
  fun_induction follow above tree segments with
  | case1 above tree => exact Except.ok.inj found ▸ here
  | case2 front entries ih => exact ih nofun here found
  | case3 front entries parent above ih =>
    exact ih (fun t member => before t (.tail _ member)) (before parent (.head _)) found
  | case4 | case6 | case8 => cases found
  | case5 above name front entries up named short child present ih =>
    exact ih (List.forall_mem_cons.mpr ⟨here, before⟩) (entry entries name child here present) found
  | case7 above segment front entries up unnamed ih => exact ih before here found

/-- Segments that name nothing lead nowhere. -/
theorem follow_filter_isName {above : List FileTree} {tree sub : FileTree} {segments : List String}
    (found : follow above tree segments = .ok sub) :
    follow above tree (segments.filter isName) = .ok sub := by
  have up : isName ".." = true := by decide
  fun_induction follow above tree segments with
  | case1 above tree => exact found
  | case2 front entries ih => simpa [follow, up] using ih found
  | case3 front entries parent above ih => simpa [follow, up] using ih found
  | case4 | case6 | case8 => cases found
  | case5 above name front entries up' named short child present ih =>
    simpa [follow, up', named, short, present] using ih found
  | case7 above segment front entries up' unnamed ih => simpa [unnamed] using ih found

/-! ## Finding paths -/

/-- What a path is followed from: the directories above, and the root of the machine or of the
tree. -/
def origin (tree : FileTree) (path : String) : List FileTree × FileTree :=
  if path.toList.head? = some '/' then ([], machine) else ([empty], tree)

/-- A text that can be the path of something. -/
structure Lookable (path : String) : Prop where
  noNul : '\x00' ∉ path.toList
  some : path ≠ ""
  short : path.utf8ByteSize ≤ pathLimit

theorem find_eq_follow {path : String} (lookable : Lookable path) (tree : FileTree) :
    tree.find path = follow (tree.origin path).1 (tree.origin path).2 (split path) := by
  have noNul : path.toList.contains '\x00' = false := by simpa using lookable.noNul
  have short := lookable.short
  simp only [find, noNul, lookable.some, Nat.not_lt.mpr short, Bool.false_eq_true, ↓reduceIte,
    origin]
  split <;> rfl

theorem lookable_of_find {tree sub : FileTree} {path : String} (found : tree.find path = .ok sub) :
    Lookable path := by
  unfold find at found
  split at found
  · cases found
  · next noNul =>
    split at found
    · cases found
    · next some =>
      split at found
      · cases found
      · next short => exact ⟨by simpa using noNul, some, Nat.not_lt.mp short⟩

/-- What holds of the tree, of the machine, and of entries where it holds of the directory holds of
what is found. -/
theorem find_preserves {P : FileTree → Prop}
    (entry : ∀ entries name child, P (directory entries) → entries.lookup name = some child →
      P child)
    (nothing : P empty) (outside : P machine) {tree sub : FileTree} (here : P tree) {path : String}
    (found : tree.find path = .ok sub) : P sub := by
  rw [find_eq_follow (lookable_of_find found)] at found
  refine follow_preserves entry ?_ ?_ found
  · unfold origin
    split
    · nofun
    · exact List.forall_mem_singleton.mpr nothing
  · unfold origin
    split
    · exact outside
    · exact here

theorem follow_singleton {above : List FileTree} {entries : List (String × FileTree)}
    {name : String} (proper : IsFileName name) :
    follow above (directory entries) [name] =
      match entries.lookup name with
      | some child => .ok child
      | none => .error .missing := by
  unfold follow
  dsimp only
  rw [if_neg proper.notAbove, if_pos proper.named, if_neg (Nat.not_lt.mpr proper.short)]
  cases entries.lookup name <;> rfl

/-- The path of an entry finds the entry, if it is short enough. -/
theorem find_join {tree : FileTree} {entries : List (String × FileTree)} {path name : String}
    (found : tree.find path = .ok (directory entries)) (proper : IsFileName name) :
    tree.find (join path name) =
      if pathLimit < (join path name).utf8ByteSize then .error .nameTooLong
      else
        match entries.lookup name with
        | some child => .ok child
        | none => .error .missing := by
  have lookable := lookable_of_find found
  obtain ⟨between, spelled, slash⟩ := join_toList path name
  have noNul : '\x00' ∉ (join path name).toList := by
    have other : '\x00' ∉ between := fun member => by simpa using slash.subset member
    simp [spelled, lookable.noNul, proper.noNul, other]
  have nonempty : path.toList ≠ [] := by simpa using lookable.some
  have some : join path name ≠ "" := by
    intro empty
    rw [empty] at spelled
    simp [nonempty] at spelled
  have start : tree.origin (join path name) = tree.origin path := by
    have first : (join path name).toList.head? = path.toList.head? := by
      rw [spelled, List.append_assoc, List.head?_append, List.head?_eq_some_head nonempty]
      rfl
    rw [origin, origin, first]
  split
  · next long => simp [find, noNul, some, long]
  · next short =>
    rw [find_eq_follow lookable] at found
    obtain ⟨front, split, spelling⟩ := exists_split_join lookable.some proper.noSlash
    obtain ⟨above, on⟩ := exists_follow_append (tree.origin path).1 (tree.origin path).2 front
    have there : follow (tree.origin path).1 (tree.origin path).2 front =
        .ok (directory entries) := by
      -- a slash at the end of the path adds an empty segment, which leads nowhere
      rcases spelling with same | slash
      · rw [← same, found]
      · exact follow_of_append_empty (slash ▸ found)
    have step : tree.find (join path name) = follow above (directory entries) [name] := by
      rw [find_eq_follow ⟨noNul, some, Nat.not_lt.mp short⟩, start, split, on, there]
      rfl
    rw [step, follow_singleton proper]

theorem find_join_eq_ok_iff {tree : FileTree} {entries : List (String × FileTree)}
    {path name : String} (found : tree.find path = .ok (directory entries))
    (proper : IsFileName name) (child : FileTree) :
    tree.find (join path name) = .ok child ↔
      entries.lookup name = some child ∧ (join path name).utf8ByteSize ≤ pathLimit := by
  rw [find_join found proper]
  split
  · next long => simp [Nat.not_le.mpr long]
  · next short => cases entries.lookup name <;> simp [Nat.not_lt.mp short]

/-! ## Proper trees -/

/-- All entries of the tree have names that a file can have. -/
inductive Proper : FileTree → Prop
  | file (content : ByteArray) : Proper (file content)
  | device (content : ByteArray) : Proper (device content)
  | directory {entries : List (String × FileTree)} :
    (∀ e ∈ entries, IsFileName e.1) → (∀ e ∈ entries, Proper e.2) → Proper (directory entries)

theorem Proper.isFileName {entries : List (String × FileTree)}
    (proper : (FileTree.directory entries).Proper) :
    ∀ e ∈ entries, IsFileName e.1 := by
  cases proper with
  | directory named children => exact named

theorem mem_of_lookup {entries : List (String × FileTree)} {name : String} {child : FileTree}
    (found : entries.lookup name = some child) : (name, child) ∈ entries := by
  obtain ⟨front, back, whole, -⟩ := List.lookup_eq_some_iff.mp found
  simp [whole]

theorem Proper.entry {entries : List (String × FileTree)} {name : String} {child : FileTree}
    (proper : (FileTree.directory entries).Proper) (found : entries.lookup name = some child) :
    child.Proper := by
  cases proper with
  | directory named children => exact children _ (mem_of_lookup found)

theorem proper_empty : empty.Proper := .directory nofun nofun

theorem proper_machine : machine.Proper := by
  have device : (directory [("null", device .empty)]).Proper := by
    refine .directory (List.forall_mem_singleton.mpr ?_) (List.forall_mem_singleton.mpr ?_)
    · decide +kernel
    · exact .device _
  refine .directory ?_ (List.forall_mem_cons.mpr ⟨device, List.forall_mem_map.mpr ?_⟩)
  · decide +kernel
  · exact fun name member => proper_empty

/-- An entry is less deep than its directory. -/
theorem depth_lt_of_lookup {entries : List (String × FileTree)} {name : String} {child : FileTree}
    (found : entries.lookup name = some child) : child.depth < (directory entries).depth := by
  have deepest : child.depth ≤ depthOfAll entries := by
    have member := mem_of_lookup found
    clear found
    induction entries with
    | nil => cases member
    | cons e entries ih =>
      rw [depthOfAll]
      rcases List.mem_cons.mp member with rfl | member
      · exact Nat.le_max_left ..
      · exact Nat.le_trans (ih member) (Nat.le_max_right ..)
  rw [depth]
  exact Nat.lt_succ_of_le deepest

/-- Nothing that can be found is deeper than the disk. -/
theorem depth_le_of_find {tree sub : FileTree} {path : String} {stdin : ByteArray}
    (found : tree.find path = .ok sub) : sub.depth ≤ (tree.disk stdin).depth := by
  refine find_preserves (P := fun t => t.depth ≤ (tree.disk stdin).depth) ?_ ?_ ?_ ?_ found
  · intro entries name child bound present
    exact Nat.le_trans (Nat.le_of_lt (depth_lt_of_lookup present)) bound
  · have one : empty.depth ≤ machine.depth := by decide +kernel
    exact Nat.le_trans one (Nat.le_max_right ..)
  · exact Nat.le_max_right ..
  · exact Nat.le_max_left ..

theorem Proper.find {tree sub : FileTree} {path : String} (proper : tree.Proper)
    (found : tree.find path = .ok sub) : sub.Proper :=
  find_preserves (fun _ _ _ here present => here.entry present) proper_empty proper_machine proper
    found

/-! ## Walks -/

/-- What stands in a tree at the given names. -/
def inside? : List String → FileTree → Option FileTree
  | [], tree => some tree
  | name :: more, directory entries => (entries.lookup name).bind (inside? more)
  | _ :: _, _ => none

theorem inside_directory_eq_some_iff {entries : List (String × FileTree)} {names : List String}
    {content : ByteArray} :
    (directory entries).inside? names = some (file content) ↔
      ∃ name more child, names = name :: more ∧ entries.lookup name = some child ∧
        child.inside? more = some (file content) := by
  cases names with
  | nil => simp [inside?]
  | cons name more =>
    simp only [inside?, Option.bind_eq_some_iff, List.cons.injEq, exists_and_left, exists_eq_left',
      and_assoc]

theorem inside_file_eq_some_iff {names : List String} {content content' : ByteArray} :
    (file content).inside? names = some (file content') ↔ names = [] ∧ content = content' := by
  cases names <;> simp [inside?]

/-- The names that lead to an entry make a path that finds it, if it is short enough. -/
theorem find_joinAll {tree sub child : FileTree} {path : String} {names : List String}
    (found : tree.find path = .ok sub) (proper : sub.Proper)
    (there : sub.inside? names = some child)
    (short : (joinAll path names).utf8ByteSize ≤ pathLimit) :
    tree.find (joinAll path names) = .ok child := by
  induction names generalizing path sub with
  | nil =>
    obtain rfl := Option.some.inj there
    exact found
  | cons name more ih =>
    cases sub with
    | file content => cases there
    | device content => cases there
    | directory entries =>
      obtain ⟨next, present, there⟩ := Option.bind_eq_some_iff.mp there
      have joined := Nat.le_trans (size_le_size_joinAll (join path name) more) short
      have found := (find_join_eq_ok_iff found
        (proper.isFileName _ (mem_of_lookup present)) next).mpr ⟨present, joined⟩
      exact ih found (proper.entry present) there short

theorem kind?_eq_file_iff {tree : FileTree} {path : String} :
    tree.kind? path = some .file ↔ ∃ content, tree.find path = .ok (file content) := by
  unfold kind?
  split <;> simp_all

theorem kind?_eq_directory_iff {tree : FileTree} {path : String} :
    tree.kind? path = some .directory ↔ ∃ entries, tree.find path = .ok (directory entries) := by
  unfold kind?
  split <;> simp_all

theorem mem_walk_succ_iff {tree : FileTree} {stdin : ByteArray} {n : Nat} {path q : String} :
    q ∈ ((tree.disk stdin).walk (n + 1) path).run ↔
      ∃ name ∈ tree.names path,
        tree.kind? (join path name) = some .file ∧ q = join path name ∨
        tree.kind? (join path name) = some .directory ∧
          q ∈ ((tree.disk stdin).walk n (join path name)).run := by
  have kind (name : String) : ((tree.disk stdin).kind? (join path name)).run =
      tree.kind? (join path name) := rfl
  have names : ((tree.disk stdin).sortedNames path).run =
      (tree.names path).mergeSort fun s t => decide (s ≤ t) := rfl
  rw [Disk.walk, Id.run_bind, Id.run_bind, List.idRun_mapM, Id.run_pure, names, ← List.flatMap_def]
  simp only [List.mem_flatMap, List.mem_mergeSort, Id.run_bind, kind]
  refine exists_congr fun name => and_congr_right fun member => ?_
  cases tree.kind? (join path name) with
  | none => simp
  | some kind => cases kind <;> simp

/-- One step of a walk: the files of the directory, and the walks from the directories in it. -/
theorem mem_walk_succ_iff_lookup {tree : FileTree} {stdin : ByteArray} {n : Nat} {path q : String}
    {entries : List (String × FileTree)} (found : tree.find path = .ok (directory entries))
    (proper : (directory entries).Proper) :
    q ∈ ((tree.disk stdin).walk (n + 1) path).run ↔
      ∃ name child, entries.lookup name = some child ∧
        (join path name).utf8ByteSize ≤ pathLimit ∧
        ((∃ content, child = file content) ∧ q = join path name ∨
          (∃ entries', child = directory entries') ∧
            q ∈ ((tree.disk stdin).walk n (join path name)).run) := by
  rw [mem_walk_succ_iff, names, found]
  constructor
  · intro listed
    obtain ⟨name, named, here⟩ := listed
    obtain ⟨e, member, rfl⟩ := List.mem_map.mp named
    have joined (child : FileTree) := find_join_eq_ok_iff found (proper.isFileName e member) child
    rcases here with ⟨kind, spelled⟩ | ⟨kind, deeper⟩
    · obtain ⟨content, there⟩ := kind?_eq_file_iff.mp kind
      obtain ⟨present, short⟩ := (joined _).mp there
      exact ⟨e.1, _, present, short, .inl ⟨⟨content, rfl⟩, spelled⟩⟩
    · obtain ⟨entries', there⟩ := kind?_eq_directory_iff.mp kind
      obtain ⟨present, short⟩ := (joined _).mp there
      exact ⟨e.1, _, present, short, .inr ⟨⟨entries', rfl⟩, deeper⟩⟩
  · intro listed
    obtain ⟨name, child, present, short, here⟩ := listed
    have member := mem_of_lookup present
    have there := (find_join_eq_ok_iff found (proper.isFileName _ member) child).mpr
      ⟨present, short⟩
    refine ⟨name, List.mem_map.mpr ⟨_, member, rfl⟩, ?_⟩
    rcases here with ⟨⟨content, rfl⟩, spelled⟩ | ⟨⟨entries', rfl⟩, deeper⟩
    · exact .inl ⟨kind?_eq_file_iff.mpr ⟨content, there⟩, spelled⟩
    · exact .inr ⟨kind?_eq_directory_iff.mpr ⟨entries', there⟩, deeper⟩

/-- A walk that may go deep enough. -/
theorem mem_walk_iff_of_depth_le {tree : FileTree} {stdin : ByteArray} {n : Nat} {path q : String}
    {entries : List (String × FileTree)} (found : tree.find path = .ok (directory entries))
    (proper : (directory entries).Proper) (deep : (directory entries).depth ≤ n) :
    q ∈ ((tree.disk stdin).walk n path).run ↔
      ∃ names content, (directory entries).inside? names = some (file content) ∧
        q = joinAll path names ∧ q.utf8ByteSize ≤ pathLimit := by
  induction n generalizing path entries with
  | zero =>
    rw [depth] at deep
    omega
  | succ n ih =>
    -- a directory in this one is less deep, so what is left of the walk is enough for it
    have deeper {name : String} {entries' : List (String × FileTree)}
        (present : entries.lookup name = some (directory entries'))
        (short : (join path name).utf8ByteSize ≤ pathLimit) := by
      have there := (find_join_eq_ok_iff found
        (proper.isFileName _ (mem_of_lookup present)) _).mpr ⟨present, short⟩
      have less := depth_lt_of_lookup present
      exact ih there (proper.entry present) (by omega)
    rw [mem_walk_succ_iff_lookup found proper]
    constructor
    · intro listed
      obtain ⟨name, child, present, short, here⟩ := listed
      rcases here with ⟨⟨content, rfl⟩, rfl⟩ | ⟨⟨entries', rfl⟩, here⟩
      · exact ⟨[name], content, by simp [inside?, present], rfl, short⟩
      · obtain ⟨more, content, there, rfl, size⟩ := (deeper present short).mp here
        exact ⟨name :: more, content, by simpa [inside?, present] using there, rfl, size⟩
    · intro inside
      obtain ⟨names, content, there, rfl, size⟩ := inside
      obtain ⟨name, more, child, rfl, present, there⟩ := inside_directory_eq_some_iff.mp there
      have short := Nat.le_trans (size_le_size_joinAll (join path name) more) size
      refine ⟨name, child, present, short, ?_⟩
      cases child with
      | file content' =>
        obtain ⟨rfl, -⟩ := inside_file_eq_some_iff.mp there
        exact .inl ⟨⟨content', rfl⟩, rfl⟩
      | device content' => cases more <;> cases there
      | directory entries' =>
        exact .inr ⟨⟨entries', rfl⟩,
          (deeper present short).mpr ⟨more, content, there, rfl, size⟩⟩

/-- A walk from a directory finds exactly the files inside it whose paths are short enough. -/
theorem mem_walk_iff {tree : FileTree} (proper : tree.Proper) {stdin : ByteArray} {path q : String}
    {entries : List (String × FileTree)} (found : tree.find path = .ok (directory entries)) :
    q ∈ ((tree.disk stdin).walk (tree.disk stdin).depth path).run ↔
      ∃ names content, (directory entries).inside? names = some (file content) ∧
        q = joinAll path names ∧ q.utf8ByteSize ≤ pathLimit :=
  mem_walk_iff_of_depth_le found (proper.find found) (depth_le_of_find found)

end FileTree

/-! ## Places -/

namespace Path

/-- The parts of a path without the full stops that stand for the directory itself. -/
def place (path : String) : List String := (parts path).filter (· ≠ ".")

theorem filter_isName_undotted (segments : List String) :
    (segments.filter isName).filter (· ≠ ".") = segments.filter isName := by
  rw [List.filter_filter]
  refine List.filter_congr fun segment member => ?_
  simp [isName]

/-- A full stop stands at most at the front of the parts. -/
theorem parts_cases (path : String) :
    parts path = place path ∨ parts path = "." :: place path := by
  have shape : parts path = [] ∨
      ∃ (first : String) (more : List String), parts path = first :: more.filter isName := by
    unfold parts
    split
    · exact .inl rfl
    · split
      · exact .inl rfl
      · split <;> exact .inr ⟨_, _, rfl⟩
  rcases shape with none | ⟨first, more, some⟩
  · simp [place, none]
  · rw [place, some]
    by_cases dot : first = "."
    · rw [dot, List.filter_cons_of_neg (by simp), filter_isName_undotted]
      exact .inr rfl
    · rw [List.filter_cons_of_pos (by simpa using dot), filter_isName_undotted]
      exact .inl rfl

/-- Two paths to one place are the same up to their spelling, unless one of them has a full stop at
its front. -/
theorem place_eq_iff {p q : String} :
    place p = place q ↔
      parts p = parts q ∨ parts p = "." :: parts q ∨ parts q = "." :: parts p := by
  constructor
  · intro same
    rcases parts_cases p with plain | dotted <;> rcases parts_cases q with plain' | dotted'
    · exact .inl (by rw [plain, plain', same])
    · exact .inr (.inr (by rw [plain, dotted', same]))
    · exact .inr (.inl (by rw [dotted, plain', same]))
    · exact .inl (by rw [dotted, dotted', same])
  · intro spelled
    rcases spelled with same | dotted | dotted
    · rw [place, place, same]
    · rw [place, place, dotted, List.filter_cons_of_neg (by simp)]
    · rw [place, place, dotted, List.filter_cons_of_neg (by simp)]

theorem notMem_of_mem_segments {cs segment : List Char} (member : segment ∈ segments cs) :
    '/' ∉ segment := by
  induction cs generalizing segment with
  | nil =>
    rw [segments, List.mem_singleton] at member
    simp [member]
  | cons c cs ih =>
    by_cases slash : c = '/'
    · simp only [segments, slash, ↓reduceIte, List.mem_cons] at member
      rcases member with rfl | member
      · exact List.not_mem_nil
      · exact ih member
    · simp only [segments, slash, ↓reduceIte] at member
      cases heads : segments cs with
      | nil => exact absurd heads (segments_ne_nil cs)
      | cons head more =>
        rw [heads] at member ih
        rcases List.mem_cons.mp member with rfl | member
        · exact List.not_mem_cons_of_ne_of_not_mem (Ne.symm slash) (ih (.head _))
        · exact ih (.tail _ member)

/-- The place of a path is made of the segments that name something, after the mark of the root. -/
theorem place_eq {path : String} (nonempty : path ≠ "") :
    place path =
      if path.toList.head? = some '/' then "/" :: (split path).filter isName
      else (split path).filter isName := by
  cases chars : path.toList with
  | nil => exact absurd (String.toList_eq_nil_iff.mp chars) nonempty
  | cons c cs =>
    by_cases slash : c = '/'
    · have start : split path = "" :: (segments cs).map String.ofList := by
        rw [split, chars, slash]
        rfl
      have parted : parts path = "/" :: ((segments cs).map String.ofList).filter isName := by
        simp only [parts, start, nonempty, ↓reduceIte]
      rw [place, parted, start, List.filter_cons_of_pos (by decide), filter_isName_undotted,
        List.filter_cons_of_neg (by decide), slash]
      rfl
    · obtain ⟨head, more, start⟩ : ∃ head more, split path = String.ofList (c :: head) :: more := by
        rw [split, chars, segments, if_neg slash]
        cases segments cs with
        | nil => exact ⟨[], [], rfl⟩
        | cons segment more => exact ⟨segment, more.map String.ofList, rfl⟩
      have some : String.ofList (c :: head) ≠ "" := by simp
      have parted : parts path = String.ofList (c :: head) :: more.filter isName := by
        simp only [parts, start, nonempty, some, ↓reduceIte]
      have relative : (c :: cs).head? ≠ Option.some '/' := by simpa using slash
      rw [place, parted, start, if_neg relative, List.filter_cons, List.filter_cons,
        filter_isName_undotted]
      simp [isName]

end Path

namespace FileTree

open Gloss.Path

/-- Paths to one place lead to one file. -/
theorem find_eq_of_place_eq {tree a b : FileTree} {p q : String} (first : tree.find p = .ok a)
    (second : tree.find q = .ok b) (same : place p = place q) : a = b := by
  have lookable := lookable_of_find first
  have lookable' := lookable_of_find second
  rw [find_eq_follow lookable] at first
  rw [find_eq_follow lookable'] at second
  have first := follow_filter_isName first
  have second := follow_filter_isName second
  have unrooted (path : String) : "/" ∉ (split path).filter isName := by
    intro member
    obtain ⟨segment, listed, spelled⟩ := List.mem_map.mp (List.mem_filter.mp member).1
    have chars : segment = ['/'] := by simpa using congrArg String.toList spelled
    exact notMem_of_mem_segments listed (chars ▸ .head _)
  rw [place_eq lookable.some, place_eq lookable'.some] at same
  unfold origin at first second
  split at same <;> split at same
  · next root root' =>
    rw [if_pos root] at first
    rw [if_pos root', ← (List.cons.inj same).2, first] at second
    exact Except.ok.inj second
  · exact absurd (same ▸ .head _) (unrooted q)
  · exact absurd (same ▸ .head _) (unrooted p)
  · next root root' =>
    rw [if_neg root] at first
    rw [if_neg root', ← same, first] at second
    exact Except.ok.inj second

end FileTree

end Gloss

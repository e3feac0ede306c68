import Gloss.Proofs.Slots

/-!
# Lists of names

A list in braces is a row of slots, each with the separator after it. A slot is free, or it has a
name that may have an alias. `NameList.read` finds the specifiers of all slots
(`NameList.read_rows`), and `NameList.slots` the annotations of the free ones
(`NameList.slots_rows`), whatever slots come before or after. With annotations anywhere in the list
the same rows are the seats of its host tokens (`ListSlot.seatFrom_flatMap_tokens`).
-/

namespace Gloss

open Token (Seated)

namespace Token

/-- The host tokens of a slot: none, a name, or a name with an alias. -/
def fillSlot : List Token → Bool
  | [] => true
  | [name] => name.isName
  | [name, joint, other] => name.isName && joint.text == "as" && other.isName
  | _ => false

/-- The name that a slot lists: the alias, if there is one. -/
def listedName? : List Token → Option String
  | [name] => some name.text
  | [_, _, other] => some other.text
  | _ => none

end Token

namespace NameList

/-- The host tokens of a slot and the separator after it. -/
structure Row : Type where
  names : List Seated
  stop : Seated

namespace Row

def tokens (r : Row) : List Seated := r.names ++ [r.stop]

/-- The slot is well formed and ends at a comma or at the brace. -/
structure Proper (r : Row) : Prop where
  names : Token.fillSlot (r.names.map (·.toToken)) = true
  stop : r.stop.isPunct "," = true ∨ r.stop.isPunct "\x7d" = true

/-- What the slot lists. -/
def specifiers (r : Row) : List Specifier :=
  match r.names with
  | [name] => [.single name]
  | [name, _, other] => [⟨name.index, other.index, other.text⟩]
  | _ => []

/-- The annotations of a slot without a name. -/
def free (r : Row) : List Nat := if r.names = [] then r.stop.noteIndices else []

/-- A well-formed slot is free, has a name, or has a name with an alias. -/
theorem Proper.cases {r : Row} (proper : r.Proper) :
    r.names = [] ∨ (∃ name, r.names = [name] ∧ name.isName = true) ∨
      ∃ name joint other, r.names = [name, joint, other] ∧ name.isName = true ∧
        joint.text = "as" ∧ other.isName = true := by
  obtain ⟨names, stop⟩ := r
  obtain ⟨fill, -⟩ := proper
  dsimp only at fill ⊢
  match names, fill with
  | [], _ => exact .inl rfl
  | [name], fill => exact .inr (.inl ⟨name, rfl, fill⟩)
  | [name, joint, other], fill =>
    simp only [List.map_cons, List.map_nil, Token.fillSlot, Bool.and_eq_true, beq_iff_eq] at fill
    exact .inr (.inr ⟨name, joint, other, rfl, fill.1.1, fill.1.2, fill.2⟩)
  | _ :: _ :: [], fill => cases fill
  | _ :: _ :: _ :: _ :: _, fill => cases fill

end Row

/-! ## Reading slots -/

/-- A name that modifies no other one starts a specifier. -/
theorem read_name {t : Seated} (name : t.isName = true) {us : List Seated}
    (plain : isTypeModifier t us = false) (position : Nat) :
    read position (t :: us) =
      match alias? us with
      | some other =>
        ((read (position + 3) (us.drop 2)).1,
          ⟨t.index, other.index, other.text⟩ :: (read (position + 3) (us.drop 2)).2)
      | none => ((read (position + 1) us).1, .single t :: (read (position + 1) us).2) := by
  have punct (text : String) : t.isPunct text = false :=
    Token.isPunct_eq_false (Token.ne_punct_of_isName name) text
  rw [read, punct, punct, name, plain]
  rfl

/-- A token that is no separator neither opens nor closes a slot. -/
theorem slots_cons_cons (position : Nat) (before after : Seated) (rest : List Seated) :
    slots (position + 1) (before :: after :: rest) =
      (if opensSlot before && closesSlot after then after.noteIndices else []) ++
        slots position (after :: rest) := by
  rw [slots]
  split <;> rfl

theorem text_of_stop {r : Row} (proper : r.Proper) : r.stop.text = "," ∨ r.stop.text = "\x7d" := by
  rcases proper.stop with stop | stop <;>
    simp only [Token.isPunct, Bool.and_eq_true, beq_iff_eq] at stop
  · exact .inl stop.2
  · exact .inr stop.2

section Row

variable {r : Row} (proper : r.Proper) (rest : List Seated)
include proper

/-- A separator is no joint of an alias. -/
theorem alias?_of_stop : alias? (r.stop :: rest) = none := by
  unfold alias?
  split
  · next joint name more same =>
    obtain ⟨rfl, -⟩ := List.cons.inj same
    refine if_neg fun both => ?_
    rcases text_of_stop proper with text | text <;>
      · rw [text] at both
        exact absurd both.1 (by decide)
  · rfl

theorem isTypeModifier_of_stop (t : Seated) : isTypeModifier t (r.stop :: rest) = false := by
  have none_ : r.stop.isName = false := by
    rcases proper.stop with stop | stop <;>
      rw [Token.isName, Token.kind_of_isPunct stop]
  rw [isTypeModifier, List.head?_cons, Option.any_some, none_, Bool.false_and, Bool.and_false]

/-- Up to its separator, a slot is read as what it lists. -/
theorem read_row (position : Nat) :
    read position (r.tokens ++ rest) =
      ((read (position + r.names.length) (r.stop :: rest)).1,
        r.specifiers ++ (read (position + r.names.length) (r.stop :: rest)).2) := by
  rcases proper.cases with none_ | ⟨name, names, named⟩ |
    ⟨name, joint, other, names, named, text, named'⟩
  · simp [Row.tokens, Row.specifiers, none_]
  · have plain := isTypeModifier_of_stop proper rest name
    have none_ := alias?_of_stop proper rest
    simp [Row.tokens, Row.specifiers, names, read_name named plain, none_]
  · have plain : isTypeModifier name (joint :: other :: r.stop :: rest) = false := by
      simp [isTypeModifier, text]
    have found : alias? (joint :: other :: r.stop :: rest) = some other := if_pos ⟨text, named'⟩
    simp [Row.tokens, Row.specifiers, names, read_name named plain, found]

/-- After a separator a slot is free when the next separator follows. -/
theorem slots_row {before : Seated} (opens : opensSlot before = true) (position : Nat) :
    slots (position + r.tokens.length) (before :: (r.tokens ++ rest)) =
      r.free ++ slots position (r.stop :: rest) := by
  have closes : closesSlot r.stop = true := by
    rw [closesSlot]
    rcases proper.stop with stop | stop <;> simp [stop]
  have inner {t : Seated} (name : t.isName = true) :
      opensSlot t = false ∧ closesSlot t = false := by
    have punct := Token.ne_punct_of_isName name
    simp [opensSlot, closesSlot, Token.isPunct_eq_false punct]
  rcases proper.cases with none_ | ⟨name, names, named⟩ |
    ⟨name, joint, other, names, named, text, named'⟩
  · simp [Row.free, Row.tokens, none_, slots_cons_cons, opens, closes]
  · simp [Row.free, Row.tokens, names, slots_cons_cons, inner named]
  · have apart : opensSlot joint = false ∧ closesSlot joint = false := by
      simp [opensSlot, closesSlot, Token.isPunct, text]
    simp [Row.free, Row.tokens, names, slots_cons_cons, inner named, inner named', apart]

end Row

/-! ## Reading lists -/

section Rows

variable (rest : List Seated) {more : List Row} {last : Row}
  (proper : ∀ r ∈ more ++ [last], r.Proper) (commas : ∀ r ∈ more, r.stop.isPunct "," = true)
include proper commas

/-- A list is read up to its brace, slot by slot. -/
theorem read_rows (brace : last.stop.isPunct "\x7d" = true) (position : Nat) :
    read position ((more ++ [last]).flatMap Row.tokens ++ rest) =
      (some (position + (more.flatMap Row.tokens).length + last.names.length),
        (more ++ [last]).flatMap Row.specifiers) := by
  induction more generalizing position with
  | nil =>
    have first := proper last (by simp)
    have close (position : Nat) : read position (last.stop :: rest) = (some position, []) := by
      rw [read, if_pos brace]
    simp [read_row first, close]
  | cons r more ih =>
    have first := proper r (by simp)
    obtain ⟨comma, commas⟩ := List.forall_mem_cons.mp commas
    have onward (position : Nat) (us : List Seated) :
        read position (r.stop :: us) = read (position + 1) us := by
      have none_ : r.stop.isPunct "\x7d" = false := by
        rw [Token.isPunct_eq_beq comma]
        rfl
      rw [read, none_, comma]
      rfl
    have later := ih (fun r held => proper r (.tail _ held)) commas (position + r.names.length + 1)
    rw [List.cons_append, List.flatMap_cons, List.append_assoc, read_row first, onward, later,
      List.flatMap_cons, List.flatMap_cons, List.length_append, Row.tokens, List.length_append,
      List.length_singleton]
    exact Prod.ext (congrArg some (by omega)) rfl

/-- The annotations of the free slots are in slots. -/
theorem slots_rows {before : Seated} (opens : opensSlot before = true) :
    slots ((more ++ [last]).flatMap Row.tokens).length
        (before :: ((more ++ [last]).flatMap Row.tokens ++ rest)) =
      (more ++ [last]).flatMap Row.free := by
  induction more generalizing before with
  | nil =>
    have first := slots_row (proper last (by simp)) rest opens 0
    simpa [slots] using first
  | cons r more ih =>
    obtain ⟨comma, commas⟩ := List.forall_mem_cons.mp commas
    have next : opensSlot r.stop = true := by rw [opensSlot, comma, Bool.or_true]
    have later := ih (fun r held => proper r (.tail _ held)) commas next
    rw [List.cons_append, List.flatMap_cons, List.append_assoc, List.length_append, Nat.add_comm,
      slots_row (proper r (by simp)) _ opens, later, List.flatMap_cons]

end Rows

end NameList

/-! ## The rows of a list in a file -/

namespace Token

/-- The annotations at the end of some tokens, when these come after others. -/
def pending (notes : List Token) : List Token → List Token
  | [] => notes
  | t :: ts => if t.isNote then pending (notes ++ [t]) ts else pending [] ts

theorem seatFrom_append_pending (index : Nat) (notes us vs : List Token) :
    seatFrom index notes (us ++ vs) =
      seatFrom index notes us ++ seatFrom (index + us.length) (pending notes us) vs := by
  induction us generalizing index notes with
  | nil => rfl
  | cons t us ih =>
    rw [List.cons_append, seatFrom, seatFrom, pending, List.length_cons, Nat.add_comm us.length,
      ← Nat.add_assoc]
    split
    · rw [ih]
    · rw [ih, List.cons_append]

theorem length_pending (notes us : List Token) :
    (pending notes us).length ≤ notes.length + us.length := by
  induction us generalizing notes with
  | nil => exact Nat.le_refl _
  | cons t us ih =>
    rw [pending, List.length_cons]
    split
    · have later := ih (notes ++ [t])
      rw [List.length_append, List.length_singleton] at later
      omega
    · have later := ih []
      rw [List.length_nil] at later
      omega

/-- The next host token has the annotation among its own. -/
theorem exists_mem_noteIndices (index k : Nat) (notes us : List Token) {stop : Token}
    (host : stop.isNote = false) (low : index ≤ k + notes.length) (high : k < index)
    (fits : notes.length ≤ index) :
    ∃ v ∈ seatFrom index notes (us ++ [stop]), k ∈ v.noteIndices := by
  induction us generalizing index notes with
  | nil =>
    refine ⟨⟨stop, index, notes⟩, by simp [seatFrom, host], List.mem_range'_1.mpr ?_⟩
    dsimp only
    omega
  | cons t us ih =>
    have length : (notes ++ [t]).length = notes.length + 1 := List.length_append
    rw [List.cons_append, seatFrom]
    split
    · exact ih _ _ (by omega) (by omega) (by omega)
    · refine ⟨_, .head _, List.mem_range'_1.mpr ?_⟩
      dsimp only
      omega

/-- Annotations have no seats of their own. -/
theorem seatFrom_of_notes {between : List Token} (all : ∀ t ∈ between, t.isNote = true)
    (index : Nat) (notes us : List Token) :
    seatFrom index notes (between ++ us) =
      seatFrom (index + between.length) (notes ++ between) us := by
  induction between generalizing index notes with
  | nil => rw [List.nil_append, List.append_nil, List.length_nil, Nat.add_zero]
  | cons t between ih =>
    obtain ⟨note, all⟩ := List.forall_mem_cons.mp all
    rw [List.cons_append, seatFrom, if_pos note, ih all, List.length_cons, List.append_assoc,
      List.singleton_append, Nat.add_assoc, Nat.add_comm 1]

end Token

/-- What stands in a slot of a list, annotations included, and the separator after it. -/
structure ListSlot : Type where
  inside : List Token
  stop : Token

namespace ListSlot

def tokens (x : ListSlot) : List Token := x.inside ++ [x.stop]

/-- The host tokens in the slot. -/
def names (x : ListSlot) : List Token := x.inside.filter (!·.isNote)

/-- The seats of a slot that starts at an index. -/
def row (index : Nat) (x : ListSlot) : NameList.Row :=
  ⟨Token.seatFrom index [] x.inside,
    ⟨x.stop, index + x.inside.length, Token.pending [] x.inside⟩⟩

/-- The seats of slots one after the other. -/
def rows (index : Nat) : List ListSlot → List NameList.Row
  | [] => []
  | x :: xs => x.row index :: rows (index + x.tokens.length) xs

theorem rows_append (index : Nat) (xs ys : List ListSlot) :
    rows index (xs ++ ys) = rows index xs ++ rows (index + (xs.flatMap tokens).length) ys := by
  induction xs generalizing index with
  | nil => rfl
  | cons x xs ih =>
    rw [List.cons_append, rows, rows, ih, List.flatMap_cons, List.length_append, Nat.add_assoc,
      List.cons_append]

theorem exists_of_mem_rows {index : Nat} {xs : List ListSlot} {r : NameList.Row}
    (held : r ∈ rows index xs) : ∃ x ∈ xs, ∃ start, r = x.row start := by
  induction xs generalizing index with
  | nil => cases held
  | cons x xs ih =>
    rcases List.mem_cons.mp held with rfl | held
    · exact ⟨x, .head _, index, rfl⟩
    · obtain ⟨y, member, here⟩ := ih held
      exact ⟨y, .tail _ member, here⟩

theorem map_names_row (index : Nat) (x : ListSlot) :
    (x.row index).names.map (·.toToken) = x.names := Token.map_seatFrom index [] x.inside

theorem seatFrom_tokens (index : Nat) {x : ListSlot} (host : x.stop.isNote = false)
    (rest : List Token) :
    Token.seatFrom index [] (x.tokens ++ rest) =
      (x.row index).tokens ++ Token.seatFrom (index + x.tokens.length) [] rest := by
  rw [tokens, List.append_assoc, Token.seatFrom_append_pending, List.singleton_append,
    Token.seatFrom_cons_host host, NameList.Row.tokens, List.append_assoc, List.length_append,
    List.length_singleton, Nat.add_assoc]
  rfl

theorem tokens_row (index : Nat) {x : ListSlot} (host : x.stop.isNote = false) :
    (x.row index).tokens = Token.seatFrom index [] x.tokens := by
  simpa [Token.seatFrom] using (seatFrom_tokens index host []).symm

/-- An annotation in a slot is one of a token of the slot. -/
theorem exists_mem_row (index : Nat) {x : ListSlot} (host : x.stop.isNote = false)
    {xs ys : List Token} {t : Token} (inside : x.inside = xs ++ t :: ys) (note : t.isNote = true) :
    ∃ v ∈ (x.row index).tokens, index + xs.length ∈ v.noteIndices := by
  have bound := Token.length_pending [] xs
  rw [List.length_nil, Nat.zero_add] at bound
  have length : (Token.pending [] xs ++ [t]).length = (Token.pending [] xs).length + 1 :=
    List.length_append
  obtain ⟨v, held, here⟩ := Token.exists_mem_noteIndices (index + xs.length + 1) (index + xs.length)
    (Token.pending [] xs ++ [t]) ys host (by omega) (by omega) (by omega)
  refine ⟨v, ?_, here⟩
  rw [tokens_row index host, tokens, inside, List.append_assoc, Token.seatFrom_append_pending,
    List.cons_append, Token.seatFrom, if_pos note]
  exact List.mem_append_right _ held

theorem head?_names_row (index : Nat) {x : ListSlot} {xs ys : List Token} {t : Token}
    (inside : x.inside = xs ++ t :: ys) (notes : ∀ u ∈ xs, u.isNote = true)
    (host : t.isNote = false) :
    (x.row index).names.head? = some ⟨t, index + xs.length, xs⟩ := by
  rw [row, inside, Token.seatFrom_of_notes notes, Token.seatFrom_cons_host host]
  rfl

theorem getLast?_names_row (index : Nat) {x : ListSlot} {xs ys : List Token} {t : Token}
    (inside : x.inside = xs ++ t :: ys) (notes : ∀ u ∈ ys, u.isNote = true)
    (host : t.isNote = false) :
    (x.row index).names.getLast? = some ⟨t, index + xs.length, Token.pending [] xs⟩ := by
  have none_ (index : Nat) : Token.seatFrom index [] ys = [] := by
    rw [← List.append_nil ys, Token.seatFrom_of_notes notes, Token.seatFrom]
  rw [row, inside, Token.seatFrom_append_pending, Token.seatFrom_cons_host host, none_,
    List.getLast?_concat]

/-- The host tokens of slots have the seats of their rows. -/
theorem seatFrom_flatMap_tokens (index : Nat) {xs : List ListSlot}
    (host : ∀ x ∈ xs, x.stop.isNote = false) (rest : List Token) :
    Token.seatFrom index [] (xs.flatMap tokens ++ rest) =
      (rows index xs).flatMap NameList.Row.tokens ++
        Token.seatFrom (index + (xs.flatMap tokens).length) [] rest := by
  induction xs generalizing index with
  | nil => rfl
  | cons x xs ih =>
    obtain ⟨first, others⟩ := List.forall_mem_cons.mp host
    rw [List.flatMap_cons, List.append_assoc, seatFrom_tokens index first, ih _ others, rows,
      List.flatMap_cons, List.append_assoc, List.length_append, Nat.add_assoc]

end ListSlot

end Gloss

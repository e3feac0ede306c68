import Gloss.Proofs.Relabelling

/-!
# The walk without annotations

`Token.hostOnly` takes the annotations out of a list of tokens and leaves their
line feeds to the next host token. The walk reads host tokens by their kind,
their text, their offset and whether a line ends before them, so to seat them in
the shorter list is a relabelling (`Relabelling.alone`). Only the indices of what is
placed change, and the slots go with the annotations
(`Outline.placements_hostOnly`).
-/

namespace Gloss

open Token (Seated)

namespace Token

/-- The host tokens alone, with the line feeds that are pending for the first of them. -/
def dropNotes (pending : Nat) : List Token → List Token
  | [] => []
  | t :: ts =>
    if t.isNote then dropNotes (pending + t.newlinesBefore) ts
    else { t with newlinesBefore := pending + t.newlinesBefore } :: dropNotes 0 ts

/-- The host tokens of a list, each with the line feeds since the host token before it. -/
def hostOnly (ts : List Token) : List Token := dropNotes 0 ts

/-- The number of a token among the host tokens. -/
def hostsBefore (ts : List Token) (index : Nat) : Nat :=
  (ts.take index).countP fun t => !t.isNote

/-- The line feeds before all of some tokens. -/
def lineFeeds : List Token → Nat
  | [] => 0
  | t :: ts => t.newlinesBefore + lineFeeds ts

theorem lineFeeds_append (ts us : List Token) :
    lineFeeds (ts ++ us) = lineFeeds ts + lineFeeds us := by
  induction ts with
  | nil => simp [lineFeeds]
  | cons t ts ih => simp [lineFeeds, ih, Nat.add_assoc]

theorem lineFeeds_pos_iff {ts : List Token} :
    0 < lineFeeds ts ↔ (ts.any fun t => 0 < t.newlinesBefore) = true := by
  induction ts with
  | nil => simp [lineFeeds]
  | cons t ts ih =>
    rw [lineFeeds, List.any_cons, Bool.or_eq_true, ← ih, decide_eq_true_eq]
    omega

namespace Seated

variable (number : Nat → Nat)

/-- The token in the list without annotations: nothing stands before it but the line feeds that
were there, and its index is the new one. -/
def alone (t : Seated) : Seated where
  toToken := { t.toToken with newlinesBefore := lineFeeds t.notes + t.newlinesBefore }
  index := number t.index
  notes := []

theorem breaksLine_alone (t : Seated) : (t.alone number).breaksLine = t.breaksLine := by
  have total : 0 < lineFeeds t.notes + t.newlinesBefore ↔
      0 < t.newlinesBefore ∨ 0 < lineFeeds t.notes := by omega
  rw [lineFeeds_pos_iff] at total
  calc (t.alone number).breaksLine = decide (0 < lineFeeds t.notes + t.newlinesBefore) :=
        Bool.or_false _
    _ = t.breaksLine := by rw [Bool.eq_iff_iff]; simpa [breaksLine] using total

end Seated

/-- To take the annotations out and to seat what is left is to seat every host token alone. The
numbers are those of the whole list, so the induction carries how many host tokens came before. -/
theorem seatFrom_dropNotes {number : Nat → Nat} (ts notes : List Token) (index n : Nat)
    (counts : ∀ j, number (index + j) = n + (ts.take j).countP fun t => !t.isNote) :
    seatFrom n [] (dropNotes (lineFeeds notes) ts) =
      (seatFrom index notes ts).map (·.alone number) := by
  induction ts generalizing notes index n with
  | nil => rfl
  | cons t ts ih =>
    rw [dropNotes, seatFrom]
    by_cases note : t.isNote = true
    · have pending : lineFeeds notes + t.newlinesBefore = lineFeeds (notes ++ [t]) := by
        simp [lineFeeds_append, lineFeeds]
      rw [if_pos note, if_pos note, pending]
      refine ih _ _ _ fun j => ?_
      have next := counts (j + 1)
      rw [List.take_succ_cons, List.countP_cons_of_neg (by simp [note])] at next
      rw [← next, Nat.add_assoc, Nat.add_comm 1]
    · have here : number index = n := by simpa using counts 0
      have host : ({ t with newlinesBefore := lineFeeds notes + t.newlinesBefore } : Token).isNote =
          false := by
        simpa [isNote] using note
      rw [if_neg note, if_neg note, seatFrom, if_neg (by rw [host]; simp), List.map_cons]
      have rest := ih [] (index + 1) (n + 1) fun j => by
        have next := counts (j + 1)
        rw [List.take_succ_cons, List.countP_cons_of_pos (by simp [note])] at next
        rw [Nat.add_assoc, Nat.add_comm 1, next]
        omega
      rw [lineFeeds] at rest
      rw [rest]
      simp [Seated.alone, here]

theorem hosts_hostOnly (ts : List Token) :
    hosts (hostOnly ts) = (hosts ts).map (·.alone (hostsBefore ts)) :=
  seatFrom_dropNotes ts [] 0 0 fun j => by simp [hostsBefore]

end Token

variable (number : Nat → Nat)

/-- What becomes of a placement: a site follows its host token, and a slot is gone. -/
def Placement.alone : Placement → Option Placement
  | leading index site => some (.leading (number index) site)
  | trailing index site => some (.trailing (number index) site)
  | slot _ _ => none

namespace Relabelling

/-- Without annotations all names stay, host tokens have the new indices, and there is no index for
an annotation. -/
def alone : Relabelling where
  seat := Seated.alone number
  text s := s
  name n := n
  host := number
  note _ := none
  kind_seat _ := rfl
  text_seat _ := rfl
  index_seat _ := rfl
  breaksLine_seat := Seated.breaksLine_alone number
  noteIndices_seat _ := (List.filterMap_eq_nil_iff.mpr fun _ _ => rfl).symm
  text_eq_iff _ := Iff.rfl
  unquote_text _ := rfl
  name_anonymous _ := rfl
  name_member _ _ := rfl

theorem site_alone (site : Site) : (alone number).site site = site := by cases site <;> rfl

theorem placement_alone : (alone number).placement = Placement.alone number := by
  funext p
  cases p with
  | leading index site | trailing index site => simp only [placement, site_alone]; rfl
  | slot => rfl

end Relabelling

namespace Outline

theorem walk_alone (ts : List Seated) :
    (walk .initial 0 none (ts.map (·.alone number))).flatMap (·.stride.placements) =
      ((walk .initial 0 none ts).flatMap (·.stride.placements)).filterMap (·.alone number) := by
  have same := (Relabelling.alone number).placements_walk .initial 0 none ts fun _ _ _ => rfl
  rwa [Relabelling.placement_alone] at same

/-- The outline without the annotations places the same sites, by the new indices of the host
tokens. -/
theorem placements_hostOnly (ts : List Token) :
    (ofTokens (Token.hostOnly ts)).placements =
      (ofTokens ts).placements.filterMap (·.alone (Token.hostsBefore ts)) := by
  simp only [ofTokens, steps, Token.hosts_hostOnly]
  exact walk_alone _ (Token.hosts ts)

end Outline

end Gloss

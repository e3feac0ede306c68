/-!
# Byte spans of a text

Offsets count the bytes of a text's UTF-8 form, so a character occupies
`Char.utf8Size` of them. A `Span` is a half-open range of offsets and
`Span.slice?` is the text that it covers, which exists only when both ends lie
on character boundaries of the text.
-/

namespace Gloss

namespace Text

/-- The number of bytes that a list of characters occupies. -/
def width : List Char → Nat
  | [] => 0
  | c :: cs => c.utf8Size + width cs

@[simp] theorem width_nil : width [] = 0 := rfl

@[simp] theorem width_cons (c : Char) (cs : List Char) :
    width (c :: cs) = c.utf8Size + width cs := rfl

@[simp] theorem width_append (cs ds : List Char) : width (cs ++ ds) = width cs + width ds := by
  induction cs with
  | nil => simp
  | cons c cs ih => simp [ih, Nat.add_assoc]

theorem length_le_width (cs : List Char) : cs.length ≤ width cs := by
  induction cs with
  | nil => simp
  | cons c cs ih =>
    have := c.utf8Size_pos
    simp only [width_cons, List.length_cons]
    omega

/-- Cuts a text after the given number of bytes, at a character boundary. -/
def splitBytes? : Nat → List Char → Option (List Char × List Char)
  | 0, cs => some ([], cs)
  | _ + 1, [] => none
  | n + 1, c :: cs =>
    if c.utf8Size ≤ n + 1 then
      (splitBytes? (n + 1 - c.utf8Size) cs).map fun parts => (c :: parts.1, parts.2)
    else none

@[simp] theorem splitBytes?_zero (cs : List Char) : splitBytes? 0 cs = some ([], cs) := by
  cases cs <;> rfl

/-- A text can be cut after each of its initial parts. -/
theorem splitBytes?_width_append (cs ds : List Char) :
    splitBytes? (width cs) (cs ++ ds) = some (cs, ds) := by
  induction cs with
  | nil => simp
  | cons c cs ih =>
    have pos := c.utf8Size_pos
    obtain ⟨n, size⟩ : ∃ n, c.utf8Size = n + 1 := ⟨c.utf8Size - 1, by omega⟩
    have total : width (c :: cs) = (n + width cs) + 1 := by simp [size]; omega
    rw [total, List.cons_append, splitBytes?]
    have rest : n + width cs + 1 - c.utf8Size = width cs := by omega
    simp [rest, ih, show c.utf8Size ≤ n + width cs + 1 by omega]

/-- The two parts of a cut make up the text, and the first has the asked width. -/
theorem splitBytes?_eq_some {n : Nat} {cs before after : List Char}
    (h : splitBytes? n cs = some (before, after)) :
    cs = before ++ after ∧ width before = n := by
  induction cs generalizing n before with
  | nil =>
    cases n with
    | zero => simp_all [splitBytes?]
    | succ n => simp [splitBytes?] at h
  | cons c cs ih =>
    cases n with
    | zero => simp_all [splitBytes?]
    | succ n =>
      rw [splitBytes?] at h
      split at h
      · next fits =>
        obtain ⟨⟨before', after'⟩, cut, eq⟩ := Option.map_eq_some_iff.1 h
        obtain ⟨rfl, rfl⟩ := Prod.mk.inj eq
        obtain ⟨split, size⟩ := ih cut
        refine ⟨by simp [split], ?_⟩
        simp only [width_cons, size]
        omega
      · cases h

/-- The text between two offsets, when both are character boundaries in order. -/
def slice? (source : List Char) (start stop : Nat) : Option (List Char) :=
  if start ≤ stop then
    (splitBytes? start source).bind fun parts =>
      (splitBytes? (stop - start) parts.2).map (·.1)
  else none

/-- The middle of three parts is the slice between the offsets of its ends. -/
theorem slice?_append (before middle after : List Char) :
    slice? (before ++ middle ++ after) (width before) (width before + width middle) =
      some middle := by
  simp [slice?, splitBytes?_width_append]

end Text

/-- A half-open range of byte offsets. -/
structure Span : Type where
  start : Nat
  stop : Nat
deriving DecidableEq, Repr

namespace Span

/-- The number of bytes covered. -/
def length (s : Span) : Nat := s.stop - s.start

/-- A span without bytes. -/
def isEmpty (s : Span) : Bool := s.start == s.stop

/-- An offset is inside when it is not before the start and before the stop. -/
def contains (s : Span) (offset : Nat) : Bool := s.start ≤ offset && offset < s.stop

/-- Two spans overlap when each starts before the other stops. -/
def overlaps (s t : Span) : Bool := s.start < t.stop && t.start < s.stop

/-- Spans are ordered by start, then by stop. -/
def order (s t : Span) : Ordering := (compare s.start t.start).then (compare s.stop t.stop)

/-- The earlier span, or the shorter of two with one start. -/
def le (s t : Span) : Bool := s.start < t.start || (s.start == t.start && s.stop ≤ t.stop)

/-- The text covered by a span, when its ends are character boundaries in order. -/
def slice? (s : Span) (source : String) : Option String :=
  (Text.slice? source.toList s.start s.stop).map String.ofList

theorem overlaps_comm (s t : Span) : s.overlaps t = t.overlaps s := by
  simp [overlaps, Bool.and_comm]

end Span

end Gloss

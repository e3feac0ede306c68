import Gloss.Proofs.Harmless

/-!
# Reading byte by byte

Literals and regular expressions are found by ASCII characters alone, so they can be
looked for in the bytes of a text as well as in its characters, also where a
backslash hides only the first byte of the character after it. `Text.octets` is a
text byte by byte, each byte as the character with its code. The readers find the
same ends in it (`Literal.extent?_octets`, `Regex.extent?_octets`): where they stop
in the bytes is always a boundary between characters.
-/

namespace Gloss

namespace Text

/-- The bytes of a character, each as the character with its code. -/
def octetsOf (c : Char) : List Char := (String.utf8EncodeChar c).map fun b => Char.ofNat b.toNat

/-- The bytes of a text, each as the character with its code. -/
def octets (cs : List Char) : List Char := cs.flatMap octetsOf

/-- The characters of ASCII. -/
def isAscii (c : Char) : Bool := c.toNat < 128

theorem octets_cons (c : Char) (cs : List Char) : octets (c :: cs) = octetsOf c ++ octets cs := rfl

theorem length_octetsOf (c : Char) : (octetsOf c).length = c.utf8Size := by
  rw [octetsOf, List.length_map, String.length_utf8EncodeChar]

/-- A character of ASCII is its only byte. -/
theorem octetsOf_ascii {c : Char} (ascii : isAscii c = true) : octetsOf c = [c] := by
  have small : c.val.toNat ≤ 127 := Nat.le_of_lt_succ (of_decide_eq_true ascii)
  have code : (UInt8.ofNat c.val.toNat).toNat = c.toNat := by
    rw [UInt8.toNat_ofNat']
    exact Nat.mod_eq_of_lt (Nat.lt_of_le_of_lt small (by decide))
  rw [octetsOf, String.utf8EncodeChar, if_pos small, List.map_singleton, code, Char.ofNat_toNat]

theorem isAscii_ofNat {n : Nat} (large : 128 ≤ n) (byte : n < 256) :
    isAscii (Char.ofNat n) = false := by
  have valid : n.isValidChar := .inl (by omega)
  have code : (Char.ofNat n).toNat = n := by
    rw [Char.ofNat, dif_pos valid]
    rfl
  exact decide_eq_false (by omega)

/-- No byte of any other character is one of ASCII. -/
theorem isAscii_of_mem_octetsOf {c o : Char} (other : isAscii c = false) (held : o ∈ octetsOf c) :
    isAscii o = false := by
  have large : ¬ c.val.toNat ≤ 127 :=
    fun small => of_decide_eq_false other (Nat.lt_succ_of_le small)
  have high {n : Nat} (large : 128 ≤ n) (byte : n < 256) :
      isAscii (Char.ofNat (UInt8.ofNat n).toNat) = false := by
    rw [UInt8.toNat_ofNat', Nat.mod_eq_of_lt byte]
    exact isAscii_ofNat large byte
  obtain ⟨b, byte, rfl⟩ := List.mem_map.mp held
  unfold String.utf8EncodeChar at byte
  rw [if_neg large] at byte
  split at byte
  · simp only [List.mem_cons, List.not_mem_nil, or_false] at byte
    rcases byte with rfl | rfl <;> exact high (by omega) (by omega)
  split at byte
  · simp only [List.mem_cons, List.not_mem_nil, or_false] at byte
    rcases byte with rfl | rfl | rfl <;> exact high (by omega) (by omega)
  · simp only [List.mem_cons, List.not_mem_nil, or_false] at byte
    rcases byte with rfl | rfl | rfl | rfl <;> exact high (by omega) (by omega)

theorem ne_of_isAscii {c : Char} (mark : Char) (other : isAscii c = false)
    (ascii : isAscii mark = true) : c ≠ mark := by
  rintro rfl
  rw [ascii] at other
  cases other

theorem octets_append (cs ds : List Char) : octets (cs ++ ds) = octets cs ++ octets ds :=
  List.flatMap_append

theorem length_octets (cs : List Char) : (octets cs).length = width cs := by
  induction cs with
  | nil => rfl
  | cons c cs ih => rw [octets_cons, List.length_append, length_octetsOf, ih, width_cons]

/-- The bytes after some characters are those of the characters after them. -/
theorem drop_octets (cs : List Char) (n : Nat) :
    (octets cs).drop (width (cs.take n)) = octets (cs.drop n) := by
  have whole : octets cs = octets (cs.take n) ++ octets (cs.drop n) := by
    rw [← octets_append, List.take_append_drop]
  rw [whole, ← length_octets, List.drop_left]

theorem utf8Size_of_isAscii {c : Char} (ascii : isAscii c = true) : c.utf8Size = 1 := by
  rw [← length_octetsOf, octetsOf_ascii ascii, List.length_singleton]

theorem width_of_isAscii {cs : List Char} (ascii : ∀ c ∈ cs, isAscii c = true) :
    width cs = cs.length := by
  induction cs with
  | nil => rfl
  | cons c cs ih =>
    obtain ⟨first, others⟩ := List.forall_mem_cons.mp ascii
    rw [width_cons, utf8Size_of_isAscii first, ih others, List.length_cons, Nat.add_comm]

/-- Only the first byte of a character may be one of ASCII. -/
theorem exists_octetsOf (c : Char) :
    ∃ o more, octetsOf c = o :: more ∧ (isAscii c = false → isAscii o = false) ∧
      ∀ o' ∈ more, isAscii o' = false := by
  obtain ⟨o, more, bytes⟩ : ∃ o more, octetsOf c = o :: more :=
    List.exists_cons_of_length_pos (by rw [length_octetsOf]; exact c.utf8Size_pos)
  refine ⟨o, more, bytes, fun other => isAscii_of_mem_octetsOf other (by rw [bytes]; exact .head _),
    fun o' held => ?_⟩
  cases ascii : isAscii c with
  | true =>
    rw [octetsOf_ascii ascii] at bytes
    obtain ⟨-, rfl⟩ := List.cons.inj bytes
    cases held
  | false => exact isAscii_of_mem_octetsOf ascii (by rw [bytes]; exact .tail _ held)

/-- A character of ASCII is first in the bytes when it is first in the text. -/
theorem head?_octets (mark : Char) (ascii : isAscii mark = true) (cs : List Char) :
    (octets cs).head? = some mark ↔ cs.head? = some mark := by
  cases cs with
  | nil => rfl
  | cons c cs =>
    rw [octets_cons]
    cases own : isAscii c with
    | true => rw [octetsOf_ascii own, List.singleton_append]; rfl
    | false =>
      obtain ⟨o, more, bytes, high, -⟩ := exists_octetsOf c
      rw [bytes, List.cons_append, List.head?_cons, List.head?_cons]
      exact iff_of_false (fun same => ne_of_isAscii mark (high own) ascii (Option.some.inj same))
        fun same => ne_of_isAscii mark own ascii (Option.some.inj same)

end Text

open Text

namespace Host

/-! ## Literals -/

/-- A character outside of ASCII is read and changes no layer. -/
theorem Layer.move_of_not_isAscii {c : Char} (other : isAscii c = false) (l : Layer)
    (proper : l.Proper) (after : Option Char) : l.move c after = .read [l] := by
  have apart (mark : Char) (ascii : isAscii mark = true) : c ≠ mark :=
    ne_of_isAscii mark other ascii
  cases l with
  | quoted quote =>
    have own : c ≠ quote := by
      rintro rfl
      have mark : isQuote c = true := proper
      simp only [isQuote, Bool.or_eq_true, beq_iff_eq] at mark
      rcases mark with (rfl | rfl) | rfl <;> exact absurd other (by decide)
    simp [move, moveQuoted, apart '\\' (by decide), apart '\n' (by decide), own]
  | template =>
    simp [move, moveTemplate, apart '\\' (by decide), apart '\x60' (by decide),
      apart '$' (by decide)]
  | substitution braces =>
    simp [move, moveSubstitution, apart '\x60' (by decide),
      apart '\'' (by decide), apart '"' (by decide),
      apart '{' (by decide), apart '}' (by decide)]

theorem Layer.isAscii_of_move {c : Char} {l : Layer} (proper : l.Proper) {after : Option Char}
    {m : Move} (moves : l.move c after = m) (acts : m ≠ .read [l]) : isAscii c = true := by
  cases ascii : isAscii c with
  | true => rfl
  | false => exact absurd (moves.symm.trans (l.move_of_not_isAscii ascii proper after)) acts

namespace Literal

variable {layers : List Layer} {read : Nat} {os more : List Char}

/-- Characters outside of ASCII are read one by one. -/
theorem close_append_of_not_isAscii (proper : ∀ l ∈ layers, l.Proper) (open_ : layers ≠ [])
    (other : ∀ o ∈ os, isAscii o = false) (more : List Char) :
    close layers read (os ++ more) = close layers (read + os.length) more := by
  obtain ⟨layer, outer, rfl⟩ := List.exists_cons_of_ne_nil open_
  induction os generalizing read with
  | nil => rfl
  | cons o os ih =>
    obtain ⟨first, others⟩ := List.forall_mem_cons.mp other
    have moves := layer.move_of_not_isAscii first (proper layer (.head _)) (os ++ more).head?
    rw [List.cons_append, close, moves]
    show close (layer :: outer) (read + 1) (os ++ more) = _
    rw [ih others, List.length_cons]
    congr 1
    omega

/-- After a character of ASCII the layers are the same in the bytes. -/
theorem close_octets_cons {layer : Layer} {outer : List Layer} {c : Char} {rest : List Char}
    (proper : ∀ l ∈ layer :: outer, l.Proper) (moves : layer.move c rest.head? = .read layers)
    (bytes : Nat) :
    close (layer :: outer) bytes (octets (c :: rest)) =
      close (layers ++ outer) (bytes + c.utf8Size) (octets rest) := by
  rw [octets_cons]
  cases ascii : isAscii c with
  | true =>
    have moves' := (layer.move_congr c (head?_octets '{' (by decide) rest)).trans moves
    rw [octetsOf_ascii ascii, List.singleton_append, close, moves', utf8Size_of_isAscii ascii]
  | false =>
    have inner := proper layer (.head _)
    rw [layer.move_of_not_isAscii ascii inner] at moves
    obtain rfl := Layer.Move.read.inj moves
    rw [close_append_of_not_isAscii proper (List.cons_ne_nil _ _)
      (fun o => isAscii_of_mem_octetsOf ascii), length_octetsOf]
    rfl

/-- A backslash hides one byte, and the other bytes of a hidden character change nothing. -/
theorem close_octets_cons_cons {layer : Layer} {outer : List Layer} {c d : Char}
    {rest : List Char} (proper : ∀ l ∈ layer :: outer, l.Proper)
    (moves : layer.move c (d :: rest).head? = .readTwo layers) (bytes : Nat) :
    close (layer :: outer) bytes (octets (c :: d :: rest)) =
      close (layers ++ outer) (bytes + c.utf8Size + d.utf8Size) (octets rest) := by
  have inner : ∀ l ∈ layers ++ outer, l.Proper := proper_append proper (by rw [moves]; rfl)
  have open_ : layers ++ outer ≠ [] := by
    intro closed
    obtain ⟨rfl, -⟩ := List.append_eq_nil_iff.mp closed
    exact layer.move_ne_readTwo_nil _ _ moves
  have ascii := Layer.isAscii_of_move (proper layer (.head _)) moves (by simp)
  have moves' := (layer.move_congr c (head?_octets '{' (by decide) (d :: rest))).trans moves
  obtain ⟨o, more, hidden, -, left⟩ := exists_octetsOf d
  have size := length_octetsOf d
  rw [hidden, List.length_cons] at size
  rw [octets_cons, octetsOf_ascii ascii, List.singleton_append, close, moves', octets_cons, hidden]
  show close (layers ++ outer) (bytes + 2) (more ++ octets rest) = _
  rw [close_append_of_not_isAscii inner open_ left, utf8Size_of_isAscii ascii]
  congr 1
  omega

/-- A literal ends at the same boundary in the bytes of a text as in its characters. -/
theorem close_octets (read : Nat) (proper : ∀ l ∈ layers, l.Proper) (cs : List Char) (bytes : Nat) :
    close layers bytes (octets cs) =
      (close layers read cs).map fun length => bytes + width (cs.take (length - read)) := by
  fun_induction close layers read cs generalizing bytes with
  | case1 => simp [close]
  | case2 => rfl
  | case3 layer outer read c rest layers moves ih =>
    have inner : ∀ l ∈ layers ++ outer, l.Proper := proper_append proper (by rw [moves]; rfl)
    rw [close_octets_cons proper moves, ih inner]
    refine Option.map_congr fun length closed => ?_
    have bound := (close_le (Option.mem_def.mp closed)).1
    rw [show length - read = length - (read + 1) + 1 by omega, List.take_succ_cons, width_cons]
    omega
  | case4 layer outer read c layers moves =>
    have ascii := Layer.isAscii_of_move (proper layer (.head _)) moves (by simp)
    have moves' : layer.move c (octets []).head? = .readTwo layers := moves
    rw [octets_cons, octetsOf_ascii ascii, List.singleton_append, close, moves']
    rfl
  | case5 layer outer read c layers d rest moves ih =>
    have inner : ∀ l ∈ layers ++ outer, l.Proper := proper_append proper (by rw [moves]; rfl)
    rw [close_octets_cons_cons proper moves, ih inner]
    refine Option.map_congr fun length closed => ?_
    have bound := (close_le (Option.mem_def.mp closed)).1
    rw [show length - read = length - (read + 2) + 1 + 1 by omega, List.take_succ_cons,
      List.take_succ_cons, width_cons, width_cons]
    omega
  | case6 layer outer read c rest moves =>
    have ascii := Layer.isAscii_of_move (proper layer (.head _)) moves (by simp)
    have moves' := (layer.move_congr c (head?_octets '{' (by decide) rest)).trans moves
    rw [octets_cons, octetsOf_ascii ascii, List.singleton_append, close, moves']
    rfl

end Literal

/-- The extent in bytes of a construct that starts a text. -/
def Extent.inBytes (cs : List Char) : Extent → Extent
  | closed length => .closed (width (cs.take length))
  | unclosed => .unclosed

/-- Where a literal starts, the bytes and the characters have it end at the same boundary. -/
theorem Literal.extent?_octets (cs : List Char) :
    extent? (octets cs) = (extent? cs).map (·.inBytes cs) := by
  have ends {c : Char} {rest : List Char} {l : Layer} (proper : l.Proper) (size : c.utf8Size = 1) :
      Extent.ofEnd (close [l] 1 (octets rest)) =
        (Extent.ofEnd (close [l] 1 rest)).inBytes (c :: rest) := by
    rw [close_octets 1 (by simpa using proper)]
    cases closed : close [l] 1 rest with
    | none => rfl
    | some length =>
      have bound := (close_le closed).1
      obtain ⟨n, rfl⟩ : ∃ n, length = n + 1 := ⟨length - 1, by omega⟩
      show Extent.closed _ = Extent.closed (width ((c :: rest).take (n + 1)))
      rw [List.take_succ_cons, width_cons, size]
      rfl
  cases cs with
  | nil => rfl
  | cons c rest =>
    cases ascii : isAscii c with
    | true =>
      have size := utf8Size_of_isAscii ascii
      rw [octets_cons, octetsOf_ascii ascii, List.singleton_append, extent?, extent?]
      split
      · next quote =>
        have proper : (Layer.quoted c).Proper := by rcases quote with rfl | rfl <;> rfl
        rw [ends proper size]
        rfl
      · split
        · rw [ends (l := .template) trivial size]
          rfl
        · rfl
    | false =>
      obtain ⟨o, more, bytes, high, -⟩ := exists_octetsOf c
      have none_opens {c : Char} (other : isAscii c = false) (rest : List Char) :
          extent? (c :: rest) = none := by
        simp [extent?, ne_of_isAscii '\'' other (by decide),
          ne_of_isAscii '"' other (by decide),
          ne_of_isAscii '\x60' other (by decide)]
      rw [octets_cons, bytes, List.cons_append, none_opens (high ascii), none_opens ascii]
      rfl

/-! ## Regular expressions -/

namespace Regex

variable {inClass : Bool} {read : Nat}

/-- A character outside of ASCII is one of the body. -/
theorem close_cons_of_not_isAscii {c : Char} (other : isAscii c = false) (rest : List Char) :
    close inClass read (c :: rest) = close inClass (read + 1) rest := by
  have apart (mark : Char) (ascii : isAscii mark = true) : c ≠ mark :=
    ne_of_isAscii mark other ascii
  rw [close.eq_def]
  simp [apart '\n' (by decide), apart '\\' (by decide),
    apart '[' (by decide), apart ']' (by decide),
    apart '/' (by decide)]

theorem close_append_of_not_isAscii {os : List Char} (other : ∀ o ∈ os, isAscii o = false)
    (more : List Char) :
    close inClass read (os ++ more) = close inClass (read + os.length) more := by
  induction os generalizing read with
  | nil => rfl
  | cons o os ih =>
    obtain ⟨first, others⟩ := List.forall_mem_cons.mp other
    rw [List.cons_append, close_cons_of_not_isAscii first, ih others, List.length_cons]
    congr 1
    omega

/-- A first character that is read leaves the rest to be measured. -/
theorem map_close_cons (c : Char) (rest : List Char) (bytes : Nat) :
    ((close inClass (read + 1) rest).map fun length =>
        bytes + c.utf8Size + width (rest.take (length - (read + 1)))) =
      (close inClass (read + 1) rest).map fun length =>
        bytes + width ((c :: rest).take (length - read)) := by
  refine Option.map_congr fun length closed => ?_
  have bound := (close_le (Option.mem_def.mp closed)).1
  rw [show length - read = length - (read + 1) + 1 by omega, List.take_succ_cons, width_cons]
  omega

/-- A regular expression ends at the same boundary in the bytes of a text as in its characters. -/
theorem close_octets (read : Nat) (cs : List Char) (bytes : Nat) :
    close inClass bytes (octets cs) =
      (close inClass read cs).map fun length => bytes + width (cs.take (length - read)) := by
  fun_induction close inClass read cs generalizing bytes with
  | case1 => rfl
  | case2 inClass read rest =>
    rw [octets_cons, octetsOf_ascii (by decide), List.singleton_append, close.eq_def]
    rfl
  | case3 inClass read line => rfl
  | case4 inClass read d rest line ih =>
    obtain ⟨o, more, hidden, -, left⟩ := exists_octetsOf d
    have size := length_octetsOf d
    rw [hidden, List.length_cons] at size
    have goes : close inClass bytes (octets ('\\' :: d :: rest)) =
        close inClass (bytes + 1 + d.utf8Size) (octets rest) := by
      rw [octets_cons, octetsOf_ascii (by decide), octets_cons, hidden]
      show close inClass (bytes + 2) (more ++ octets rest) = _
      rw [close_append_of_not_isAscii left]
      congr 1
      omega
    rw [goes, ih]
    refine Option.map_congr fun length closed => ?_
    have bound := (close_le (Option.mem_def.mp closed)).1
    rw [show length - read = length - (read + 2) + 1 + 1 by omega, List.take_succ_cons,
      List.take_succ_cons, width_cons, width_cons,
      utf8Size_of_isAscii (c := '\\') (by decide)]
    omega
  | case5 inClass read rest line escape ih =>
    have goes : close inClass bytes (octets ('[' :: rest)) =
        close true (bytes + 1) (octets rest) := by
      rw [octets_cons, octetsOf_ascii (by decide), List.singleton_append, close.eq_def]
      rfl
    rw [goes, ih, ← map_close_cons, utf8Size_of_isAscii (by decide)]
  | case6 inClass read rest line escape opening ih =>
    have goes : close inClass bytes (octets (']' :: rest)) =
        close false (bytes + 1) (octets rest) := by
      rw [octets_cons, octetsOf_ascii (by decide), List.singleton_append, close.eq_def]
      rfl
    rw [goes, ih, ← map_close_cons, utf8Size_of_isAscii (by decide)]
  | case7 inClass read c rest line escape opening closing slash =>
    obtain ⟨rfl, rfl⟩ := slash
    have goes : close false bytes (octets ('/' :: rest)) = some (bytes + 1) := by
      rw [octets_cons, octetsOf_ascii (by decide), List.singleton_append, close.eq_def]
      rfl
    rw [goes, Option.map_some, Nat.add_sub_cancel_left, List.take_succ_cons, List.take_zero,
      width_cons, width_nil, utf8Size_of_isAscii (by decide)]
  | case8 inClass read c rest line escape opening closing slash ih =>
    have goes : close inClass bytes (octets (c :: rest)) =
        close inClass (bytes + c.utf8Size) (octets rest) := by
      rw [octets_cons, ← length_octetsOf]
      cases ascii : isAscii c with
      | true =>
        rw [octetsOf_ascii ascii, List.singleton_append, close.eq_def]
        dsimp only
        rw [if_neg line, if_neg escape, if_neg opening, if_neg closing, if_neg slash]
        rfl
      | false => exact close_append_of_not_isAscii (fun o => isAscii_of_mem_octetsOf ascii) _
    rw [goes, ih, map_close_cons]

theorem isAscii_of_isFlag {c : Char} (flag : isFlag c = true) : isAscii c = true := by
  have letter : (decide (c.val ≥ 'A'.val ∧ c.val ≤ 'Z'.val) ||
      (decide (c.val ≥ 'a'.val) && decide (c.val ≤ 'z'.val))) = true := flag
  simp only [Bool.or_eq_true, Bool.and_eq_true, decide_eq_true_eq, UInt32.le_iff_toNat_le,
    ge_iff_le] at letter
  have code : c.toNat = c.val.toNat := rfl
  have upper : 'Z'.val.toNat = 90 := rfl
  have lower : 'z'.val.toNat = 122 := rfl
  exact decide_eq_true (by omega)

theorem not_isFlag_of_not_isAscii {c : Char} (other : isAscii c = false) : ¬ isFlag c = true := by
  intro flag
  rw [isAscii_of_isFlag flag] at other
  cases other

/-- Flags are of ASCII. -/
theorem takeWhile_octets (cs : List Char) :
    (octets cs).takeWhile isFlag = cs.takeWhile isFlag := by
  induction cs with
  | nil => rfl
  | cons c cs ih =>
    rw [octets_cons]
    cases ascii : isAscii c with
    | true =>
      rw [octetsOf_ascii ascii, List.singleton_append, List.takeWhile_cons, List.takeWhile_cons, ih]
    | false =>
      obtain ⟨o, more, bytes, high, -⟩ := exists_octetsOf c
      rw [bytes, List.cons_append,
        List.takeWhile_cons_of_neg (not_isFlag_of_not_isAscii (high ascii)),
        List.takeWhile_cons_of_neg (not_isFlag_of_not_isAscii ascii)]

theorem closeFlags_octets (cs : List Char) :
    closeFlags (octets cs) = (closeFlags cs).map fun length => width (cs.take length) := by
  rw [closeFlags, closeFlags, close_octets 0, Option.map_map, Option.map_map]
  refine Option.map_congr fun length closed => ?_
  have flags : width ((cs.drop length).takeWhile isFlag) =
      ((cs.drop length).takeWhile isFlag).length :=
    width_of_isAscii fun c held => isAscii_of_isFlag (List.all_eq_true.mp List.all_takeWhile c held)
  have taken := List.prefix_iff_eq_take.mp (List.takeWhile_prefix isFlag (l := cs.drop length))
  simp only [Function.comp_apply, Nat.zero_add, Nat.sub_zero, drop_octets, takeWhile_octets]
  rw [List.take_add, width_append, ← taken, flags]

/-- Where a regular expression starts, the bytes and the characters have it end at the same
boundary. -/
theorem extent?_octets (prev : Option String) (cs : List Char) :
    extent? prev (octets cs) = (extent? prev cs).map (·.inBytes cs) := by
  cases cs with
  | nil => rfl
  | cons c rest =>
    by_cases slash : c = '/'
    · subst slash
      rw [octets_cons, octetsOf_ascii (by decide), List.singleton_append]
      simp only [extent?, head?_octets '/' (by decide),
        head?_octets '*' (by decide), closeFlags_octets]
      split
      · rfl
      split
      · rfl
      cases closeFlags rest with
      | none => rfl
      | some length =>
        simp [Extent.ofEnd, Extent.inBytes, List.take_succ_cons,
          utf8Size_of_isAscii (c := '/') (by decide), Nat.add_comm]
    · have first : ∃ o more, octets (c :: rest) = o :: more ∧ o ≠ '/' := by
        obtain ⟨o, more, bytes, high, -⟩ := exists_octetsOf c
        refine ⟨o, more ++ octets rest, by rw [octets_cons, bytes, List.cons_append], ?_⟩
        cases ascii : isAscii c with
        | true =>
          rw [octetsOf_ascii ascii] at bytes
          rwa [← (List.cons.inj bytes).1]
        | false => exact ne_of_isAscii '/' (high ascii) (by decide)
      obtain ⟨o, more, bytes, other⟩ := first
      rw [bytes, extent?_of_ne_slash other, extent?_of_ne_slash slash]
      rfl

end Regex

end Host

end Gloss

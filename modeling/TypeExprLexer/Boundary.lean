import TypeExprLexer.Pattern

/-!
Where matches end.

A byte offset in a text is the end of a character or inside one, never both
(`Utf8.isBoundary_iff_not_isInside`). Patterns read bytes, yet a match that begins
with a character never cuts one: `Pattern.isBoundary_length` says so for each
pattern, and `PatternSet.isBoundary_of_step_skip` and
`PatternSet.isBoundary_of_step_emit` for every move of a scan. Names and blanks go
byte by byte and never part a character for one reason: all bytes of a character
outside ASCII are name bytes, and none of them is a blank.
-/

namespace TypeExprLexer

open ByteClass

namespace Utf8

/-- The first `n` bytes of the characters are whole characters. -/
def IsBoundary (chars : List Char) (n : Nat) : Prop :=
  ∃ part rest, chars = part ++ rest ∧ (encode part).length = n

theorem isBoundary_zero (chars : List Char) : IsBoundary chars 0 :=
  ⟨[], chars, rfl, rfl⟩

theorem IsBoundary.cons {c : Char} {chars : List Char} {n : Nat} (h : IsBoundary chars n) :
    IsBoundary (c :: chars) ((String.utf8EncodeChar c).length + n) := by
  obtain ⟨part, rest, rfl, rfl⟩ := h
  exact ⟨c :: part, rest, rfl, by rw [encode_cons, List.length_append]⟩

theorem IsBoundary.append (before : List Char) {chars : List Char} {n : Nat}
    (h : IsBoundary chars n) : IsBoundary (before ++ chars) ((encode before).length + n) := by
  obtain ⟨part, rest, rfl, rfl⟩ := h
  exact ⟨before ++ part, rest, (List.append_assoc ..).symm, by simp⟩

theorem IsBoundary.le {chars : List Char} {n : Nat} (h : IsBoundary chars n) :
    n ≤ (encode chars).length := by
  obtain ⟨part, rest, rfl, rfl⟩ := h
  simp

/-- A boundary of a text splits it. -/
theorem IsBoundary.exists_append {text : String} {n : Nat} (h : IsBoundary text.toList n) :
    ∃ part rest, text = part ++ rest ∧ part.utf8ByteSize = n := by
  obtain ⟨part, rest, same, size⟩ := h
  refine ⟨String.ofList part, String.ofList rest, ?_, ?_⟩
  · rw [← String.ofList_append, ← same, String.ofList_toList]
  · rw [← length_encode, size]

/-- Where a text splits there is a boundary. -/
theorem isBoundary_of_eq_append {text before after : String} (split : text = before ++ after) :
    IsBoundary text.toList before.utf8ByteSize :=
  ⟨before.toList, after.toList, by rw [split, String.toList_append], length_bytes before⟩

/-- All bytes of a character outside ASCII are from `0x80` up. -/
theorem le_of_mem_encodeChar {c : Char} (wide : 0x80 ≤ c.toNat) {b : UInt8}
    (mem : b ∈ String.utf8EncodeChar c) : 0x80 ≤ b := by
  obtain ⟨lead, tail, eq, high, _, continued⟩ := encodeChar_of_le wide
  rw [eq, List.mem_cons] at mem
  rcases mem with rfl | mem
  · exact UInt8.le_trans (by decide) high
  · exact (isContinuation_iff.mp (continued b mem)).1

/-- An ASCII character is a byte below `0x80`; all bytes of another are from
`0x80` up, and the first of them tells their number. -/
theorem encodeChar_cases (c : Char) :
    (∃ b < 0x80, String.utf8EncodeChar c = [b]) ∨
      ∃ lead tail, String.utf8EncodeChar c = lead :: tail ∧
        leadWidth lead = tail.length + 1 ∧ ∀ b ∈ lead :: tail, 0x80 ≤ b := by
  by_cases ascii : c.toNat < 0x80
  · refine .inl ⟨UInt8.ofNat c.toNat, ?_, encodeChar_of_lt ascii⟩
    rw [UInt8.lt_iff_toNat_lt, UInt8.toNat_ofNat']
    exact Nat.lt_of_le_of_lt (Nat.mod_le ..) ascii
  · have wide := Nat.le_of_not_lt ascii
    obtain ⟨lead, tail, eq, _, width, _⟩ := encodeChar_of_le wide
    refine .inr ⟨lead, tail, eq, width, ?_⟩
    intro b mem
    exact le_of_mem_encodeChar wide (eq ▸ mem)

/-- The width that a first byte tells is that of its character. -/
theorem leadWidth_of_encode_cons {c : Char} {cs : List Char} {b : UInt8} {bs : List UInt8}
    (ahead : encode (c :: cs) = b :: bs) : leadWidth b = (String.utf8EncodeChar c).length := by
  rw [encode_cons] at ahead
  rcases encodeChar_cases c with ⟨lead, low, eq⟩ | ⟨lead, tail, eq, width, _⟩
  · rw [eq] at ahead ⊢
    obtain ⟨rfl, _⟩ := List.cons.inj ahead
    exact if_pos (UInt8.lt_of_lt_of_le low (by decide))
  · rw [eq] at ahead ⊢
    obtain ⟨rfl, _⟩ := List.cons.inj ahead
    exact width

theorem isBoundary_leadWidth {chars : List Char} {b : UInt8} {bs : List UInt8}
    (ahead : encode chars = b :: bs) : IsBoundary chars (leadWidth b) := by
  cases chars with
  | nil => cases ahead
  | cons c cs =>
      rw [leadWidth_of_encode_cons ahead]
      exact (isBoundary_zero cs).cons

/-- Bytes below `0x80` are whole characters. -/
theorem isBoundary_of_forall_lt {chars : List Char} {n : Nat}
    (within : n ≤ (encode chars).length) (low : ∀ b ∈ (encode chars).take n, b < 0x80) :
    IsBoundary chars n := by
  induction chars generalizing n with
  | nil =>
      rw [Nat.le_zero.mp within]
      exact isBoundary_zero []
  | cons c cs ih =>
      cases n with
      | zero => exact isBoundary_zero _
      | succ n =>
          rw [encode_cons] at within low
          rcases encodeChar_cases c with ⟨b, _, eq⟩ | ⟨lead, tail, eq, _, high⟩
          · rw [eq, List.singleton_append] at within low
            rw [List.take_succ_cons, List.forall_mem_cons] at low
            have whole := (ih (Nat.le_of_succ_le_succ within) low.2).cons (c := c)
            rw [eq, Nat.add_comm] at whole
            exact whole
          · rw [eq, List.cons_append, List.take_succ_cons, List.forall_mem_cons] at low
            have := UInt8.not_le.mpr low.1
            exact absurd (high lead List.mem_cons_self) this

/-! ### Inside a character -/

/-- The first `n` bytes end behind the first byte of a character and in front of its
end. -/
def IsInside (chars : List Char) (n : Nat) : Prop :=
  ∃ before c after, chars = before ++ c :: after ∧ (encode before).length < n ∧
    n < (encode before).length + (String.utf8EncodeChar c).length

theorem isBoundary_or_isInside {chars : List Char} {n : Nat} (within : n ≤ (encode chars).length) :
    IsBoundary chars n ∨ IsInside chars n := by
  induction chars generalizing n with
  | nil => exact .inl (Nat.le_zero.mp within ▸ isBoundary_zero [])
  | cons c cs ih =>
      rcases Nat.lt_or_ge n (String.utf8EncodeChar c).length with short | long
      · rcases Nat.eq_zero_or_pos n with rfl | pos
        · exact .inl (isBoundary_zero _)
        · exact .inr ⟨[], c, cs, rfl, pos, by simpa using short⟩
      · obtain ⟨m, rfl⟩ := Nat.exists_eq_add_of_le long
        rw [encode_cons, List.length_append] at within
        rcases ih (Nat.le_of_add_le_add_left within) with whole | ⟨before, d, after, rfl, low, high⟩
        · exact .inl whole.cons
        · refine .inr ⟨c :: before, d, after, rfl, ?_, ?_⟩
          · simpa using low
          · simpa [Nat.add_assoc] using high

theorem not_isInside_of_isBoundary {chars : List Char} {n : Nat} (boundary : IsBoundary chars n) :
    ¬ IsInside chars n := by
  rintro ⟨before, c, after, same, low, high⟩
  obtain ⟨part, rest, rfl, rfl⟩ := boundary
  -- One of the two beginnings of the text goes on with the other.
  rcases List.append_eq_append_iff.mp same with ⟨more, rfl, _⟩ | ⟨more, rfl, behind⟩
  · rw [encode_append, List.length_append] at low
    omega
  · rw [encode_append, List.length_append] at low high
    cases more with
    | nil => exact Nat.lt_irrefl _ low
    | cons d ds =>
        obtain ⟨rfl, _⟩ := List.cons.inj behind
        rw [encode_cons, List.length_append] at high
        omega

theorem isBoundary_iff_not_isInside {chars : List Char} {n : Nat}
    (within : n ≤ (encode chars).length) : IsBoundary chars n ↔ ¬ IsInside chars n :=
  ⟨not_isInside_of_isBoundary, (isBoundary_or_isInside within).resolve_right⟩

/-- Behind a place inside a character stand the other continuation bytes of the character,
and then whole characters. -/
theorem IsInside.exists_drop {chars : List Char} {n : Nat} (h : IsInside chars n) :
    ∃ upTo part after, chars = upTo ++ after ∧ (encode chars).drop n = part ++ encode after ∧
      part ≠ [] ∧ (∀ b ∈ part, isContinuation b) ∧ n + part.length = (encode upTo).length := by
  obtain ⟨before, c, after, rfl, low, high⟩ := h
  obtain ⟨k, rfl⟩ := Nat.exists_eq_add_of_lt low
  -- A character of one byte has no inside.
  have wide : 0x80 ≤ c.toNat := by
    apply Nat.le_of_not_lt
    intro ascii
    rw [encodeChar_of_lt ascii, List.length_singleton] at high
    omega
  obtain ⟨lead, tail, eq, _, _, continued⟩ := encodeChar_of_le wide
  rw [eq, List.length_cons] at high
  refine ⟨before ++ [c], tail.drop k, after, by simp, ?_, ?_, ?_, ?_⟩
  · have within : k ≤ tail.length := by omega
    rw [encode_append, encode_cons, eq, Nat.add_assoc, List.drop_length_add_append,
      List.cons_append, List.drop_succ_cons, List.drop_append_of_le_length within]
  · exact List.ne_nil_of_length_pos (by rw [List.length_drop]; omega)
  · exact fun b mem => continued b (List.mem_of_mem_drop mem)
  · simp only [encode_append, encode_cons, encode_nil, eq, List.length_append, List.length_cons,
      List.length_drop, List.length_nil]
    omega

end Utf8

namespace Pattern

open Utf8

theorem isNameStart_of_le {b : UInt8} (high : 0x80 ≤ b) : isNameStart b :=
  isNameStart_iff.mpr (.inr (UInt8.le_iff_toNat_le.mp high))

theorem isNamePart_of_le {b : UInt8} (high : 0x80 ≤ b) : isNamePart b :=
  isNamePart_of_isNameStart (isNameStart_of_le high)

theorem not_isBlank_of_le {b : UInt8} (high : 0x80 ≤ b) : ¬ isBlank b :=
  fun blank => not_isNamePart_of_isBlank blank (isNamePart_of_le high)

theorem nameTail_append {part : List UInt8} (rest : List UInt8) (parts : ∀ b ∈ part, isNamePart b) :
    nameTail (part ++ rest) = part.length + nameTail rest := by
  induction part with
  | nil => exact (Nat.zero_add _).symm
  | cons b bs ih =>
      obtain ⟨part, parts⟩ := List.forall_mem_cons.mp parts
      rw [List.cons_append, nameTail_cons_of_isNamePart _ part, ih parts, List.length_cons]
      exact Nat.add_right_comm ..

/-- A run of name bytes continues a name, and what follows the run may do so too. -/
theorem nameTail_eq_add (rest : List UInt8) :
    nameTail rest =
      (rest.takeWhile isNamePart).length + nameTail (rest.dropWhile isNamePart) := by
  have parts : ∀ b ∈ rest.takeWhile isNamePart, isNamePart b :=
    List.all_eq_true.mp List.all_takeWhile
  have whole := nameTail_append (rest.dropWhile isNamePart) parts
  rwa [List.takeWhile_append_dropWhile] at whole

/-- What continues a name ends with a character: a character outside ASCII is
taken whole, and so is one that begins a further segment. -/
theorem isBoundary_nameTail (chars : List Char) : IsBoundary chars (nameTail (encode chars)) := by
  match chars with
  | [] => exact isBoundary_zero []
  | c :: cs =>
      rw [encode_cons]
      rcases encodeChar_cases c with ⟨b, _, eq⟩ | ⟨lead, tail, eq, _, high⟩
      · rw [eq, List.singleton_append]
        by_cases part : isNamePart b
        · have whole := (isBoundary_nameTail cs).cons (c := c)
          rw [eq, Nat.add_comm] at whole
          rw [nameTail_cons_of_isNamePart _ part]
          exact whole
        · by_cases separated : b = separator
          · subst separated
            match cs with
            | [] => exact isBoundary_zero _
            | d :: ds =>
                have whole := ((isBoundary_nameTail ds).cons (c := d)).cons (c := c)
                rw [eq] at whole
                rw [encode_cons]
                rcases encodeChar_cases d with ⟨x, _, eq⟩ | ⟨lead, tail, eq, _, high⟩
                · rw [eq, List.singleton_append]
                  rw [eq] at whole
                  by_cases start : isNameStart x
                  · rw [nameTail_separator_cons _ start, Nat.add_comm, Nat.add_assoc 1 1]
                    exact whole
                  · rw [nameTail_separator_of_not (by simpa using start)]
                    exact isBoundary_zero _
                · obtain ⟨first, others⟩ := List.forall_mem_cons.mp high
                  rw [eq, List.cons_append, nameTail_separator_cons _ (isNameStart_of_le first),
                    nameTail_append _ fun b mem => isNamePart_of_le (others b mem)]
                  rw [eq, List.length_singleton, List.length_cons] at whole
                  have same : tail.length + nameTail (encode ds) + 2 =
                      1 + (tail.length + 1 + nameTail (encode ds)) := by omega
                  rw [same]
                  exact whole
          · rw [nameTail_cons_of_not _ part separated]
            exact isBoundary_zero _
      · rw [eq, nameTail_append _ fun b mem => isNamePart_of_le (high b mem), ← eq]
        exact (isBoundary_nameTail cs).cons
termination_by chars.length

theorem isBoundary_nameLength (chars : List Char) :
    IsBoundary chars (nameLength (encode chars)) := by
  cases chars with
  | nil => exact isBoundary_zero []
  | cons c cs =>
      have whole := (isBoundary_nameTail cs).cons (c := c)
      rw [encode_cons]
      rcases encodeChar_cases c with ⟨b, _, eq⟩ | ⟨lead, tail, eq, _, high⟩
      · rw [eq, List.singleton_append, nameLength]
        split
        · rw [eq, Nat.add_comm] at whole
          exact whole
        · exact isBoundary_zero _
      · obtain ⟨first, others⟩ := List.forall_mem_cons.mp high
        rw [eq, List.cons_append, nameLength, if_pos (by simp [isNameStart_of_le first]),
          nameTail_append _ fun b mem => isNamePart_of_le (others b mem), Nat.add_right_comm]
        rw [eq] at whole
        exact whole

theorem isBoundary_takeWhile_isBlank (chars : List Char) :
    IsBoundary chars ((encode chars).takeWhile isBlank).length := by
  induction chars with
  | nil => exact isBoundary_zero []
  | cons c cs ih =>
      rw [encode_cons]
      rcases encodeChar_cases c with ⟨b, _, eq⟩ | ⟨lead, tail, eq, _, high⟩
      · by_cases blank : isBlank b
        · have whole := ih.cons (c := c)
          rw [eq, List.singleton_append, List.takeWhile_cons_of_pos blank]
          rw [eq, Nat.add_comm] at whole
          exact whole
        · rw [eq, List.singleton_append, List.takeWhile_cons_of_neg blank]
          exact isBoundary_zero _
      · rw [eq, List.cons_append,
          List.takeWhile_cons_of_neg (not_isBlank_of_le (high lead List.mem_cons_self))]
        exact isBoundary_zero _

theorem lt_of_toLower_mem_thisBytes {b : UInt8} (mem : toLower b ∈ thisBytes) : b < 0x80 := by
  by_cases high : 0x80 ≤ b
  · have upper : ¬ (0x41 ≤ b && b ≤ 0x5A) := by
      rw [Bool.and_eq_true, decide_eq_true_eq, decide_eq_true_eq]
      exact fun letter => absurd (UInt8.le_trans high letter.2) (by decide)
    rw [toLower, if_neg upper] at mem
    have low : ∀ x ∈ thisBytes, x < 0x80 := by simp [thisBytes]
    exact low b mem
  · exact UInt8.not_le.mp high

/-- A match that begins with a character ends with one. -/
theorem isBoundary_length (p : Pattern) (chars : List Char) :
    IsBoundary chars (p.length (encode chars)) := by
  cases p with
  | thisVariable =>
      rw [length]
      split
      · next same =>
          refine isBoundary_of_forall_lt ?_ ?_
          · have := congrArg List.length same
            rw [List.length_map, List.length_take] at this
            exact this ▸ Nat.min_le_right ..
          · intro b mem
            exact lt_of_toLower_mem_thisBytes (same ▸ List.mem_map_of_mem mem)
      · exact isBoundary_zero chars
  | name => exact isBoundary_nameLength chars
  | blanks => exact isBoundary_takeWhile_isBlank chars
  | anyChar =>
      cases ahead : encode chars with
      | nil => exact isBoundary_zero chars
      | cons b bs => exact isBoundary_leadWidth ahead

theorem isBoundary_of_firstMatch? {patterns : List Pattern} {chars : List Char} {p : Pattern}
    {n : Nat} (found : firstMatch? patterns (encode chars) = some (p, n)) :
    IsBoundary chars n := by
  obtain ⟨q, _, hit⟩ := List.exists_of_findSome?_eq_some found
  obtain ⟨m, same, eq⟩ := Option.map_eq_some_iff.mp hit
  cases eq
  exact (matchLength?_eq_some_iff.mp same).2 ▸ isBoundary_length p chars

end Pattern

namespace PatternSet

open Utf8

/-- The bytes that a move passes over are whole characters. -/
theorem isBoundary_of_step_skip {P : PatternSet} {chars : List Char} {n : Nat}
    (skipped : P.step (encode chars) = .skip n) : IsBoundary chars n :=
  Pattern.isBoundary_of_firstMatch? (firstMatch?_of_step_skip skipped)

/-- The bytes that a move emits are whole characters. -/
theorem isBoundary_of_step_emit {P : PatternSet} {chars : List Char} {n : Nat}
    {p : Option Pattern} (emitted : P.step (encode chars) = .emit n p) : IsBoundary chars n := by
  rcases cases_of_step_emit emitted with ⟨_, _, found, _⟩ | ⟨b, bs, ahead, rfl, _⟩
  · exact Pattern.isBoundary_of_firstMatch? found
  · exact isBoundary_leadWidth ahead

end PatternSet

end TypeExprLexer

import TypeExprLexer.CharacterScan
import TypeExprLexer.Proofs.Lookahead

/-!
Matches at every byte of a text.

A scan only asks for matches between characters, but a cursor may stand anywhere. Between
characters a match takes whole characters (`Cursor.isBoundary_add_of_matchLength?`). Inside one
the bytes ahead begin with its continuation bytes, which continue names and nothing else: there a
name matches and takes the rest of the character, so its match ends between characters all the
same (`Cursor.exists_matchLength?_name_of_isInside`), and of the other patterns only the one for
any character matches, a single byte. `Cursor.matchLength?_bounds` puts this together with the
bounds: a match is never empty and never goes past the end.
-/

namespace TypeExprLexer

open ByteClass Utf8

namespace Pattern

theorem matchLength?_eq_none_iff {p : Pattern} {rest : List UInt8} :
    p.matchLength? rest = none ↔ p.length rest = 0 := by
  simp [matchLength?]

/-! ### Continuation bytes ahead -/

section Continued

variable {part : List UInt8} (nonempty : part ≠ []) (continued : ∀ b ∈ part, isContinuation b)

include nonempty continued

/-- A name takes all continuation bytes and what continues a name behind them. -/
theorem length_name_append (rest : List UInt8) :
    name.length (part ++ rest) = part.length + nameTail rest := by
  obtain ⟨b, bs, rfl⟩ := List.exists_cons_of_ne_nil nonempty
  obtain ⟨first, others⟩ := List.forall_mem_cons.mp continued
  have start := isNameStart_of_le (isContinuation_iff.mp first).1
  have parts : ∀ x ∈ bs, isNamePart x := fun x mem =>
    isNamePart_of_le (isContinuation_iff.mp (others x mem)).1
  calc name.length (b :: bs ++ rest)
      = nameTail (bs ++ rest) + 1 := if_pos (by rw [start, Bool.true_or])
    _ = bs.length + nameTail rest + 1 := by rw [nameTail_append rest parts]
    _ = (b :: bs).length + nameTail rest := Nat.add_right_comm ..

/-- Only a name begins with a continuation byte, but for any character. -/
theorem length_append_of_isContinuation (rest : List UInt8) :
    thisVariable.length (part ++ rest) = 0 ∧ blanks.length (part ++ rest) = 0 ∧
      anyChar.length (part ++ rest) = 1 := by
  have named : 0 < name.length (part ++ rest) := by
    rw [length_name_append nonempty continued]
    exact Nat.add_pos_left (List.length_pos_iff.mpr nonempty) _
  refine ⟨?_, length_blanks_of_length_name_pos named, ?_⟩
  · apply Nat.eq_zero_of_not_pos
    intro this
    exact Nat.ne_of_gt named (length_of_length_thisVariable_pos this).1
  · obtain ⟨b, bs, rfl⟩ := List.exists_cons_of_ne_nil nonempty
    exact leadWidth_of_isContinuation (continued b List.mem_cons_self)

end Continued

end Pattern

namespace Cursor

variable {c : Cursor}

/-! ### Places of a cursor -/

/-- Inside a character the rest is the continuation bytes up to its end, and then whole
characters. -/
theorem exists_rest_of_isInside (place : IsInside c.text.toList c.pos) :
    ∃ upTo part after, c.text.toList = upTo ++ after ∧ c.rest = part ++ encode after ∧
      part ≠ [] ∧ (∀ b ∈ part, isContinuation b) ∧
      c.pos + part.length = (encode upTo).length := by
  rw [c.rest_eq]
  exact place.exists_drop

theorem isBoundary_or_isInside_pos (c : Cursor) :
    IsBoundary c.text.toList c.pos ∨ IsInside c.text.toList c.pos := by
  apply isBoundary_or_isInside
  rw [length_encode_toList]
  exact c.pos_le

theorem le_of_isBoundary {n : Nat} (place : IsBoundary c.text.toList n) :
    n ≤ c.text.utf8ByteSize := by
  rw [← length_encode_toList]
  exact place.le

/-! ### Ends of matches -/

/-- Between characters a match takes whole characters. -/
theorem isBoundary_add_of_matchLength? {p : Pattern} {n : Nat}
    (place : IsBoundary c.text.toList c.pos) (found : p.matchLength? c.rest = some n) :
    IsBoundary c.text.toList (c.pos + n) := by
  obtain ⟨before, after, rfl⟩ := exists_eq_between place
  obtain ⟨_, rfl⟩ := Pattern.matchLength?_eq_some_iff.mp found
  have whole := (Pattern.isBoundary_length p after.toList).append before.toList
  rwa [length_encode_toList, ← toList_text_between] at whole

/-- Inside a character a name matches, and its match ends between characters. -/
theorem exists_matchLength?_name_of_isInside (place : IsInside c.text.toList c.pos) :
    ∃ n, Pattern.name.matchLength? c.rest = some n ∧ IsBoundary c.text.toList (c.pos + n) := by
  obtain ⟨upTo, part, after, split, ahead, nonempty, continued, size⟩ :=
    exists_rest_of_isInside place
  have taken := Pattern.length_name_append nonempty continued (encode after)
  refine ⟨part.length + Pattern.nameTail (encode after), ?_, ?_⟩
  · rw [Pattern.matchLength?_eq_some_iff, ahead]
    exact ⟨Nat.add_pos_left (List.length_pos_iff.mpr nonempty) _, taken⟩
  · rw [split, ← Nat.add_assoc, size]
    exact (Pattern.isBoundary_nameTail after).append upTo

/-- Inside a character no other pattern matches, but for any character a single byte does. -/
theorem matchLength?_of_isInside (place : IsInside c.text.toList c.pos) :
    Pattern.thisVariable.matchLength? c.rest = none ∧
      Pattern.blanks.matchLength? c.rest = none ∧
      Pattern.anyChar.matchLength? c.rest = some 1 := by
  obtain ⟨_, part, after, _, ahead, nonempty, continued, _⟩ := exists_rest_of_isInside place
  obtain ⟨this, blank, any⟩ :=
    Pattern.length_append_of_isContinuation nonempty continued (encode after)
  rw [ahead, Pattern.matchLength?_eq_none_iff, Pattern.matchLength?_eq_none_iff,
    Pattern.matchLength?_eq_some_iff]
  exact ⟨this, blank, Nat.one_pos, any⟩

theorem pos_lt_of_isInside (place : IsInside c.text.toList c.pos) :
    c.pos < c.text.utf8ByteSize := by
  obtain ⟨upTo, part, after, split, _, nonempty, _, size⟩ := exists_rest_of_isInside place
  have upTo_le : (encode upTo).length ≤ c.text.utf8ByteSize :=
    le_of_isBoundary ⟨upTo, after, split, rfl⟩
  have := List.length_pos_iff.mpr nonempty
  omega

/-- No match goes past the end of the text. -/
theorem add_le_of_matchLength? {p : Pattern} {n : Nat} (found : p.matchLength? c.rest = some n) :
    c.pos + n ≤ c.text.utf8ByteSize := by
  rcases c.isBoundary_or_isInside_pos with place | place
  · exact le_of_isBoundary (isBoundary_add_of_matchLength? place found)
  · obtain ⟨this, blank, any⟩ := matchLength?_of_isInside place
    cases p with
    | thisVariable => cases this.symm.trans found
    | name =>
        obtain ⟨m, named, stop⟩ := exists_matchLength?_name_of_isInside place
        cases named.symm.trans found
        exact le_of_isBoundary stop
    | blanks => cases blank.symm.trans found
    | anyChar =>
        cases any.symm.trans found
        exact pos_lt_of_isInside place

/-- At every byte of a text, a match takes at least one byte and none past the end, where
nothing matches. Between characters it takes whole characters. Inside a character a name matches
up to the end of a character, and of the other patterns only the one for any character matches, a
single byte. -/
theorem matchLength?_bounds (c : Cursor) :
    (∀ (p : Pattern) (n : Nat), p.matchLength? c.rest = some n →
        1 ≤ n ∧ n ≤ c.text.utf8ByteSize - c.pos ∧
          (IsBoundary c.text.toList c.pos → IsBoundary c.text.toList (c.pos + n))) ∧
      (c.pos = c.text.utf8ByteSize → ∀ p : Pattern, p.matchLength? c.rest = none) ∧
      (IsInside c.text.toList c.pos →
        (∃ n, Pattern.name.matchLength? c.rest = some n ∧
            IsBoundary c.text.toList (c.pos + n)) ∧
          Pattern.thisVariable.matchLength? c.rest = none ∧
          Pattern.blanks.matchLength? c.rest = none ∧
          Pattern.anyChar.matchLength? c.rest = some 1) := by
  refine ⟨?_, ?_, ?_⟩
  · intro p n found
    have within := add_le_of_matchLength? found
    refine ⟨(Pattern.matchLength?_eq_some_iff.mp found).1, by omega, ?_⟩
    intro place
    exact isBoundary_add_of_matchLength? place found
  · intro ended p
    have ahead : c.rest = [] := by
      rw [← List.length_eq_zero_iff, length_rest, ended, Nat.sub_self]
    rw [ahead]
    exact Pattern.matchLength?_nil p
  · intro place
    exact ⟨exists_matchLength?_name_of_isInside place, matchLength?_of_isInside place⟩

/-- Inside `é`, in front of a blank: the name takes the rest of the character only. -/
example : ([Pattern.thisVariable, .name, .blanks, .anyChar].map fun p =>
    p.matchLength? ((ofText "é b").advanceBy 1).rest) = [none, some 1, none, some 1] := by
  decide

end Cursor

end TypeExprLexer

import TypeExprLexer.Boundary
import TypeExprLexer.Cursor
import TypeExprLexer.NameGrammar

/-!
Matching with a cursor.

A pattern says of a list of bytes how many of them it takes. The same can be found by moving a
cursor over a tentative match, which reads single bytes, also past the end, and eats runs of a
class: a name is a first byte with a run behind it, and then one segment after the other as long as
a separator and a byte that starts a segment are ahead. `Cursor.reach?_eq` says that both ways
agree, wherever the cursor stands.
-/

namespace TypeExprLexer.Cursor

open ByteClass Pattern

variable {c : Cursor}

/-! ### Moving over a match -/

/-- Whether a separator is ahead and a byte behind it that starts a segment. -/
def atSegment (c : Cursor) : Bool :=
  c.current == separator && isNameStart (c.peekAt 1)

/-- What is read past the end is no separator and starts no segment. -/
theorem atSegment_iff : c.atSegment ↔ ∃ b bs, c.rest = separator :: b :: bs ∧ isNameStart b := by
  rw [atSegment, current, peekAt, peekAt]
  rcases c.rest with _ | ⟨x, _ | ⟨b, bs⟩⟩
  · simp [separator]
  · simp [isNameStart, isLetter]
  · simp [and_assoc]

theorem rest_segment_lt (further : c.atSegment) :
    ((c.advanceBy 2).eatWhile isNamePart).2.rest.length < c.rest.length := by
  obtain ⟨b, bs, ahead, _⟩ := atSegment_iff.mp further
  have := (bs.dropWhile_suffix isNamePart).length_le
  rw [rest_eatWhile, rest_advanceBy, ahead]
  simp only [List.drop_succ_cons, List.drop_zero, List.length_cons]
  omega

/-- The cursor behind all further segments of a name. -/
def eatSegments (c : Cursor) : Cursor :=
  if further : c.atSegment then
    have := rest_segment_lt further
    ((c.advanceBy 2).eatWhile isNamePart).2.eatSegments
  else c
termination_by c.rest.length

/-- The cursor behind a name, or where it was if there is none. -/
def eatName (c : Cursor) : Cursor :=
  if !c.isAtEnd && (isNameStart c.current || c.current == separator) then
    (c.advance.eatWhile isNamePart).2.eatSegments
  else c

/-- How far a pattern reaches at a cursor, 0 if it does not match. -/
def reach (c : Cursor) : Pattern → Nat
  | .thisVariable => Pattern.thisVariable.length c.rest
  | .name => c.eatName.pos - c.pos
  | .blanks => (c.eatWhile isBlank).1
  | .anyChar => c.charWidth

/-- How far a pattern reaches at a cursor, if it matches. -/
def reach? (c : Cursor) (p : Pattern) : Option Nat :=
  if 0 < c.reach p then some (c.reach p) else none

/-! ### Names -/

/-- Where neither a name byte nor a further segment is ahead, no name goes on. -/
theorem nameTail_of_not_atSegment (stopped : ∀ b ∈ c.rest.head?, ¬ isNamePart b)
    (ended : ¬ c.atSegment) : nameTail c.rest = 0 := by
  rw [atSegment_iff] at ended
  cases ahead : c.rest with
  | nil => rfl
  | cons b bs =>
      rw [ahead] at stopped
      by_cases separated : b = separator
      · subst separated
        apply nameTail_separator_of_not
        intro b first start
        obtain ⟨bs, rfl⟩ := List.head?_eq_some_iff.mp first
        exact ended ⟨b, bs, ahead, start⟩
      · exact nameTail_cons_of_not bs (stopped b rfl) separated

/-- Eating a run and the segments behind it goes over all that continues a name. -/
theorem eatSegments_eatWhile (c : Cursor) :
    (c.eatWhile isNamePart).2.eatSegments = c.advanceBy (nameTail c.rest) := by
  have run : (c.eatWhile isNamePart).2 = c.advanceBy (c.rest.takeWhile isNamePart).length := rfl
  have behind := rest_eatWhile c isNamePart
  -- From behind the run on: either nothing more, or two bytes and again what a run begins.
  generalize (c.eatWhile isNamePart).2 = d at run behind
  rw [nameTail_eq_add c.rest, ← behind, ← advanceBy_advanceBy, ← run, eatSegments]
  by_cases further : d.atSegment
  · obtain ⟨b, bs, ahead, start⟩ := atSegment_iff.mp further
    have tail : (d.advanceBy 2).rest = bs := by rw [rest_advanceBy, ahead]; rfl
    have shorter : (d.advanceBy 2).rest.length < c.rest.length := by
      have := (c.rest.dropWhile_suffix isNamePart).length_le
      rw [← behind, ahead, List.length_cons, List.length_cons] at this
      rw [tail]
      omega
    have others := eatSegments_eatWhile (d.advanceBy 2)
    rw [dif_pos further, others, tail, ahead, nameTail_separator_cons bs start,
      advanceBy_advanceBy, Nat.add_comm]
  · have stopped : ∀ b ∈ d.rest.head?, ¬ isNamePart b := by
      intro b first part
      rw [behind] at first
      have last := List.head?_dropWhile_not isNamePart c.rest
      simp [Option.mem_def.mp first, part] at last
    rw [dif_neg further, nameTail_of_not_atSegment stopped further, advanceBy_zero]
termination_by c.rest.length
decreasing_by exact shorter

/-- A name is found by moving over it. -/
theorem eatName_eq (c : Cursor) : c.eatName = c.advanceBy (Pattern.nameLength c.rest) := by
  rw [eatName, isAtEnd, current, peekAt]
  cases ahead : c.rest with
  | nil => exact c.advanceBy_zero.symm
  | cons b bs =>
      have behind : c.advance.rest = bs := by rw [advance, rest_advanceBy, ahead]; rfl
      by_cases first : isNameStart b || b == separator
      · have more : (!(b :: bs).isEmpty && (isNameStart b || b == separator)) = true := by
          simpa using first
        rw [nameLength, if_pos first]
        refine (if_pos more).trans ?_
        rw [eatSegments_eatWhile, behind, advance, advanceBy_advanceBy, Nat.add_comm]
      · have noStart : ¬ (!(b :: bs).isEmpty && (isNameStart b || b == separator)) = true := by
          simpa using first
        rw [nameLength, if_neg first]
        exact (if_neg noStart).trans c.advanceBy_zero.symm

theorem charWidth_eq_length (c : Cursor) : c.charWidth = Pattern.anyChar.length c.rest := by
  rw [charWidth]
  cases c.rest <;> rfl

/-! ### All patterns -/

/-- A pattern reaches as far at a cursor as it takes of the bytes ahead. -/
theorem reach_eq_length (c : Cursor) (p : Pattern) : c.reach p = p.length c.rest := by
  cases p with
  | thisVariable => rfl
  | name =>
      rw [reach, eatName_eq, pos_advanceBy (NameGrammar.nameLength_le_length c.rest),
        Nat.add_sub_cancel_left]
      rfl
  | blanks => rfl
  | anyChar => exact charWidth_eq_length c

/-- Wherever a cursor stands, moving it over a match and taking bytes from the list of those
ahead find the same. -/
theorem reach?_eq (c : Cursor) (p : Pattern) : c.reach? p = p.matchLength? c.rest := by
  rw [reach?, reach_eq_length, Pattern.matchLength?]

/-- A separator with no segment behind it is left over, a first one is not. -/
example : ((ofText "\\Foo\\1").reach? .name, ((ofText "Foo\\").advanceBy 3).reach? .name) =
    (some 4, some 1) := by
  decide +kernel

end TypeExprLexer.Cursor

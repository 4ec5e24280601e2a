import TypeExprLexer.Utf8

/-!
A place in a text, counted in bytes.

A cursor may stand anywhere, also between the bytes of one character, and never
past the end. Reading past the end gives 0, and a step past the end stops there;
whether a cursor is at the end is decided by its place, so a NUL in the text is
an ordinary byte.

A cursor is its text and its position (`Cursor.ext_pos`); the bytes ahead of it
are kept along and always are the text's bytes from there on.
-/

namespace TypeExprLexer

/-- A byte position in a text, with the bytes ahead of it. -/
structure Cursor where
  text : String
  pos : Nat
  rest : List UInt8
  rest_eq : rest = (Utf8.bytes text).drop pos
  pos_le : pos ≤ text.utf8ByteSize

namespace Cursor

/-- The cursor at the start of a text. -/
def ofText (text : String) : Cursor where
  text := text
  pos := 0
  rest := Utf8.bytes text
  rest_eq := rfl
  pos_le := Nat.zero_le _

instance : Inhabited Cursor := ⟨ofText ""⟩

theorem ext_pos {c d : Cursor} (text : c.text = d.text) (pos : c.pos = d.pos) : c = d := by
  obtain ⟨t, p, r, hr, _⟩ := c
  obtain ⟨t', p', r', hr', _⟩ := d
  simp_all

theorem length_rest (c : Cursor) : c.rest.length = c.text.utf8ByteSize - c.pos := by
  simp [c.rest_eq]

/-! ### Reading -/

/-- Whether nothing is ahead. -/
def isAtEnd (c : Cursor) : Bool :=
  c.rest.isEmpty

theorem isAtEnd_iff {c : Cursor} : c.isAtEnd ↔ c.pos = c.text.utf8ByteSize := by
  have := c.pos_le
  rw [isAtEnd, List.isEmpty_iff, ← List.length_eq_zero_iff, length_rest]
  omega

/-- The byte `n` places ahead, 0 past the end. -/
def peekAt (c : Cursor) (n : Nat) : UInt8 :=
  c.rest.getD n 0

/-- The byte at the cursor, 0 at the end. -/
def current (c : Cursor) : UInt8 :=
  c.peekAt 0

/-- How many bytes the character at the cursor takes: 0 at the end, and 1 inside
a character. -/
def charWidth (c : Cursor) : Nat :=
  match c.rest with
  | [] => 0
  | b :: _ => Utf8.leadWidth b

/-- The text from byte `start` up to the cursor, empty if either of them is
inside a character or `start` is beyond the cursor. -/
def sliceFrom (c : Cursor) (start : Nat) : String :=
  (Utf8.slice? c.text start c.pos).getD ""

/-! ### Moving -/

/-- Moves `n` bytes ahead, at most to the end. -/
def advanceBy (c : Cursor) (n : Nat) : Cursor where
  text := c.text
  pos := min (c.pos + n) c.text.utf8ByteSize
  rest := c.rest.drop n
  rest_eq := by
    rw [c.rest_eq, List.drop_drop, List.drop_eq_drop_min, Utf8.length_bytes]
  pos_le := Nat.min_le_right ..

/-- Moves one byte ahead, unless at the end. -/
def advance (c : Cursor) : Cursor :=
  c.advanceBy 1

/-- Moves past all bytes of a class that follow without a break, and tells how
many they were. -/
def eatWhile (c : Cursor) (p : UInt8 → Bool) : Nat × Cursor :=
  let n := (c.rest.takeWhile p).length
  (n, c.advanceBy n)

@[simp] theorem text_advanceBy (c : Cursor) (n : Nat) : (c.advanceBy n).text = c.text := rfl

@[simp] theorem rest_advanceBy (c : Cursor) (n : Nat) : (c.advanceBy n).rest = c.rest.drop n := rfl

@[simp] theorem advanceBy_zero (c : Cursor) : c.advanceBy 0 = c :=
  ext_pos rfl (Nat.min_eq_left c.pos_le)

theorem advanceBy_advanceBy (c : Cursor) (m n : Nat) :
    (c.advanceBy m).advanceBy n = c.advanceBy (m + n) := by
  refine ext_pos rfl ?_
  show min (min (c.pos + m) c.text.utf8ByteSize + n) c.text.utf8ByteSize =
    min (c.pos + (m + n)) c.text.utf8ByteSize
  omega

theorem pos_advanceBy {c : Cursor} {n : Nat} (within : n ≤ c.rest.length) :
    (c.advanceBy n).pos = c.pos + n := by
  have := c.pos_le
  rw [length_rest] at within
  exact Nat.min_eq_left (by omega)

theorem rest_eatWhile (c : Cursor) (p : UInt8 → Bool) :
    (c.eatWhile p).2.rest = c.rest.dropWhile p := by
  show c.rest.drop (c.rest.takeWhile p).length = c.rest.dropWhile p
  conv => lhs; arg 2; rw [← List.takeWhile_append_dropWhile (p := p) (l := c.rest)]
  exact List.drop_left

end Cursor

end TypeExprLexer

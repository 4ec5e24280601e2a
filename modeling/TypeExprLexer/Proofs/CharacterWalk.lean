import Mathlib.Data.List.Iterate
import TypeExprLexer.Matching
import TypeExprLexer.Proofs.MatchBounds

/-!
Walking through a text by its characters.

`Cursor.stride` moves over the character at a cursor, and over one byte where the cursor stands
inside a character; `Cursor.walk` repeats it up to the end. A walk may so begin at any byte. No
stride leaves out the start of a character (`Cursor.pos_stride_le`), so from every one of
them on the walk is the walk from there (`Cursor.walk_between_suffix`), and that passes over the
characters of the text one by one (`Cursor.pieces_between`). Whether a walk is over is decided by
its place: a NUL is a character as any other. `Cursor.walk_visits_characters` has all of this.
-/

namespace TypeExprLexer

open Utf8

namespace Cursor

variable {c : Cursor}

/-! ### One stride -/

/-- The cursor behind the character at a cursor; inside a character, one byte ahead. -/
def stride (c : Cursor) : Cursor :=
  c.advanceBy c.charWidth

@[simp] theorem text_stride (c : Cursor) : c.stride.text = c.text := rfl

/-- The character at a cursor is what the pattern for any character takes there. -/
theorem matchLength?_anyChar (more : ¬ c.isAtEnd) :
    Pattern.anyChar.matchLength? c.rest = some c.charWidth := by
  rw [Pattern.matchLength?_eq_some_iff, charWidth_eq_length]
  cases ahead : c.rest with
  | nil => exact absurd (by rw [isAtEnd, ahead, List.isEmpty_nil]) more
  | cons b bs => exact ⟨leadWidth_pos b, rfl⟩

theorem pos_stride (more : ¬ c.isAtEnd) : c.stride.pos = c.pos + c.charWidth :=
  Nat.min_eq_left (add_le_of_matchLength? (matchLength?_anyChar more))

theorem pos_lt_pos_stride (more : ¬ c.isAtEnd) : c.pos < c.stride.pos := by
  rw [pos_stride more]
  exact Nat.lt_add_of_pos_right (Pattern.matchLength?_eq_some_iff.mp (matchLength?_anyChar more)).1

theorem length_rest_stride_lt (more : ¬ c.isAtEnd) : c.stride.rest.length < c.rest.length := by
  have := pos_lt_pos_stride more
  have := c.stride.pos_le
  rw [length_rest, length_rest, text_stride] at *
  omega

/-- Between characters a stride goes over one character. -/
theorem stride_between (before after : String) (char : Char) :
    (between before (String.singleton char ++ after)).stride =
      between (before ++ String.singleton char) after := by
  have width : (between before (String.singleton char ++ after)).charWidth =
      (String.singleton char).utf8ByteSize := by
    obtain ⟨b, bs, ahead⟩ : ∃ b bs, encode (char :: after.toList) = b :: bs :=
      List.exists_cons_of_ne_nil (by simp [encode])
    have rest : (between before (String.singleton char ++ after)).rest = b :: bs := by
      simpa [bytes] using ahead
    rw [charWidth, rest, String.utf8ByteSize_singleton, ← String.length_utf8EncodeChar]
    exact leadWidth_of_encode_cons ahead
  rw [stride, width, advanceBy_between]

/-- Inside a character a stride goes over one byte. -/
theorem pos_stride_of_isInside (place : IsInside c.text.toList c.pos) :
    c.stride.pos = c.pos + 1 := by
  have more : ¬ c.isAtEnd := by
    rw [isAtEnd_iff]
    exact Nat.ne_of_lt (pos_lt_of_isInside place)
  have single := (matchLength?_of_isInside place).2.2
  rw [pos_stride more, Option.some.inj ((matchLength?_anyChar more).symm.trans single)]

theorem isBoundary_pos_stride (place : IsBoundary c.text.toList c.pos) :
    IsBoundary c.text.toList c.stride.pos := by
  by_cases more : c.isAtEnd
  · have stays : c.stride.pos = c.pos := by
      rw [isAtEnd_iff] at more
      exact (Nat.min_eq_right (more ▸ Nat.le_add_right ..)).trans more.symm
    rwa [stays]
  · rw [pos_stride more]
    exact isBoundary_add_of_matchLength? place (matchLength?_anyChar more)

theorem isAtEnd_between_iff {before after : String} :
    (between before after).isAtEnd ↔ after = "" := by
  rw [isAtEnd, rest_between, List.isEmpty_iff, bytes_eq_nil_iff]

theorem exists_eq_singleton_append {text : String} (nonempty : text ≠ "") :
    ∃ char rest, text = String.singleton char ++ rest := by
  obtain ⟨char, chars, eq⟩ := List.exists_cons_of_ne_nil (mt String.toList_eq_nil_iff.mp nonempty)
  refine ⟨char, String.ofList chars, ?_⟩
  rw [← String.ofList_toList (s := text), eq, String.ofList_cons]

/-- No stride leaves out the start of a character. -/
theorem pos_stride_le {n : Nat} (ahead : c.pos < n) (place : IsBoundary c.text.toList n) :
    c.stride.pos ≤ n := by
  rcases c.isBoundary_or_isInside_pos with here | here
  · obtain ⟨before, after, rfl⟩ := exists_eq_between here
    have more : after ≠ "" := by
      rintro rfl
      have within := le_of_isBoundary place
      rw [isAtEnd_iff.mp (isAtEnd_between_iff.mpr rfl)] at ahead
      exact Nat.not_lt.mpr within ahead
    obtain ⟨char, rest, rfl⟩ := exists_eq_singleton_append more
    rw [stride_between]
    -- Before the end of the stride there is only the inside of the character.
    apply Nat.le_of_not_lt
    intro beyond
    refine not_isInside_of_isBoundary place ⟨before.toList, char, rest.toList, ?_, ?_, ?_⟩
    · simp
    · rwa [length_encode_toList]
    · rw [length_encode_toList, String.length_utf8EncodeChar, ← String.utf8ByteSize_singleton,
        ← String.utf8ByteSize_append]
      exact beyond
  · rw [pos_stride_of_isInside here]
    exact ahead

/-! ### The walk -/

/-- Strides up to the end. Gives the cursors that are visited, the first and the last one
included. -/
def walk (c : Cursor) : List Cursor :=
  if more : c.isAtEnd then [c]
  else
    have := length_rest_stride_lt more
    c :: c.stride.walk
termination_by c.rest.length

/-- What a walk passes over, stride by stride. -/
def pieces (c : Cursor) : List String :=
  c.walk.dropLast.map fun d => d.stride.sliceFrom d.pos

theorem walk_of_isAtEnd (ended : c.isAtEnd) : c.walk = [c] := by
  rw [walk, dif_pos ended]

theorem walk_of_not_isAtEnd (more : ¬ c.isAtEnd) : c.walk = c :: c.stride.walk := by
  rw [walk, dif_neg more]

theorem exists_walk_eq_cons (c : Cursor) : ∃ further, c.walk = c :: further := by
  by_cases more : c.isAtEnd
  · exact ⟨_, walk_of_isAtEnd more⟩
  · exact ⟨_, walk_of_not_isAtEnd more⟩

theorem pieces_of_not_isAtEnd (more : ¬ c.isAtEnd) :
    c.pieces = c.stride.sliceFrom c.pos :: c.stride.pieces := by
  obtain ⟨further, eq⟩ := c.stride.exists_walk_eq_cons
  rw [pieces, walk_of_not_isAtEnd more, pieces, eq, List.dropLast_cons_of_ne_nil (by simp)]
  rfl

/-- A walk repeats strides until it is at the end. -/
theorem exists_walk_eq_iterate (c : Cursor) :
    ∃ n, c.walk = List.iterate stride c (n + 1) ∧ (∀ m < n, ¬ (stride^[m] c).isAtEnd) ∧
      (stride^[n] c).isAtEnd := by
  fun_induction walk c with
  | case1 c ended => exact ⟨0, rfl, nofun, ended⟩
  | case2 c more _ ih =>
      obtain ⟨n, eq, before, ended⟩ := ih
      refine ⟨n + 1, congrArg (c :: ·) eq, ?_, ended⟩
      intro m below
      cases m with
      | zero => exact more
      | succ m => exact before m (Nat.lt_of_succ_lt_succ below)

theorem text_iterate_stride (c : Cursor) (n : Nat) : (stride^[n] c).text = c.text := by
  induction n generalizing c with
  | zero => rfl
  | succ n ih => exact ih c.stride

/-- What every stride keeps holds for all cursors that are visited. -/
theorem walk_induction {motive : Cursor → Prop} (start : motive c)
    (step : ∀ d, ¬ d.isAtEnd → motive d → motive d.stride) : ∀ d ∈ c.walk, motive d := by
  fun_induction walk c with
  | case1 c ended => simpa using start
  | case2 c more _ ih => exact List.forall_mem_cons.mpr ⟨start, ih (step c more start)⟩

/-- A walk goes ahead, and having come to the start of a character it goes to such starts only. -/
theorem pairwise_walk (c : Cursor) :
    c.walk.Pairwise fun d e =>
      d.pos < e.pos ∧ (IsBoundary c.text.toList d.pos → IsBoundary c.text.toList e.pos) := by
  fun_induction walk c with
  | case1 c ended => exact List.pairwise_singleton ..
  | case2 c more _ ih =>
      refine List.pairwise_cons.mpr ⟨?_, ih⟩
      have onward := pos_lt_pos_stride more
      -- The text comes along, as it tells the starts of characters.
      suffices ∀ d ∈ c.stride.walk, d.text = c.text ∧ c.pos < d.pos ∧
          (IsBoundary c.text.toList c.pos → IsBoundary c.text.toList d.pos) from
        fun d mem => (this d mem).2
      apply walk_induction
      · exact ⟨rfl, onward, isBoundary_pos_stride⟩
      · rintro d further ⟨text, ahead, kept⟩
        refine ⟨text, Nat.lt_trans ahead (pos_lt_pos_stride further), fun place => ?_⟩
        have here := kept place
        rw [← text] at here ⊢
        exact isBoundary_pos_stride here

/-! ### Characters of a walk -/

/-- From the start of a character on, a walk is the walk from there. -/
theorem walk_between_suffix {before after : String} (split : c.text = before ++ after)
    (ahead : c.pos ≤ before.utf8ByteSize) : (between before after).walk <:+ c.walk := by
  have arrived {d : Cursor} (text : d.text = before ++ after) (here : d.pos = before.utf8ByteSize) :
      (between before after).walk <:+ d.walk := by
    obtain rfl : d = between before after := ext_pos text here
    exact List.suffix_refl _
  -- The walk stops at every start of a character, so it cannot pass this one over.
  fun_induction walk c with
  | case1 c ended =>
      rw [← walk_of_isAtEnd ended]
      have last := isAtEnd_iff.mp ended
      rw [split, String.utf8ByteSize_append] at last
      exact arrived split (by omega)
  | case2 c more _ ih =>
      by_cases here : c.pos = before.utf8ByteSize
      · rw [← walk_of_not_isAtEnd more]
        exact arrived split here
      · have near := pos_stride_le (Nat.lt_of_le_of_ne ahead here) (isBoundary_of_eq_append split)
        exact (ih split near).trans (List.suffix_cons ..)

theorem sliceFrom_between (before part after : String) :
    (between (before ++ part) after).sliceFrom before.utf8ByteSize = part := by
  have piece := congrArg Lexeme.text (lexeme_between before part after)
  rwa [lexeme, advanceBy_between] at piece

/-- A walk between characters passes over the characters ahead. -/
theorem pieces_between (before : String) (chars : List Char) :
    (between before (String.ofList chars)).pieces = chars.map String.singleton := by
  induction chars generalizing before with
  | nil =>
      rw [pieces, walk_of_isAtEnd (isAtEnd_between_iff.mpr String.ofList_nil)]
      rfl
  | cons char chars ih =>
      have more : ¬ (between before (String.singleton char ++ String.ofList chars)).isAtEnd := by
        simp [isAtEnd_between_iff]
      rw [String.ofList_cons, pieces_of_not_isAtEnd more, stride_between, ih]
      exact congrArg (· :: _) (sliceFrom_between ..)

/-- From every byte of a text, repeated strides come to the end, which is at the length of the
text. The walk visits the start of every character from there on and, having come to one, only
such starts. From each of them on it passes over the characters of the text, one by one. -/
theorem walk_visits_characters (c : Cursor) :
    (∃ n, c.walk = List.iterate stride c (n + 1) ∧ (∀ m < n, ¬ (stride^[m] c).isAtEnd) ∧
        (stride^[n] c).isAtEnd ∧ (stride^[n] c).pos = c.text.utf8ByteSize) ∧
      (∀ n, c.pos ≤ n → IsBoundary c.text.toList n → n ∈ c.walk.map pos) ∧
      (c.walk.Pairwise fun d e =>
        d.pos < e.pos ∧ (IsBoundary c.text.toList d.pos → IsBoundary c.text.toList e.pos)) ∧
      ∀ before after, c.text = before ++ after → c.pos ≤ before.utf8ByteSize →
        (between before after).walk <:+ c.walk ∧
          (between before after).pieces = after.toList.map String.singleton := by
  refine ⟨?_, ?_, c.pairwise_walk, ?_⟩
  · obtain ⟨n, eq, before, ended⟩ := c.exists_walk_eq_iterate
    refine ⟨n, eq, before, ended, ?_⟩
    rw [isAtEnd_iff.mp ended, text_iterate_stride]
  · intro n ahead place
    obtain ⟨before, after, split, rfl⟩ := place.exists_append
    obtain ⟨further, eq⟩ := (between before after).exists_walk_eq_cons
    have visited : between before after ∈ (between before after).walk := by simp [eq]
    exact List.mem_map_of_mem ((walk_between_suffix split ahead).mem visited)
  · intro before after split ahead
    refine ⟨walk_between_suffix split ahead, ?_⟩
    have passed := pieces_between before after.toList
    rwa [String.ofList_toList] at passed

/-- From inside `é` a walk comes to the NUL behind it, and on. -/
example : (((ofText "é\x00b").advanceBy 1).walk.map pos,
    ((ofText "é\x00b").advanceBy 2).pieces) = ([1, 2, 3, 4], ["\x00", "b"]) := by
  decide +kernel

end Cursor

end TypeExprLexer

import TypeExprLexer.Boundary
import TypeExprLexer.Lexeme

/-!
Scans go from character to character.

`Cursor.between before after` is the cursor where `before` ends and `after`
begins. A scan from there passes over or emits a first part of `after`, which is
not empty and ends with a character, and goes on between the longer `before` and
the rest of `after` (`PatternSet.catchesFrom_between`).
-/

namespace TypeExprLexer

namespace Cursor

/-- The cursor between two parts of a text. -/
def between (before after : String) : Cursor where
  text := before ++ after
  pos := before.utf8ByteSize
  rest := Utf8.bytes after
  rest_eq := by
    rw [Utf8.bytes_append, ← Utf8.length_bytes]
    exact List.drop_left.symm
  pos_le := by
    rw [String.utf8ByteSize_append]
    exact Nat.le_add_right ..

@[simp] theorem rest_between (before after : String) :
    (between before after).rest = Utf8.bytes after := rfl

@[simp] theorem toList_text_between (before after : String) :
    (between before after).text.toList = before.toList ++ after.toList :=
  String.toList_append

/-- A cursor that stands at a boundary is between two parts of its text. -/
theorem exists_eq_between {c : Cursor} (place : Utf8.IsBoundary c.text.toList c.pos) :
    ∃ before after, c = between before after := by
  obtain ⟨before, after, split, size⟩ := place.exists_append
  exact ⟨before, after, ext_pos split size.symm⟩

theorem ofText_eq_between (text : String) : ofText text = between "" text :=
  ext_pos (String.empty_append).symm rfl

theorem advanceBy_between (before part after : String) :
    (between before (part ++ after)).advanceBy part.utf8ByteSize =
      between (before ++ part) after := by
  refine ext_pos String.append_assoc.symm ?_
  show min (before.utf8ByteSize + part.utf8ByteSize) (before ++ (part ++ after)).utf8ByteSize =
    (before ++ part).utf8ByteSize
  simp only [String.utf8ByteSize_append]
  omega

theorem lexeme_between (before part after : String) :
    (between before (part ++ after)).lexeme part.utf8ByteSize =
      ⟨part, before.utf8ByteSize⟩ := by
  have cut := Utf8.slice?_append before part after
  rw [← String.utf8ByteSize_append] at cut
  rw [lexeme, advanceBy_between]
  exact congrArg (Lexeme.mk · _) (congrArg (Option.getD · "") cut)

end Cursor

namespace PatternSet

/-- A scan between two parts of a text ends where nothing is ahead; otherwise it
passes over or emits a part of what is ahead and goes on behind it. -/
theorem catchesFrom_between (P : PatternSet) (before after : String) :
    (after = "" ∧ P.catchesFrom (.between before after) = []) ∨
      ∃ part rest, after = part ++ rest ∧ part ≠ "" ∧
        ((P.step (Utf8.bytes after) = .skip part.utf8ByteSize ∧
            P.catchesFrom (.between before after) =
              P.catchesFrom (.between (before ++ part) rest)) ∨
          ∃ p, P.step (Utf8.bytes after) = .emit part.utf8ByteSize p ∧
            P.catchesFrom (.between before after) =
              ⟨⟨part, before.utf8ByteSize⟩, p⟩ ::
                P.catchesFrom (.between (before ++ part) rest)) := by
  have scan := catchesFrom_eq P (.between before after)
  rw [Cursor.rest_between] at scan
  cases step : P.step (Utf8.bytes after) with
  | finished =>
      rw [step] at scan
      exact .inl ⟨Utf8.bytes_eq_nil_iff.mp (step_eq_finished_iff.mp step), scan⟩
  | skip n =>
      obtain ⟨part, rest, rfl, rfl⟩ := (isBoundary_of_step_skip step).exists_append
      rw [step] at scan
      refine .inr ⟨part, rest, rfl, ?_, .inl ⟨rfl, ?_⟩⟩
      · rintro rfl
        exact Nat.lt_irrefl 0 (step_skip_pos step)
      · rw [← Cursor.advanceBy_between]
        exact scan
  | emit n p =>
      obtain ⟨part, rest, rfl, rfl⟩ := (isBoundary_of_step_emit step).exists_append
      rw [step] at scan
      refine .inr ⟨part, rest, rfl, ?_, .inr ⟨p, rfl, ?_⟩⟩
      · rintro rfl
        exact Nat.lt_irrefl 0 (step_emit_pos step)
      · rw [← Cursor.lexeme_between before part rest, ← Cursor.advanceBy_between]
        exact scan

end PatternSet

end TypeExprLexer

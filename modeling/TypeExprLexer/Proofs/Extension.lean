import TypeExprLexer.Proofs.Factorization
import TypeExprLexer.Proofs.Seam

/-!
Texts that go on.

A text falls into a front and a tail such that, whatever is appended, the lexemes of
the front stay and only the tail is scanned again with what is appended
(`PatternSet.Settles`). The tail need not be longer than two lexemes
(`PatternSet.exists_settles`): of a text all lexemes but the last two stay, and so do
those behind which there is a blank (`PatternSet.scan_append_keeps`).
-/

namespace TypeExprLexer.PatternSet

open ByteClass

/-- However a text goes on behind its tail, the lexemes of its front stay. -/
def Settles (front tail : String) : Prop :=
  ∀ more, typeExpression.scan (front ++ (tail ++ more)) =
    typeExpression.scan front ++
      (typeExpression.scan (tail ++ more)).map (Lexeme.shift front.utf8ByteSize)

theorem settles_empty (tail : String) : Settles "" tail := by
  simp [Settles]

/-- Blanks in front are settled. -/
theorem Settles.skip {part front tail : String} (blank : ∀ b ∈ Utf8.bytes part, isBlank b)
    (h : Settles front tail) : Settles (part ++ front) tail := by
  intro more
  have skips := skipsBlanks_typeExpression
  rw [String.append_assoc, scan_blanks_append skips _ blank, h more,
    scan_blanks_append skips _ blank]
  simp [Function.comp_def]

/-- A lexeme in front is settled if a move emits it whatever is appended. -/
theorem Settles.emit {part front tail : String} {p : Option Pattern}
    (emitted : ∀ more, typeExpression.step (Utf8.bytes (part ++ (front ++ (tail ++ more)))) =
      .emit part.utf8ByteSize p)
    (h : Settles front tail) : Settles (part ++ front) tail := by
  intro more
  rw [String.append_assoc, scan_of_emit (emitted more), h more,
    scan_append_of_emit (emitted more)]
  simp [Function.comp_def]

/-- Every text is settled up to a tail of at most two lexemes and no blank. -/
theorem exists_settles (text : String) :
    ∃ front tail, text = front ++ tail ∧ Settles front tail ∧
      (typeExpression.scan tail).length ≤ 2 ∧ ∀ b ∈ Utf8.bytes tail, ¬ isBlank b := by
  induction text using move_induction typeExpression with
  | finished => exact ⟨"", "", rfl, settles_empty "", by simp, by simp [Utf8.bytes]⟩
  | skip part rest skipped ih =>
      obtain ⟨front, tail, rfl, settles, short, noBlank⟩ := ih
      refine ⟨part ++ front, tail, String.append_assoc.symm, ?_, short, noBlank⟩
      exact settles.skip (isBlank_of_step_skip skipped)
  | emit part rest p emitted ih =>
      -- The lexeme is open as long as at most one more stands between it and the end.
      by_cases last : rest = "" ∨ typeExpression.scan rest = [⟨rest, 0⟩]
      · refine ⟨"", part ++ rest, String.empty_append.symm, settles_empty _, ?_, ?_⟩
        · rw [scan_of_emit emitted]
          rcases last with rfl | alone
          · simp
          · simp [alone]
        · rw [Utf8.bytes_append]
          intro b mem
          rcases List.mem_append.mp mem with mem | mem
          · exact not_isBlank_of_step_emit skipsBlanks_typeExpression emitted b mem
          · rcases last with rfl | alone
            · simp [Utf8.bytes] at mem
            · have inside : ⟨rest, 0⟩ ∈ typeExpression.scan rest := by simp [alone]
              exact not_isBlank_of_mem_scan skipsBlanks_typeExpression inside b mem
      · obtain ⟨front, tail, rfl, settles, short, noBlank⟩ := ih
        refine ⟨part ++ front, tail, String.append_assoc.symm, ?_, short, noBlank⟩
        refine settles.emit (p := p) fun more => ?_
        rcases step_append_or_glues emitted more with kept | ⟨empty, _⟩ | ⟨alone, _⟩
        · rwa [String.append_assoc] at kept
        · exact absurd (.inl empty) last
        · exact absurd (.inr alone) last

/-- Whatever is appended to a text, all its lexemes but the last two stay, and every
one behind which the text has a blank stays in its place. -/
theorem scan_append_keeps (a b : String) :
    (typeExpression.scan a).take ((typeExpression.scan a).length - 2) <+:
        typeExpression.scan (a ++ b) ∧
      ∀ (i : Nat) (l : Lexeme), (typeExpression.scan a)[i]? = some l →
        (∃ n x, l.stop ≤ n ∧ (Utf8.bytes a)[n]? = some x ∧ isBlank x) →
          (typeExpression.scan (a ++ b))[i]? = some l := by
  obtain ⟨front, tail, rfl, settles, short, noBlank⟩ := exists_settles a
  have whole := settles ""
  rw [String.append_empty] at whole
  rw [String.append_assoc, settles b]
  constructor
  · have within : (typeExpression.scan (front ++ tail)).length - 2 ≤
        (typeExpression.scan front).length := by
      rw [whole, List.length_append, List.length_map]
      omega
    rw [whole, List.take_append_of_le_length (whole ▸ within)]
    exact (List.take_prefix ..).trans (List.prefix_append ..)
  · rintro i l found ⟨n, x, behind, blankAt, blank⟩
    have before : n < front.utf8ByteSize := by
      apply Nat.lt_of_not_le
      intro beyond
      rw [Utf8.bytes_append, List.getElem?_append_right (by simpa using beyond)] at blankAt
      exact noBlank x (List.mem_of_getElem? blankAt) blank
    rw [whole] at found
    -- A lexeme of the tail would end behind the front.
    have inFront : i < (typeExpression.scan front).length := by
      apply Nat.lt_of_not_le
      intro beyond
      rw [List.getElem?_append_right beyond, List.getElem?_map,
        Option.map_eq_some_iff] at found
      obtain ⟨m, _, rfl⟩ := found
      rw [Lexeme.stop_shift] at behind
      omega
    rw [List.getElem?_append_left inFront] at found ⊢
    exact found

/-- The blank keeps `int` as it is, and the two lexemes behind it become one. -/
theorem scan_append_keeps_int :
    ((typeExpression.scan "int Foo\\")[0]? = some ⟨"int", 0⟩ ∧
      ∃ n x, 3 ≤ n ∧ (Utf8.bytes "int Foo\\")[n]? = some x ∧ isBlank x) ∧
    (typeExpression.scan ("int Foo\\" ++ "Bar"))[0]? = some ⟨"int", 0⟩ ∧
      typeExpression.scan ("int Foo\\" ++ "Bar") ≠ typeExpression.scan "int Foo\\" := by
  have found : (typeExpression.scan "int Foo\\")[0]? = some ⟨"int", 0⟩ := by decide +kernel
  have blank : ∃ n x, 3 ≤ n ∧ (Utf8.bytes "int Foo\\")[n]? = some x ∧ isBlank x :=
    ⟨3, 0x20, Nat.le_refl 3, by decide, by decide⟩
  refine ⟨⟨found, blank⟩, ?_, by decide +kernel⟩
  exact (scan_append_keeps "int Foo\\" "Bar").2 0 ⟨"int", 0⟩ found blank

end TypeExprLexer.PatternSet

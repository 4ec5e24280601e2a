import TypeExprLexer.Proofs.Lookahead
import TypeExprLexer.Tokenization

/-!
Cuts at the ends of lexemes.

A text may be cut in front of any lexeme, since a scan has no memory, and behind
any lexeme, since a move is decided by the bytes it takes. So the text from one
lexeme to another has exactly the lexemes between them
(`PatternSet.scan_of_slice`), and a lexeme scanned alone is one lexeme again.
-/

namespace TypeExprLexer.PatternSet

variable {P : PatternSet}

/-- What a move skips, it skips also where the text ends earlier. -/
theorem scan_append_of_skip {part rest more : String}
    (skipped : P.step (Utf8.bytes (part ++ (rest ++ more))) = .skip part.utf8ByteSize) :
    P.scan (part ++ rest) = (P.scan rest).map (Lexeme.shift part.utf8ByteSize) := by
  have same := step_append (ne_empty_of_step_skip skipped) (by rw [skipped]; rfl)
  exact scan_of_skip (same.trans skipped)

/-- What a move emits, it emits also where the text ends earlier. -/
theorem scan_append_of_emit {part rest more : String} {p : Option Pattern}
    (emitted : P.step (Utf8.bytes (part ++ (rest ++ more))) = .emit part.utf8ByteSize p) :
    P.scan (part ++ rest) = ⟨part, 0⟩ :: (P.scan rest).map (Lexeme.shift part.utf8ByteSize) := by
  have same := step_append (ne_empty_of_step_emit emitted) (by rw [emitted]; rfl)
  exact scan_of_emit (same.trans emitted)

/-- Alone, what a move emits is one lexeme. -/
theorem scan_of_emit_append {part more : String} {p : Option Pattern}
    (emitted : P.step (Utf8.bytes (part ++ more)) = .emit part.utf8ByteSize p) :
    P.scan part = [⟨part, 0⟩] := by
  have emitted : P.step (Utf8.bytes (part ++ ("" ++ more))) = .emit part.utf8ByteSize p := by
    rw [String.empty_append]
    exact emitted
  simpa using scan_append_of_emit emitted

theorem scan_of_mem_scan {text : String} {l : Lexeme} (mem : l ∈ P.scan text) :
    P.scan l.text = [⟨l.text, 0⟩] := by
  obtain ⟨_, _, _, _, _, emitted⟩ := exists_emit_of_mem_scan mem
  exact scan_of_emit_append emitted

/-- The text up to the end of a lexeme has the lexemes up to this one. -/
theorem exists_scan_eq_take {text : String} {j : Nat} {l : Lexeme}
    (found : (P.scan text)[j]? = some l) :
    ∃ kept dropped, text = kept ++ dropped ∧ kept.utf8ByteSize = l.stop ∧
      P.scan kept = (P.scan text).take (j + 1) := by
  induction text using move_induction P generalizing j l with
  | finished => simp at found
  | skip part rest skipped ih =>
      rw [scan_of_skip skipped, List.getElem?_map, Option.map_eq_some_iff] at found
      obtain ⟨m, found, rfl⟩ := found
      obtain ⟨kept, dropped, rfl, size, same⟩ := ih found
      refine ⟨part ++ kept, dropped, String.append_assoc.symm, ?_, ?_⟩
      · simp [size]
      · rw [scan_append_of_skip skipped, scan_of_skip skipped, same, List.map_take]
  | emit part rest p emitted ih =>
      rw [scan_of_emit emitted] at found ⊢
      cases j with
      | zero =>
          cases found
          refine ⟨part, rest, rfl, (Nat.zero_add _).symm, ?_⟩
          rw [scan_of_emit_append emitted]
          rfl
      | succ j =>
          rw [List.getElem?_cons_succ, List.getElem?_map, Option.map_eq_some_iff] at found
          obtain ⟨m, found, rfl⟩ := found
          obtain ⟨kept, dropped, rfl, size, same⟩ := ih found
          refine ⟨part ++ kept, dropped, String.append_assoc.symm, ?_, ?_⟩
          · simp [size]
          · rw [scan_append_of_emit emitted, same, List.take_succ_cons, List.map_take]

/-- The text from a lexeme on has the lexemes from this one on. -/
theorem exists_scan_eq_drop {text : String} {i : Nat} {l : Lexeme}
    (found : (P.scan text)[i]? = some l) :
    ∃ before after, text = before ++ after ∧ before.utf8ByteSize = l.offset ∧
      (P.scan after).map (Lexeme.shift l.offset) = (P.scan text).drop i := by
  induction text using move_induction P generalizing i l with
  | finished => simp at found
  | skip part rest skipped ih =>
      rw [scan_of_skip skipped, List.getElem?_map, Option.map_eq_some_iff] at found
      obtain ⟨m, found, rfl⟩ := found
      obtain ⟨before, after, rfl, size, same⟩ := ih found
      refine ⟨part ++ before, after, String.append_assoc.symm, ?_, ?_⟩
      · simp [size]
      · rw [scan_of_skip skipped, ← List.map_drop, ← same]
        simp [Function.comp_def]
  | emit part rest p emitted ih =>
      cases i with
      | zero =>
          rw [scan_of_emit emitted] at found
          cases found
          exact ⟨"", part ++ rest, String.empty_append.symm, rfl, by simp⟩
      | succ i =>
          rw [scan_of_emit emitted, List.getElem?_cons_succ, List.getElem?_map,
            Option.map_eq_some_iff] at found
          obtain ⟨m, found, rfl⟩ := found
          obtain ⟨before, after, rfl, size, same⟩ := ih found
          refine ⟨part ++ before, after, String.append_assoc.symm, ?_, ?_⟩
          · simp [size]
          · rw [scan_of_emit emitted, List.drop_succ_cons, ← List.map_drop, ← same]
            simp [Function.comp_def]

/-- The text from one lexeme to the end of another has the lexemes from the one
to the other, at the offsets they have there. A lexeme alone is one lexeme, and
one token of the same kind. -/
theorem scan_of_slice (P : PatternSet) (text : String) :
    (∀ i j l m, i ≤ j → (P.scan text)[i]? = some l → (P.scan text)[j]? = some m →
      ∃ part, Utf8.slice? text l.offset m.stop = some part ∧
        (P.scan part).map (Lexeme.shift l.offset) = ((P.scan text).drop i).take (j + 1 - i)) ∧
    (∀ l ∈ P.scan text, P.scan l.text = [⟨l.text, 0⟩]) ∧
    ∀ (v : Vocabulary) (t : Token), t ∈ v.tokenize text →
      v.tokenize t.lexeme = [⟨t.kind, t.lexeme, 0⟩] := by
  refine ⟨?_, ?_, ?_⟩
  · intro i j l m ordered first last
    obtain ⟨before, after, rfl, size, behind⟩ := exists_scan_eq_drop first
    have inside : ((P.scan after).map (Lexeme.shift l.offset))[j - i]? = some m := by
      rw [behind, List.getElem?_drop, Nat.add_sub_cancel' ordered]
      exact last
    rw [List.getElem?_map, Option.map_eq_some_iff] at inside
    obtain ⟨k, inside, rfl⟩ := inside
    obtain ⟨part, rest, rfl, stop, same⟩ := exists_scan_eq_take inside
    refine ⟨part, ?_, ?_⟩
    · have cut := Utf8.slice?_append before part rest
      rw [String.append_assoc, size, stop] at cut
      rw [Lexeme.stop_shift]
      exact cut
    · rw [same, ← behind, List.map_take, Nat.sub_add_comm ordered]
  · intro l mem
    exact scan_of_mem_scan mem
  · intro v t mem
    obtain ⟨l, found, rfl⟩ := List.mem_map.mp mem
    show (typeExpression.scan l.text).map v.token = _
    rw [scan_of_mem_scan found]
    rfl

/-- The third and the fourth lexeme of a text, cut out of it. -/
theorem scan_of_slice_inner :
    (∃ part, Utf8.slice? "int|Foo\\1 x" 4 9 = some part ∧
      (typeExpression.scan part).map (Lexeme.shift 4) = [⟨"Foo", 4⟩, ⟨"\\1", 7⟩]) ∧
    typeExpression.scan "\\1" = [⟨"\\1", 0⟩] ∧
    Vocabulary.standard.tokenize "int" = [⟨.pseudoType, "int", 0⟩] := by
  obtain ⟨slices, alone, token⟩ := scan_of_slice typeExpression "int|Foo\\1 x"
  have lexemes : typeExpression.scan "int|Foo\\1 x" =
      [⟨"int", 0⟩, ⟨"|", 3⟩, ⟨"Foo", 4⟩, ⟨"\\1", 7⟩, ⟨"x", 10⟩] := by
    decide +kernel
  rw [lexemes] at slices alone
  refine ⟨?_, ?_, ?_⟩
  · exact slices 2 3 ⟨"Foo", 4⟩ ⟨"\\1", 7⟩ (by decide) rfl rfl
  · exact alone ⟨"\\1", 7⟩ (by decide)
  · exact token Vocabulary.standard ⟨.pseudoType, "int", 0⟩ (by decide +kernel)

end TypeExprLexer.PatternSet

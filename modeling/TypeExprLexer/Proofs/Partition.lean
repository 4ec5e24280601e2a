import TypeExprLexer.Proofs.Blanks

/-!
Lexemes partition a text.

Whatever the patterns, a scan ends, and its lexemes are non-empty pieces of the
text between characters, one behind the other, with nothing but blanks left out
(`PatternSet.scan_partitions`). If the pattern set passes over blanks, no lexeme
has any; otherwise nothing is left out at all.
-/

namespace TypeExprLexer

open ByteClass

namespace PatternSet

/-! ### The run to the end -/

/-- Taking one lexeme after another from a cursor gives these, and then none. -/
inductive Drains (P : PatternSet) : Cursor → List Catch → Prop where
  | ended {c : Cursor} : P.next? c = none → Drains P c []
  | more {c d : Cursor} {l : Catch} {ls : List Catch} : P.next? c = some (l, d) → Drains P d ls →
      Drains P c (l :: ls)

theorem drains_catchesFrom (P : PatternSet) (c : Cursor) : P.Drains c (P.catchesFrom c) := by
  cases next : P.next? c with
  | none =>
      rw [catchesFrom_of_next?_eq_none next]
      exact .ended next
  | some found =>
      obtain ⟨l, d⟩ := found
      have := next?_lt next
      rw [catchesFrom_of_next?_eq_some next]
      exact .more next (drains_catchesFrom P d)
termination_by c.rest.length

end PatternSet

/-! ### The partition -/

/-- Lexemes that are pieces of a text between characters, one behind the other,
with only blanks left out. -/
structure Lexeme.Partition (text : String) (lexemes : List Lexeme) : Prop where
  nonempty : ∀ l ∈ lexemes, l.text ≠ ""
  inPlace : ∀ l ∈ lexemes,
    ((Utf8.bytes text).drop l.offset).take l.text.utf8ByteSize = Utf8.bytes l.text
  boundaries : ∀ l ∈ lexemes,
    Utf8.IsBoundary text.toList l.offset ∧ Utf8.IsBoundary text.toList l.stop
  ordered : lexemes.Pairwise fun l m => l.stop ≤ m.offset
  gaps : ∀ n b, (Utf8.bytes text)[n]? = some b →
    (∀ l ∈ lexemes, n < l.offset ∨ l.stop ≤ n) → isBlank b

namespace PatternSet

variable {P : PatternSet}

theorem pairwise_scan (P : PatternSet) (text : String) :
    (P.scan text).Pairwise fun l m => l.stop ≤ m.offset := by
  induction text using move_induction P with
  | finished => simp
  | skip part rest skipped ih =>
      rw [scan_of_skip skipped, List.pairwise_map]
      simpa using ih
  | emit part rest p emitted ih =>
      rw [scan_of_emit emitted, List.pairwise_cons, List.pairwise_map]
      refine ⟨?_, by simpa using ih⟩
      intro l mem
      obtain ⟨m, _, rfl⟩ := List.mem_map.mp mem
      simp [Lexeme.stop]

/-- A byte that no lexeme covers is a blank. -/
theorem isBlank_of_gap {text : String} {n : Nat} {b : UInt8} (found : (Utf8.bytes text)[n]? = some b)
    (gap : ∀ l ∈ P.scan text, n < l.offset ∨ l.stop ≤ n) : isBlank b := by
  induction text using move_induction P generalizing n with
  | finished => cases found
  | skip part rest skipped ih =>
      rw [Utf8.bytes_append] at found
      by_cases inside : n < (Utf8.bytes part).length
      · rw [List.getElem?_append_left inside] at found
        exact isBlank_of_step_skip skipped b (List.mem_of_getElem? found)
      · rw [List.getElem?_append_right (Nat.le_of_not_lt inside)] at found
        apply ih found
        intro l mem
        have := gap (l.shift part.utf8ByteSize)
          (by rw [scan_of_skip skipped]; exact List.mem_map_of_mem mem)
        simp only [Utf8.length_bytes, Lexeme.offset_shift, Lexeme.stop_shift] at this inside ⊢
        omega
  | emit part rest p emitted ih =>
      rw [scan_of_emit emitted] at gap
      obtain ⟨outside, gap⟩ := List.forall_mem_cons.mp gap
      have beyond : part.utf8ByteSize ≤ n := by
        rcases outside with before | behind
        · cases before
        · simpa [Lexeme.stop] using behind
      rw [Utf8.bytes_append, List.getElem?_append_right (by simpa using beyond)] at found
      apply ih found
      intro l mem
      have := gap (l.shift part.utf8ByteSize) (List.mem_map_of_mem mem)
      simp only [Utf8.length_bytes, Lexeme.offset_shift, Lexeme.stop_shift] at this ⊢
      omega

theorem partition_scan (P : PatternSet) (text : String) : Lexeme.Partition text (P.scan text) where
  nonempty l mem := by
    obtain ⟨_, _, _, _, _, emitted⟩ := exists_emit_of_mem_scan mem
    exact ne_empty_of_step_emit emitted
  inPlace l mem := by
    obtain ⟨before, after, _, same, size, _⟩ := exists_emit_of_mem_scan mem
    rw [same, Utf8.bytes_append, Utf8.bytes_append, ← size, ← Utf8.length_bytes before,
      List.drop_left, ← Utf8.length_bytes, List.take_left]
  boundaries l mem := by
    obtain ⟨before, after, _, same, size, _⟩ := exists_emit_of_mem_scan mem
    have upTo : text = before ++ l.text ++ after := by rw [same, String.append_assoc]
    rw [Lexeme.stop, ← size, ← String.utf8ByteSize_append]
    exact ⟨Utf8.isBoundary_of_eq_append same, Utf8.isBoundary_of_eq_append upTo⟩
  ordered := pairwise_scan P text
  gaps _ _ := isBlank_of_gap

theorem flatMap_scan_of_skipsBlanks (skips : P.SkipsBlanks) (text : String) :
    (P.scan text).flatMap (fun l => Utf8.bytes l.text) =
      (Utf8.bytes text).filter fun b => !isBlank b := by
  induction text using move_induction P with
  | finished => simp [Utf8.bytes]
  | skip part rest skipped ih =>
      have blank : (Utf8.bytes part).filter (fun b => !isBlank b) = [] := by
        simpa using isBlank_of_step_skip skipped
      rw [scan_of_skip skipped, List.flatMap_map, Utf8.bytes_append, List.filter_append, blank]
      exact ih
  | emit part rest p emitted ih =>
      have others : (Utf8.bytes part).filter (fun b => !isBlank b) = Utf8.bytes part := by
        simpa using not_isBlank_of_step_emit skips emitted
      rw [scan_of_emit emitted, List.flatMap_cons, List.flatMap_map, Utf8.bytes_append,
        List.filter_append, others]
      exact congrArg _ ih

theorem flatMap_scan_of_not_skipsBlanks (catchesAll : ¬ P.SkipsBlanks) (text : String) :
    (P.scan text).flatMap (fun l => Utf8.bytes l.text) = Utf8.bytes text := by
  induction text using move_induction P with
  | finished => simp [Utf8.bytes]
  | skip part rest skipped ih => exact absurd (skipsBlanks_of_step_skip skipped) catchesAll
  | emit part rest p emitted ih =>
      rw [scan_of_emit emitted, List.flatMap_cons, List.flatMap_map, Utf8.bytes_append]
      exact congrArg _ ih

/-- A scan ends, and its lexemes partition the text. If the pattern set passes
over blanks, no lexeme has one and all other bytes are kept; if it does not, every
byte is kept. -/
theorem scan_partitions (P : PatternSet) (text : String) :
    P.Drains (.ofText text) (P.catches text) ∧ Lexeme.Partition text (P.scan text) ∧
      (P.SkipsBlanks →
        (∀ l ∈ P.scan text, ∀ b ∈ Utf8.bytes l.text, ¬ isBlank b) ∧
          (P.scan text).flatMap (fun l => Utf8.bytes l.text) =
            (Utf8.bytes text).filter fun b => !isBlank b) ∧
      (¬ P.SkipsBlanks →
        (P.scan text).flatMap (fun l => Utf8.bytes l.text) = Utf8.bytes text) := by
  refine ⟨drains_catchesFrom P _, partition_scan P text, ?_, ?_⟩
  · intro skips
    refine ⟨?_, flatMap_scan_of_skipsBlanks skips text⟩
    intro l mem
    obtain ⟨_, _, _, _, _, emitted⟩ := exists_emit_of_mem_scan mem
    exact not_isBlank_of_step_emit skips emitted
  · intro catchesAll
    exact flatMap_scan_of_not_skipsBlanks catchesAll text

/-- Blanks are left out of a type expression, but not where runs of them are
lexemes. -/
theorem scan_partitions_blanks :
    (typeExpression.SkipsBlanks ∧
      (typeExpression.scan " Foo |\t$this").flatMap (fun l => Utf8.bytes l.text) =
        Utf8.bytes "Foo|$this") ∧
    ¬ PatternSet.SkipsBlanks ⟨[.blanks], []⟩ ∧
      (PatternSet.scan ⟨[.blanks], []⟩ " Foo |\t$this").flatMap (fun l => Utf8.bytes l.text) =
        Utf8.bytes " Foo |\t$this" := by
  have skips := skipsBlanks_typeExpression
  have catchesAll : ¬ PatternSet.SkipsBlanks ⟨[.blanks], []⟩ := by decide
  refine ⟨⟨skips, ?_⟩, catchesAll, ?_⟩
  · rw [((scan_partitions typeExpression " Foo |\t$this").2.2.1 skips).2]
    decide
  · exact (scan_partitions ⟨[.blanks], []⟩ " Foo |\t$this").2.2.2 catchesAll

end PatternSet

end TypeExprLexer

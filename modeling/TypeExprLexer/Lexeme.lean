import TypeExprLexer.Cursor
import TypeExprLexer.Pattern

/-!
Cutting a text into lexemes.

`nextLexeme` takes one lexeme off a cursor and passes over the blanks before it, and
leaves the cursor behind them; where no lexeme is left, that is the end of the text
(`rest_eq_nil_of_nextLexeme_fst`). `next?` forgets that last cursor. `catchesFrom`
takes all lexemes, and `catchesFrom_eq` is the one equation from which everything
about a scan follows. A scan has no memory: what it does at a cursor depends on the
bytes ahead alone. It ends because each lexeme and each run of blanks leaves fewer
bytes (`next?_lt`).
-/

namespace TypeExprLexer

/-- A piece of a text with the byte offset at which it stands. -/
structure Lexeme where
  text : String
  offset : Nat
deriving DecidableEq, Repr

/-- The byte offset just past a lexeme. -/
def Lexeme.stop (l : Lexeme) : Nat :=
  l.offset + l.text.utf8ByteSize

/-- A lexeme with the pattern that took it, or none where a character was taken
because nothing matched. -/
structure Catch where
  lexeme : Lexeme
  pattern : Option Pattern
deriving DecidableEq, Repr

/-- The lexeme of the next `n` bytes. -/
def Cursor.lexeme (c : Cursor) (n : Nat) : Lexeme where
  text := (c.advanceBy n).sliceFrom c.pos
  offset := c.pos

namespace PatternSet

theorem rest_advanceBy_lt {P : PatternSet} {c : Cursor} {n : Nat}
    (unfinished : P.step c.rest ≠ .finished) (pos : 0 < n) :
    (c.advanceBy n).rest.length < c.rest.length := by
  have ahead : c.rest ≠ [] := mt step_eq_finished_iff.mpr unfinished
  have := List.length_pos_iff.mpr ahead
  simp only [Cursor.rest_advanceBy, List.length_drop]
  omega

theorem rest_skip_lt {P : PatternSet} {c : Cursor} {n : Nat} (skipped : P.step c.rest = .skip n) :
    (c.advanceBy n).rest.length < c.rest.length :=
  rest_advanceBy_lt (by rw [skipped]; nofun) (step_skip_pos skipped)

theorem rest_emit_lt {P : PatternSet} {c : Cursor} {n : Nat} {p : Option Pattern}
    (emitted : P.step c.rest = .emit n p) : (c.advanceBy n).rest.length < c.rest.length :=
  rest_advanceBy_lt (by rw [emitted]; nofun) (step_emit_pos emitted)

/-- The next lexeme at a cursor, and where the cursor stands then: behind the lexeme, or
at the end if only blanks that are not caught are ahead. -/
def nextLexeme (P : PatternSet) (c : Cursor) : Option Catch × Cursor :=
  match h : P.step c.rest with
  | .finished => (none, c)
  | .skip n =>
      have := rest_skip_lt h
      nextLexeme P (c.advanceBy n)
  | .emit n pattern => (some ⟨c.lexeme n, pattern⟩, c.advanceBy n)
termination_by c.rest.length
decreasing_by exact this

theorem nextLexeme_eq (P : PatternSet) (c : Cursor) :
    P.nextLexeme c =
      match P.step c.rest with
      | .finished => (none, c)
      | .skip n => P.nextLexeme (c.advanceBy n)
      | .emit n pattern => (some ⟨c.lexeme n, pattern⟩, c.advanceBy n) := by
  rw [nextLexeme]
  split
  · next finished => simp only [finished]
  · next skipped => simp only [skipped]
  · next emitted => simp only [emitted]

/-- A cursor that gives no lexeme is left at the end. -/
theorem rest_eq_nil_of_nextLexeme_fst {P : PatternSet} {c : Cursor}
    (ended : (P.nextLexeme c).1 = none) : (P.nextLexeme c).2.rest = [] := by
  fun_induction nextLexeme P c with
  | case1 c finished => exact step_eq_finished_iff.mp finished
  | case2 c n skipped shorter ih => exact ih ended
  | case3 c n pattern emitted => cases ended

/-- The next lexeme at a cursor and the cursor behind it, if there is one. -/
def next? (P : PatternSet) (c : Cursor) : Option (Catch × Cursor) :=
  match P.nextLexeme c with
  | (none, _) => none
  | (some l, d) => some (l, d)

theorem next?_eq_none_iff {P : PatternSet} {c : Cursor} :
    P.next? c = none ↔ (P.nextLexeme c).1 = none := by
  rw [next?]
  split
  · next found => simp [found]
  · next found => simp [found]

theorem next?_eq_some_iff {P : PatternSet} {c d : Cursor} {l : Catch} :
    P.next? c = some (l, d) ↔ P.nextLexeme c = (some l, d) := by
  rw [next?]
  split
  · next found => simp [found]
  · next found => simp [found]

theorem next?_eq (P : PatternSet) (c : Cursor) :
    P.next? c =
      match P.step c.rest with
      | .finished => none
      | .skip n => P.next? (c.advanceBy n)
      | .emit n pattern => some (⟨c.lexeme n, pattern⟩, c.advanceBy n) := by
  rw [next?, nextLexeme_eq]
  cases P.step c.rest <;> rfl

theorem next?_lt {P : PatternSet} {c d : Cursor} {l : Catch} (more : P.next? c = some (l, d)) :
    d.rest.length < c.rest.length := by
  rw [next?_eq_some_iff] at more
  fun_induction nextLexeme P c with
  | case1 c finished => cases more
  | case2 c n skipped shorter ih => exact Nat.lt_trans (ih more) shorter
  | case3 c n pattern emitted =>
      cases more
      exact rest_emit_lt emitted

/-- All lexemes from a cursor on, with the patterns that took them. -/
def catchesFrom (P : PatternSet) (c : Cursor) : List Catch :=
  match h : P.next? c with
  | none => []
  | some (l, d) =>
      have := next?_lt h
      l :: P.catchesFrom d
termination_by c.rest.length
decreasing_by exact this

theorem catchesFrom_of_next?_eq_none {P : PatternSet} {c : Cursor} (ended : P.next? c = none) :
    P.catchesFrom c = [] := by
  rw [catchesFrom]
  split
  · rfl
  · next found => rw [ended] at found; cases found

theorem catchesFrom_of_next?_eq_some {P : PatternSet} {c d : Cursor} {l : Catch}
    (more : P.next? c = some (l, d)) : P.catchesFrom c = l :: P.catchesFrom d := by
  rw [catchesFrom]
  split
  · next found => rw [more] at found; cases found
  · next found => rw [more] at found; cases found; rfl

/-- A scan does at each place what the step there says, and goes on behind it. -/
theorem catchesFrom_eq (P : PatternSet) (c : Cursor) :
    P.catchesFrom c =
      match P.step c.rest with
      | .finished => []
      | .skip n => P.catchesFrom (c.advanceBy n)
      | .emit n pattern => ⟨c.lexeme n, pattern⟩ :: P.catchesFrom (c.advanceBy n) := by
  have next := next?_eq P c
  cases step : P.step c.rest with
  | finished =>
      rw [step] at next
      exact catchesFrom_of_next?_eq_none next
  | skip n =>
      rw [step] at next
      cases found : P.next? (c.advanceBy n) with
      | none =>
          rw [catchesFrom_of_next?_eq_none (next.trans found)]
          exact (catchesFrom_of_next?_eq_none found).symm
      | some more =>
          rw [catchesFrom_of_next?_eq_some (next.trans found)]
          exact (catchesFrom_of_next?_eq_some found).symm
  | emit n pattern =>
      rw [step] at next
      exact catchesFrom_of_next?_eq_some next

theorem catchesFrom_of_rest_eq_nil (P : PatternSet) {c : Cursor} (atEnd : c.rest = []) :
    P.catchesFrom c = [] := by
  rw [catchesFrom_eq, step_eq_finished_iff.mpr atEnd]

/-- All lexemes of a text, with the patterns that took them. -/
def catches (P : PatternSet) (text : String) : List Catch :=
  P.catchesFrom (.ofText text)

/-- All lexemes of a text. -/
def scan (P : PatternSet) (text : String) : List Lexeme :=
  (P.catches text).map Catch.lexeme

end PatternSet

end TypeExprLexer

import TypeExprLexer.Tokenization

/-!
Tokens on demand.

A token source scans only as far as it is asked to. Its view is the list of
tokens that it still has (`remaining`): taking one gives the head of that list
(`next_fst`) and leaves the tail (`remaining_next`), so an exhausted source stays
exhausted. `pulls` takes from several sources in any order.
-/

namespace TypeExprLexer

/-- A text that is being tokenized, with the place up to which it was. -/
structure TokenSource where
  vocabulary : Vocabulary
  cursor : Cursor

namespace TokenSource

/-- The source at the start of a text. -/
def ofText (v : Vocabulary) (text : String) : TokenSource where
  vocabulary := v
  cursor := .ofText text

/-- Takes the next token, if there is one, and moves on. -/
def next (s : TokenSource) : Option Token × TokenSource :=
  let (lexeme, cursor) := PatternSet.typeExpression.nextLexeme s.cursor
  (lexeme.map fun c => s.vocabulary.token c.lexeme, { s with cursor })

/-- The tokens still to come. -/
def remaining (s : TokenSource) : List Token :=
  (PatternSet.typeExpression.catchesFrom s.cursor).map fun c => s.vocabulary.token c.lexeme

theorem remaining_ofText (v : Vocabulary) (text : String) :
    (ofText v text).remaining = v.tokenize text := by
  simp [remaining, ofText, Vocabulary.tokenize, PatternSet.scan, PatternSet.catches]

theorem next_fst (s : TokenSource) : s.next.1 = s.remaining.head? := by
  cases more : PatternSet.typeExpression.next? s.cursor with
  | none =>
      have ended := PatternSet.next?_eq_none_iff.mp more
      simp [next, remaining, ended, PatternSet.catchesFrom_of_next?_eq_none more]
  | some found =>
      have taken := PatternSet.next?_eq_some_iff.mp more
      simp [next, remaining, taken, PatternSet.catchesFrom_of_next?_eq_some more]

/-- Blanks behind the last token are passed over when no further token is found, and what
is left has no tokens either. -/
theorem remaining_next (s : TokenSource) : s.next.2.remaining = s.remaining.tail := by
  cases more : PatternSet.typeExpression.next? s.cursor with
  | none =>
      have ended := PatternSet.next?_eq_none_iff.mp more
      have atEnd := PatternSet.rest_eq_nil_of_nextLexeme_fst ended
      have noMore := PatternSet.catchesFrom_of_rest_eq_nil PatternSet.typeExpression atEnd
      simp [next, remaining, noMore, PatternSet.catchesFrom_of_next?_eq_none more]
  | some found =>
      have taken := PatternSet.next?_eq_some_iff.mp more
      simp [next, remaining, taken, PatternSet.catchesFrom_of_next?_eq_some more]

/-- A token that is taken is that of the next lexeme, and the source goes on behind it. -/
theorem exists_next?_of_next {s further : TokenSource} {t : Token}
    (more : s.next = (some t, further)) :
    ∃ l, PatternSet.typeExpression.next? s.cursor = some (l, further.cursor) ∧
      t = s.vocabulary.token l.lexeme ∧ further.vocabulary = s.vocabulary := by
  cases found : PatternSet.typeExpression.nextLexeme s.cursor with
  | mk caught behind =>
      simp only [next, found, Prod.mk.injEq] at more
      obtain ⟨taken, rfl⟩ := more
      obtain ⟨l, rfl, rfl⟩ := Option.map_eq_some_iff.mp taken
      exact ⟨l, PatternSet.next?_eq_some_iff.mpr found, rfl, rfl⟩

theorem rest_next_lt {s further : TokenSource} {t : Token} (more : s.next = (some t, further)) :
    further.cursor.rest.length < s.cursor.rest.length := by
  obtain ⟨l, found, _⟩ := exists_next?_of_next more
  exact PatternSet.next?_lt found

/-- Takes one token from the source of each number of a schedule, in turn. A
number without a source gives none. -/
def pulls (sources : List TokenSource) : List Nat → List (Option Token)
  | [] => []
  | k :: schedule =>
      match sources[k]? with
      | none => none :: pulls sources schedule
      | some s => s.next.1 :: pulls (sources.set k s.next.2) schedule

theorem length_pulls (sources : List TokenSource) (schedule : List Nat) :
    (pulls sources schedule).length = schedule.length := by
  induction schedule generalizing sources with
  | nil => rfl
  | cons k schedule ih =>
      rw [pulls]
      split
      · exact congrArg (· + 1) (ih _)
      · exact congrArg (· + 1) (ih _)

end TokenSource

end TypeExprLexer

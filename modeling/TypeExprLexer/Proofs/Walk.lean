import TypeExprLexer.Proofs.Coherence

/-!
A walk to the end of a stream.

A parser that moves as long as there is a lookahead, and notes the token consumed at each
move, notes the tokens from its place on, each once and in their order, wherever it looks
around between the calls (`TokenStream.walk_eq_drop`). The answer of a move tells the last token
and the end: it is false for the move that consumes the last token and for all moves after
it, which leave no token current (`TokenStream.walk_run`).
-/

namespace TypeExprLexer

/-- What a walk looks at in one round. -/
structure Round where
  /-- Before it asks for a lookahead. -/
  asking : Looks
  /-- Between that and the move. -/
  moving : Looks
  /-- Between the move and noting the token consumed. -/
  noting : Looks

namespace TokenStream

variable {s : TokenStream}

/-- The stream when a round notes the token consumed. -/
def afterRound (s : TokenStream) (r : Round) : TokenStream :=
  ((s.look r.asking).look r.moving).moveNext.2.look r.noting

theorem tokens_afterRound (s : TokenStream) (r : Round) : (s.afterRound r).tokens = s.tokens := by
  rw [afterRound, tokens_look, moveNext_look, moveNext_look]
  exact s.tokens_advance

theorem position_afterRound (more : s.position < s.tokens.size) (r : Round) :
    (s.afterRound r).position = s.position + 1 := by
  rw [afterRound, position_look, moveNext_look, moveNext_look]
  exact position_advance more

theorem token_afterRound {t : Token} (ahead : s.lookahead = some t) (r : Round) :
    (s.afterRound r).token = some t := by
  obtain ⟨more, found⟩ := lookahead_eq_some_iff.mp ahead
  rw [afterRound, token_look, moveNext_look, moveNext_look, moveNext, advance, if_pos more]
  exact ahead

theorem ahead_afterRound_lt (more : s.lookahead.isSome) (r : Round) :
    (s.afterRound r).tokens.size - (s.afterRound r).position < s.tokens.size - s.position := by
  obtain ⟨t, ahead⟩ := Option.isSome_iff_exists.mp more
  obtain ⟨within, _⟩ := lookahead_eq_some_iff.mp ahead
  rw [tokens_afterRound, position_afterRound within]
  omega

/-- Moves as long as there is a lookahead and notes the token consumed at each move. What is
looked at in each round is given. -/
def walk (s : TokenStream) (rounds : Nat → Round) : List (Option Token) × TokenStream :=
  if more : (s.look (rounds 0).asking).lookahead.isSome then
    have := ahead_afterRound_lt (lookahead_look .. ▸ more) (rounds 0)
    let rest := (s.afterRound (rounds 0)).walk fun n => rounds (n + 1)
    ((s.afterRound (rounds 0)).token :: rest.1, rest.2)
  else
    ([], s.look (rounds 0).asking)
termination_by s.tokens.size - s.position

/-! ### What a walk notes -/

theorem drop_position_of_lookahead_eq_some {t : Token} (ahead : s.lookahead = some t) :
    s.tokens.toList.drop s.position = t :: s.tokens.toList.drop (s.position + 1) := by
  obtain ⟨more, rfl⟩ := lookahead_eq_some_iff.mp ahead
  exact List.drop_eq_getElem_cons more

theorem drop_position_of_lookahead_eq_none (ended : s.lookahead = none) :
    s.tokens.toList.drop s.position = [] :=
  List.drop_eq_nil_of_le (Array.getElem?_eq_none_iff.mp ended)

/-- A walk notes the tokens from the lookahead on and ends behind the last one. -/
theorem walk_eq_drop (s : TokenStream) (rounds : Nat → Round) :
    (s.walk rounds).1 = (s.tokens.toList.drop s.position).map some ∧
      (s.walk rounds).2.position = max s.position s.tokens.size := by
  fun_induction walk s rounds with
  | case1 s rounds more _ rest ih =>
      rw [lookahead_look] at more
      obtain ⟨t, ahead⟩ := Option.isSome_iff_exists.mp more
      obtain ⟨inside, _⟩ := lookahead_eq_some_iff.mp ahead
      obtain ⟨noted, place⟩ := ih
      rw [tokens_afterRound, position_afterRound inside] at noted place
      rw [drop_position_of_lookahead_eq_some ahead, token_afterRound ahead]
      refine ⟨congrArg (some t :: ·) noted, place.trans ?_⟩
      rw [Nat.max_eq_right inside, Nat.max_eq_right (Nat.le_of_lt inside)]
  | case2 s rounds ended =>
      rw [lookahead_look, Option.not_isSome_iff_eq_none] at ended
      have past : s.tokens.size ≤ s.position := Array.getElem?_eq_none_iff.mp ended
      rw [drop_position_of_lookahead_eq_none ended, Nat.max_eq_left past]
      exact ⟨rfl, position_look ..⟩

/-! ### What a move answers -/

theorem moveNext_fst_eq_false_iff (within : s.position ≤ s.size) :
    s.moveNext.1 = false ↔ s.size ≤ s.position + 1 := by
  have answer : s.moveNext.1 = false ↔ s.size ≤ s.advance.position := by
    rw [moveNext, Option.isSome_eq_false_iff, Option.isNone_iff_eq_none, lookahead, tokens_advance]
    exact Array.getElem?_eq_none_iff
  rw [answer, position_advance_eq_min within]
  omega

theorem moveNext_snd_of_ended (ended : s.size ≤ s.position) :
    s.moveNext.2 = { s with consumed := none, peeked := 0 } :=
  if_neg (Nat.not_lt.mpr ended)

/-- In every session, a walk notes the tokens from the lookahead on, one in each round and
all of them, whatever is looked at in between, and ends behind the last one. With looks
between the moves, a move answers that there is no further token just if it consumes the
last one or follows such a move, and if it follows one it leaves no token current and the
stream at the end. -/
theorem walk_run (input : String) (tokens : Array Token) (session : List Operation)
    (rounds : Nat → Round) :
    let s := (ofTokens input tokens).run session
    (s.walk rounds).1 = (tokens.toList.drop s.position).map some ∧
      (s.walk rounds).1.length = tokens.size - s.position ∧
      (s.walk rounds).2.position = tokens.size ∧
      ∀ further : List Operation, (∀ o ∈ further, o = .moveNext ∨ o.isLook) →
        let t := s.run further
        (t.moveNext.1 = false ↔ tokens.size ≤ s.position + further.count .moveNext + 1) ∧
          (tokens.size ≤ s.position + further.count .moveNext →
            t.moveNext.2.token = none ∧ t.moveNext.2.position = tokens.size) := by
  intro s
  have coherent : s.Coherent := (coherent_ofTokens input tokens).run session
  have kept : s.tokens = tokens := tokens_run _ session
  obtain ⟨noted, place⟩ := s.walk_eq_drop rounds
  rw [← kept]
  refine ⟨noted, ?_, place.trans (Nat.max_eq_right coherent.position_le), ?_⟩
  · rw [noted, List.length_map, List.length_drop, Array.length_toList]
  · intro further onward t
    have size : t.size = s.size := s.size_run further
    have place : t.position = min (s.position + further.count .moveNext) s.size :=
      position_run_of_onward onward coherent.position_le
    have within : t.position ≤ t.size := (coherent.run further).position_le
    constructor
    · rw [moveNext_fst_eq_false_iff within, size, place, TokenStream.size]
      omega
    · intro past
      have ended : t.position = s.size := place.trans (Nat.min_eq_right past)
      rw [moveNext_snd_of_ended (Nat.le_of_eq (size.trans ended.symm))]
      exact ⟨rfl, ended⟩

end TokenStream

end TypeExprLexer

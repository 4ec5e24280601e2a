import TypeExprLexer.Navigation

/-!
Where a stream can stand.

A stream keeps three places: the lookahead, the token consumed last and how far was
peeked. In every session they stay tied to one another (`TokenStream.Coherent`): the
token consumed last is the one in front of the lookahead, none is missing but at the
start and at the end, and no peek went past the end. `TokenStream.coherent_run` says
so for all sessions, and nothing more can be said: every such stream is one that a
session leads to (`TokenStream.coherent_iff_exists_session`).
-/

namespace TypeExprLexer.TokenStream

/-- How the places of a stream are tied to one another. -/
structure Coherent (s : TokenStream) : Prop where
  position_le : s.position ≤ s.size
  consumed_succ : ∀ i, s.consumed = some i → i + 1 = s.position
  position_of_none : s.consumed = none → s.position = 0 ∨ s.position = s.size
  peeked_le : s.peeked = 0 ∨ s.position + 1 + s.peeked ≤ s.size

theorem coherent_ofTokens (input : String) (tokens : Array Token) :
    (ofTokens input tokens).Coherent where
  position_le := Nat.zero_le _
  consumed_succ := nofun
  position_of_none _ := .inl rfl
  peeked_le := .inl rfl

namespace Coherent

variable {s : TokenStream}

/-! ### What an operation keeps -/

theorem advance (h : s.Coherent) : s.advance.Coherent := by
  rw [TokenStream.advance]
  split
  · next more =>
      refine ⟨more, ?_, ?_, .inl rfl⟩
      · intro i consumed
        cases consumed
        rfl
      · intro absent
        cases absent
  · next ended =>
      refine ⟨h.position_le, ?_, ?_, .inl rfl⟩
      · intro i consumed
        cases consumed
      · intro _
        exact .inr (Nat.le_antisymm h.position_le (Nat.le_of_not_lt ended))

theorem resetPeek (h : s.Coherent) : s.resetPeek.Coherent :=
  ⟨h.position_le, h.consumed_succ, h.position_of_none, .inl rfl⟩

theorem peek (h : s.Coherent) : s.peek.2.Coherent := by
  rw [peek_snd]
  refine ⟨h.position_le, h.consumed_succ, h.position_of_none, ?_⟩
  split
  · next more => exact .inr more
  · exact h.peeked_le

theorem resetPosition (h : s.Coherent) (position : Nat) :
    (s.resetPosition position).2.Coherent := by
  rcases Nat.lt_or_ge s.tokens.size position with beyond | within
  · rw [resetPosition_of_lt beyond]
    exact h
  · rw [resetPosition_of_le within]
    cases position with
    | zero => exact ⟨within, nofun, fun _ => .inl rfl, .inl rfl⟩
    | succ n =>
        refine ⟨within, ?_, nofun, .inl rfl⟩
        intro i consumed
        cases consumed
        rfl

theorem apply (h : s.Coherent) (o : Operation) : (s.apply o).Coherent := by
  cases o with
  | moveNext => exact h.advance
  | skipUntil kind => exact skipUntil_induction kind h fun _ kept => kept.advance
  | peek => exact h.peek
  | resetPeek => exact h.resetPeek
  | glimpse =>
      show s.glimpse.2.Coherent
      rw [glimpse_snd]
      exact h.resetPeek
  | reset => exact coherent_ofTokens s.input s.tokens
  | resetPosition position => exact h.resetPosition position
  | query => exact h

theorem run (h : s.Coherent) (session : List Operation) : (s.run session).Coherent :=
  run_induction session h fun _ o kept => kept.apply o

/-! ### What the places say -/

/-- The token consumed last is there, in front of the lookahead. -/
theorem token_of_consumed (h : s.Coherent) {i : Nat} (consumed : s.consumed = some i) :
    ∃ t, s.tokens[s.position - 1]? = some t ∧ s.token = some t := by
  have same := h.consumed_succ i consumed
  have within : i < s.tokens.size := by
    have : s.position ≤ s.tokens.size := h.position_le
    omega
  refine ⟨s.tokens[i], ?_, ?_⟩
  · rw [← same, Nat.add_sub_cancel]
    exact Array.getElem?_eq_getElem within
  · rw [token, consumed]
    exact Array.getElem?_eq_getElem within

end Coherent

/-! ### Every such stream is reached -/

section Reached

variable {s : TokenStream}

/-- Peeks count the tokens behind the lookahead, and nothing past them. -/
theorem run_replicate_peek (s : TokenStream) (n : Nat) :
    s.resetPeek.run (List.replicate n .peek) =
      { s with peeked := min n (s.tokens.size - (s.position + 1)) } := by
  induction n with
  | zero =>
      rw [Nat.zero_min]
      rfl
  | succ n ih =>
      let ahead := s.tokens.size - (s.position + 1)
      have counted : (if s.position + 1 + min n ahead < s.tokens.size then min n ahead + 1
          else min n ahead) = min (n + 1) ahead := by
        split
        · omega
        · omega
      rw [List.replicate_succ', run_append, ih, run_cons, run_nil, apply, peek_snd]
      exact congrArg (fun peeked => { s with peeked }) counted

/-- Without its peeks a stream is the one repositioned to its position, or that one
moved past the end. -/
theorem exists_run_eq_resetPeek (h : s.Coherent) :
    ∃ session, (ofTokens s.input s.tokens).run session = s.resetPeek := by
  have moved : (ofTokens s.input s.tokens).run [.resetPosition s.position] =
      { s with
        consumed := if s.position = 0 then none else some (s.position - 1)
        peeked := 0 } := by
    exact congrArg Prod.snd (resetPosition_of_le (s := ofTokens s.input s.tokens) h.position_le)
  cases consumed : s.consumed with
  | some i =>
      refine ⟨[.resetPosition s.position], moved.trans ?_⟩
      have same := h.consumed_succ i consumed
      rw [resetPeek, ← same, consumed]
      rfl
  | none =>
      rcases h.position_of_none consumed with start | ended
      · refine ⟨[.resetPosition s.position], moved.trans ?_⟩
        rw [resetPeek, start, consumed]
        rfl
      · refine ⟨[.resetPosition s.position] ++ [.moveNext], ?_⟩
        rw [run_append, moved, run_cons, run_nil, apply, moveNext, advance, if_neg]
        · rw [resetPeek, consumed]
        · rw [ended]
          exact Nat.lt_irrefl _

/-- The streams whose places are tied to one another are the ones that a session with
their input and their tokens leads to. -/
theorem coherent_iff_exists_session :
    s.Coherent ↔ ∃ session, (ofTokens s.input s.tokens).run session = s := by
  constructor
  · intro h
    obtain ⟨session, unpeeked⟩ := exists_run_eq_resetPeek h
    have counted : min s.peeked (s.tokens.size - (s.position + 1)) = s.peeked := by
      have within : s.peeked = 0 ∨ s.position + 1 + s.peeked ≤ s.tokens.size := h.peeked_le
      omega
    refine ⟨session ++ List.replicate s.peeked .peek, ?_⟩
    rw [run_append, unpeeked, run_replicate_peek, counted]
  · rintro ⟨session, reached⟩
    rw [← reached]
    exact (coherent_ofTokens s.input s.tokens).run session

end Reached

/-- In every session with the tokens of an input, the places stay tied to one another,
the token consumed last is the one in front of the lookahead, and the input and the
tokens are the ones that were given. -/
theorem coherent_run (input : String) (tokens : Array Token) (session : List Operation) :
    ((ofTokens input tokens).run session).Coherent ∧
      (∀ i, ((ofTokens input tokens).run session).consumed = some i →
        ∃ t, tokens[((ofTokens input tokens).run session).position - 1]? = some t ∧
          ((ofTokens input tokens).run session).token = some t) ∧
      ((ofTokens input tokens).run session).input = input ∧
      ((ofTokens input tokens).run session).tokens = tokens := by
  have coherent := (coherent_ofTokens input tokens).run session
  have kept := tokens_run (ofTokens input tokens) session
  refine ⟨coherent, ?_, input_run _ session, kept⟩
  intro i consumed
  have found := coherent.token_of_consumed consumed
  rwa [kept] at found

end TypeExprLexer.TokenStream

import TypeExprLexer.Navigation

/-!
Repositioning.

A stream that is put to a position keeps nothing of where it stood: only its input and its
tokens count (`TokenStream.resetPosition_eq_of_source_eq`). Consuming a token puts the
stream one position on (`TokenStream.advance_eq_resetPosition`), so single moves from the
start lead to the same stream (`TokenStream.resetPosition_eq_run`). A position beyond the
tokens is refused and changes nothing; `TokenStream.resetPosition_run` puts this together for
all sessions.
-/

namespace TypeExprLexer.TokenStream

variable {s t : TokenStream}

/-- Streams of the same input and tokens are put to the same place. -/
theorem resetPosition_eq_of_source_eq (input : s.input = t.input) (tokens : s.tokens = t.tokens)
    {n : Nat} (within : n ≤ s.tokens.size) : s.resetPosition n = t.resetPosition n := by
  have within' : n ≤ t.tokens.size := tokens ▸ within
  rw [resetPosition_of_le within, resetPosition_of_le within', input, tokens]

/-- Consuming the lookahead is a repositioning to the place behind it. -/
theorem advance_eq_resetPosition (more : s.position < s.tokens.size) :
    s.advance = (s.resetPosition (s.position + 1)).2 := by
  rw [advance, if_pos more, resetPosition_of_le more]
  rfl

/-- From a position on, each move goes one position further. -/
theorem run_replicate_moveNext (s : TokenStream) (m : Nat) {n : Nat}
    (within : m + n ≤ s.tokens.size) :
    (s.resetPosition m).2.run (List.replicate n .moveNext) = (s.resetPosition (m + n)).2 := by
  induction n with
  | zero => rfl
  | succ n ih =>
      have before : m + n ≤ s.tokens.size := Nat.le_of_succ_le within
      obtain ⟨input, tokens, place⟩ : (s.resetPosition (m + n)).2.input = s.input ∧
          (s.resetPosition (m + n)).2.tokens = s.tokens ∧
          (s.resetPosition (m + n)).2.position = m + n := by
        rw [resetPosition_of_le before]
        exact ⟨rfl, rfl, rfl⟩
      have more :
          (s.resetPosition (m + n)).2.position < (s.resetPosition (m + n)).2.tokens.size := by
        rw [place, tokens]
        exact within
      calc (s.resetPosition m).2.run (List.replicate (n + 1) .moveNext)
          = (s.resetPosition (m + n)).2.advance := by
            rw [List.replicate_succ', run_append, ih before]
            rfl
        _ = ((s.resetPosition (m + n)).2.resetPosition (m + n + 1)).2 := by
            rw [advance_eq_resetPosition more, place]
        _ = (s.resetPosition (m + (n + 1))).2 := by
            rw [resetPosition_eq_of_source_eq input tokens (tokens ▸ within)]
            rfl

/-- From any place, moves up to a position further on lead to the stream put there. -/
theorem run_replicate_succ_moveNext {n : Nat} (within : s.position + (n + 1) ≤ s.tokens.size) :
    s.run (List.replicate (n + 1) .moveNext) = (s.resetPosition (s.position + (n + 1))).2 := by
  have more : s.position < s.tokens.size := by omega
  have step : s.apply .moveNext = (s.resetPosition (s.position + 1)).2 :=
    advance_eq_resetPosition more
  rw [Nat.add_comm n, ← Nat.add_assoc] at within
  rw [List.replicate_succ, run_cons, step, run_replicate_moveNext s _ within, Nat.add_assoc,
    Nat.add_comm 1]

/-- Going straight to a position and going there from the start, one move after the other,
lead to the same stream. -/
theorem resetPosition_eq_run (s : TokenStream) {n : Nat} (within : n ≤ s.tokens.size) :
    s.resetPosition n =
      (.ok (), (ofTokens s.input s.tokens).run (List.replicate n .moveNext)) := by
  let start := ofTokens s.input s.tokens
  have within' : 0 + n ≤ start.tokens.size := (Nat.zero_add n).symm ▸ within
  have origin : (start.resetPosition 0).2 = start :=
    congrArg Prod.snd (resetPosition_of_le (Nat.zero_le _))
  have steps := start.run_replicate_moveNext 0 within'
  rw [origin, Nat.zero_add] at steps
  have same : s.resetPosition n = start.resetPosition n :=
    resetPosition_eq_of_source_eq (s := s) (t := start) rfl rfl within
  rw [steps, ← same, resetPosition_of_le within]

theorem resetPosition_fst_eq_error_iff {n : Nat} :
    (s.resetPosition n).1 = .error (.positionOutOfBounds n s.tokens.size) ↔ s.tokens.size < n := by
  rcases Nat.lt_or_ge s.tokens.size n with beyond | within
  · rw [resetPosition_of_lt beyond]
    exact iff_of_true rfl beyond
  · rw [resetPosition_of_le within]
    exact iff_of_false nofun (Nat.not_lt.mpr within)

/-- In every session, a position beyond the tokens is refused and leaves the stream as it was;
any other leads to the stream that as many moves from the start lead to. A reset leads to
the start. -/
theorem resetPosition_run (input : String) (tokens : Array Token) (session : List Operation)
    (n : Nat) :
    ((((ofTokens input tokens).run session).resetPosition n).1 =
        .error (.positionOutOfBounds n tokens.size) ↔ tokens.size < n) ∧
      ((ofTokens input tokens).run session).resetPosition n =
        (if tokens.size < n then
          (.error (.positionOutOfBounds n tokens.size), (ofTokens input tokens).run session)
        else (.ok (), (ofTokens input tokens).run (List.replicate n .moveNext))) ∧
      ((ofTokens input tokens).run session).reset = ofTokens input tokens := by
  have keptInput : ((ofTokens input tokens).run session).input = input := input_run _ session
  have kept : ((ofTokens input tokens).run session).tokens = tokens := tokens_run _ session
  generalize (ofTokens input tokens).run session = s at keptInput kept
  subst keptInput kept
  refine ⟨resetPosition_fst_eq_error_iff, ?_, rfl⟩
  split
  · next beyond => exact resetPosition_of_lt beyond
  · next within => exact s.resetPosition_eq_run (Nat.le_of_not_lt within)

end TypeExprLexer.TokenStream

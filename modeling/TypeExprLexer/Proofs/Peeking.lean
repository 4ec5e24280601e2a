import TypeExprLexer.Proofs.Coherence
import TypeExprLexer.Proofs.Surroundings

/-!
What peeking shows.

Peeks show the tokens that moves would bring: the token at the `k`th peek behind the
lookahead is the lookahead after `k` moves, and neither peeks nor other looks are seen by
anything but peeking itself (`TokenStream.peek_foresees_lookahead`). A glimpse goes on from
the peeks before it. So it shows the token right behind the lookahead where nothing was
peeked at, and only there if no token is in the stream twice, as in the stream of a text
(`TokenStream.glimpse_run`, `TokenStream.glimpse_after_peek`).
-/

namespace TypeExprLexer

namespace TokenStream

variable {s : TokenStream}

/-! ### Peeks and moves -/

/-- Two places that the end bounds alike have the same token, or none. -/
theorem getElem?_tokens_of_min_eq {i j : Nat} (same : min i s.tokens.size = min j s.tokens.size) :
    s.tokens[i]? = s.tokens[j]? := by
  rcases Nat.lt_or_ge i s.tokens.size with inside | outside
  · have place : i = j := by omega
    rw [place]
  · have outside' : s.tokens.size ≤ j := by omega
    rw [Array.getElem?_eq_none outside, Array.getElem?_eq_none outside']

theorem lookahead_run_replicate_moveNext (within : s.position ≤ s.size) (n : Nat) :
    (s.run (List.replicate n .moveNext)).lookahead = s.tokens[s.position + n]? := by
  rw [lookahead, tokens_run, position_run_replicate_moveNext within]
  apply getElem?_tokens_of_min_eq
  rw [size, Nat.min_assoc, Nat.min_self]

theorem peek_fst_run_replicate_peek (s : TokenStream) (n : Nat) :
    (s.resetPeek.run (List.replicate n .peek)).peek.1 = s.tokens[s.position + (n + 1)]? := by
  rw [peek_fst, run_replicate_peek]
  apply getElem?_tokens_of_min_eq
  dsimp only
  omega

/-! ### Peeking past the end -/

theorem peek_fst_eq_none_iff : s.peek.1 = none ↔ s.size ≤ s.position + 1 + s.peeked := by
  rw [peek_fst]
  exact Array.getElem?_eq_none_iff

/-- A peek that showed none shows a token again only after an operation that moved the
stream or took peeks back. -/
theorem exists_of_peek_fst_ne_none {session : List Operation} (ended : s.peek.1 = none)
    (shown : (s.run session).peek.1 ≠ none) :
    ∃ before o after, session = before ++ o :: after ∧
      (((s.run before).apply o).position ≠ (s.run before).position ∨
        ((s.run before).apply o).peeked < (s.run before).peeked) := by
  induction session generalizing s with
  | nil => exact absurd ended shown
  | cons o session ih =>
      by_cases changed : (s.apply o).position ≠ s.position ∨ (s.apply o).peeked < s.peeked
      · exact ⟨[], o, session, rfl, changed⟩
      · -- The next peek is from the same place and no nearer to it, so it shows none either.
        have ended' : (s.apply o).peek.1 = none := by
          have past := peek_fst_eq_none_iff.mp ended
          rw [peek_fst_eq_none_iff, size_apply]
          omega
        obtain ⟨before, p, after, rfl, changed⟩ := ih ended' shown
        exact ⟨o :: before, p, after, rfl, changed⟩

/-- In every session, when peeking starts again the token at the peek number `k + 1` is the
lookahead after `k + 1` moves. Looks, and peeks among them, change neither the position nor
the current token nor the lookahead, and a move after them answers and leads where it would
without them. Once a peek shows none, all further ones do until an operation moves the
stream or takes peeks back. -/
theorem peek_foresees_lookahead (input : String) (tokens : Array Token)
    (session : List Operation) :
    let s := (ofTokens input tokens).run session
    (∀ k, (s.resetPeek.run (List.replicate k .peek)).peek.1 =
        (s.run (List.replicate (k + 1) .moveNext)).lookahead) ∧
      (∀ looks : Looks, (s.look looks).position = s.position ∧ (s.look looks).token = s.token ∧
        (s.look looks).lookahead = s.lookahead ∧ (s.look looks).moveNext = s.moveNext) ∧
      ∀ further, s.peek.1 = none → (s.run further).peek.1 ≠ none →
        ∃ before o after, further = before ++ o :: after ∧
          (((s.run before).apply o).position ≠ (s.run before).position ∨
            ((s.run before).apply o).peeked < (s.run before).peeked) := by
  intro s
  have within : s.position ≤ s.size := ((coherent_ofTokens input tokens).run session).position_le
  refine ⟨?_, ?_, ?_⟩
  · intro k
    rw [peek_fst_run_replicate_peek, lookahead_run_replicate_moveNext within]
  · intro looks
    exact ⟨s.position_look looks, s.token_look looks, s.lookahead_look looks,
      s.moveNext_look looks⟩
  · intro further ended shown
    exact exists_of_peek_fst_ne_none ended shown

/-! ### Glimpses -/

theorem glimpse_eq (s : TokenStream) :
    s.glimpse = (s.tokens[s.position + 1 + s.peeked]?, s.resetPeek) := by
  rw [← peek_fst, ← glimpse_snd]
  rfl

/-- Where no token is twice, a glimpse shows the token right behind the lookahead just if
nothing was peeked at. -/
theorem Coherent.glimpse_fst_eq_iff (h : s.Coherent) (distinct : s.tokens.toList.Nodup) :
    s.glimpse.1 = s.tokens[s.position + 1]? ↔ s.peeked = 0 := by
  rw [glimpse_eq]
  constructor
  · intro same
    rcases h.peeked_le with unpeeked | within
    · exact unpeeked
    · -- The token right behind the lookahead is there, as one behind it was peeked at.
      by_contra peeked
      have inside : s.position + 1 < s.tokens.toList.length := by
        have : s.position + 1 + s.peeked ≤ s.tokens.toList.length := within
        omega
      rw [← Array.getElem?_toList, ← Array.getElem?_toList] at same
      have place := (List.getElem?_inj inside distinct).mp same.symm
      omega
  · intro unpeeked
    rw [unpeeked]

/-- In every session a glimpse shows the token that the next peek would, lets peeking start
again, and changes neither the position nor the current token nor the lookahead. So if no
token is in the stream twice, it is the token right behind the lookahead that is shown just
if nothing was peeked at. -/
theorem glimpse_run (input : String) (tokens : Array Token) (session : List Operation) :
    let s := (ofTokens input tokens).run session
    s.glimpse.1 = tokens[s.position + 1 + s.peeked]? ∧
      (s.glimpse.2.position = s.position ∧ s.glimpse.2.token = s.token ∧
        s.glimpse.2.lookahead = s.lookahead ∧ s.glimpse.2.peeked = 0) ∧
      (tokens.toList.Nodup → (s.glimpse.1 = tokens[s.position + 1]? ↔ s.peeked = 0)) := by
  intro s
  have coherent : s.Coherent := (coherent_ofTokens input tokens).run session
  have kept : s.tokens = tokens := tokens_run _ session
  rw [← kept]
  refine ⟨congrArg Prod.fst s.glimpse_eq, ?_, coherent.glimpse_fst_eq_iff⟩
  rw [glimpse_snd]
  exact ⟨rfl, rfl, rfl, rfl⟩

/-- After a peek a glimpse shows a token further on than the one right behind the
lookahead. -/
theorem glimpse_after_peek :
    let s := (ofText .standard "a|b").run [.peek]
    s.tokens[s.position + 1]? = some ⟨.union, "|", 1⟩ ∧
      s.glimpse.1 = some ⟨.pseudoType, "b", 2⟩ ∧ s.glimpse.1 ≠ s.tokens[s.position + 1]? := by
  decide +kernel

/-- In every session with the stream of a text, a glimpse shows the token right behind the
lookahead just if nothing was peeked at. -/
theorem glimpse_fst_run_ofText_iff (v : Vocabulary) (text : String) (session : List Operation) :
    let s := (ofText v text).run session
    s.glimpse.1 = s.tokens[s.position + 1]? ↔ s.peeked = 0 := by
  intro s
  have kept : s.tokens = (v.tokenize text).toArray := tokens_run _ session
  have distinct : s.tokens.toList.Nodup := by
    rw [kept]
    exact v.nodup_tokenize text
  exact ((coherent_ofTokens _ _).run session).glimpse_fst_eq_iff distinct

end TokenStream

end TypeExprLexer

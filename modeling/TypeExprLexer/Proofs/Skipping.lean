import Mathlib.Order.Bounds.Basic
import TypeExprLexer.Proofs.Coherence
import TypeExprLexer.Proofs.Repositioning

/-!
Skipping to a kind.

Skipping is a number of moves, each over a token of another kind
(`TokenStream.exists_skipUntil_eq_run`). It ends at the first place from the position on
where it can end at all: a token of the kind, or the end of the stream
(`TokenStream.stops`). `TokenStream.skipUntil_run` says so for all sessions, and that the
stream is the one put straight to that place, or the same one if there was nothing to skip.
-/

namespace TypeExprLexer.TokenStream

variable {s : TokenStream} {k : Kind}

/-- The places from the position on with a token of the kind, and the end. -/
def stops (s : TokenStream) (k : Kind) : Set Nat :=
  {i | s.position ≤ i ∧ (i = s.size ∨ ∃ t, s.tokens[i]? = some t ∧ t.kind = k)}

/-- Skipping is a number of moves, each over a token of another kind, to a place without
one. -/
theorem exists_skipUntil_eq_run (s : TokenStream) (k : Kind) :
    ∃ n, s.skipUntil k = s.run (List.replicate n .moveNext) ∧
      (∀ i < n, ∃ t, s.tokens[s.position + i]? = some t ∧ t.kind ≠ k) ∧
      ∀ t, s.tokens[s.position + n]? = some t → t.kind = k := by
  fun_induction skipUntil s k with
  | case1 s ended =>
      refine ⟨0, rfl, fun i earlier => absurd earlier i.not_lt_zero, ?_⟩
      intro t found
      cases ended.symm.trans found
  | case2 s t more _ found =>
      refine ⟨0, rfl, fun i earlier => absurd earlier i.not_lt_zero, ?_⟩
      intro u ahead
      cases more.symm.trans ahead
      exact found
  | case3 s t more _ other ih =>
      obtain ⟨n, moves, passed, stopped⟩ := ih
      obtain ⟨within, _⟩ := lookahead_eq_some_iff.mp more
      rw [tokens_advance, position_advance within] at passed stopped
      refine ⟨n + 1, moves, ?_, ?_⟩
      · intro i earlier
        cases i with
        | zero => exact ⟨t, more, other⟩
        | succ i =>
            rw [Nat.add_comm i, ← Nat.add_assoc]
            exact passed i (Nat.lt_of_succ_lt_succ earlier)
      · rw [Nat.add_comm n, ← Nat.add_assoc]
        exact stopped

theorem isLeast_stops {n : Nat} (within : s.position ≤ s.size)
    (passed : ∀ i < n, ∃ t, s.tokens[s.position + i]? = some t ∧ t.kind ≠ k)
    (stopped : ∀ t, s.tokens[s.position + n]? = some t → t.kind = k) :
    IsLeast (s.stops k) (s.position + n) := by
  constructor
  · refine ⟨Nat.le_add_right .., ?_⟩
    cases found : s.tokens[s.position + n]? with
    | some t => exact .inr ⟨t, rfl, stopped t found⟩
    | none =>
        have beyond : s.size ≤ s.position + n := Array.getElem?_eq_none_iff.mp found
        -- The token moved over last was there, so the place is no further than the end.
        refine .inl (Nat.le_antisymm ?_ beyond)
        cases n with
        | zero => exact within
        | succ n =>
            obtain ⟨t, last, _⟩ := passed n n.lt_succ_self
            exact (Array.getElem?_eq_some_iff.mp last).1
  · rintro i ⟨behind, stop⟩
    obtain ⟨m, rfl⟩ := Nat.exists_eq_add_of_le behind
    by_contra before
    obtain ⟨t, found, other⟩ := passed m (by omega)
    rcases stop with ended | ⟨u, found', same⟩
    · exact absurd (Array.getElem?_eq_some_iff.mp found).1 (Nat.not_lt.mpr (Nat.le_of_eq ended.symm))
    · cases found.symm.trans found'
      exact other same

theorem le_size_of_mem_stops {i : Nat} (stop : i ∈ s.stops k) : i ≤ s.size := by
  rcases stop.2 with ended | ⟨t, found, _⟩
  · exact Nat.le_of_eq ended
  · exact Nat.le_of_lt (Array.getElem?_eq_some_iff.mp found).1

/-! ### Where skipping ends -/

theorem kind_of_lookahead_skipUntil {t : Token} (ahead : (s.skipUntil k).lookahead = some t) :
    t.kind = k := by
  fun_induction skipUntil s k with
  | case1 s ended => cases ended.symm.trans ahead
  | case2 s u more _ found =>
      cases more.symm.trans ahead
      exact found
  | case3 s u more _ other ih => exact ih ahead

theorem skipUntil_skipUntil (s : TokenStream) (k : Kind) :
    (s.skipUntil k).skipUntil k = s.skipUntil k := by
  cases ahead : (s.skipUntil k).lookahead with
  | none => exact skipUntil_of_lookahead_eq_none ahead
  | some t =>
      rw [skipUntil_of_lookahead_eq_some ahead, if_pos (kind_of_lookahead_skipUntil ahead)]

theorem tokens_skipUntil (s : TokenStream) (k : Kind) : (s.skipUntil k).tokens = s.tokens :=
  (s.source_apply (.skipUntil k)).2

theorem isNext_eq_true_iff : s.isNext k = true ↔ ∃ t, s.lookahead = some t ∧ t.kind = k := by
  rw [isNext, Option.any_eq_true]
  simp only [beq_iff_eq]

/-- The kind is next where skipping ended just if a token of it was still to come. -/
theorem isNext_skipUntil_iff (least : IsLeast (s.stops k) (s.skipUntil k).position) :
    (s.skipUntil k).isNext k = true ↔
      ∃ i t, s.position ≤ i ∧ s.tokens[i]? = some t ∧ t.kind = k := by
  rw [isNext_eq_true_iff, lookahead, tokens_skipUntil]
  constructor
  · rintro ⟨t, found, same⟩
    exact ⟨_, t, least.1.1, found, same⟩
  · rintro ⟨i, t, behind, found, same⟩
    have first : (s.skipUntil k).position ≤ i := least.2 ⟨behind, .inr ⟨t, found, same⟩⟩
    have inside : i < s.size := (Array.getElem?_eq_some_iff.mp found).1
    exact least.1.2.resolve_left (Nat.ne_of_lt (Nat.lt_of_le_of_lt first inside))

/-- In every session, skipping to a kind ends, after as many moves as there are tokens in
between, at the first place from the position on that has a token of the kind, or at the end
of the stream if none has. Where there is nothing to skip the stream stays the same one, and
else it is the one put straight to that place. Skipping again changes nothing, and the kind
is next just if a token of it was still to come. -/
theorem skipUntil_run (input : String) (tokens : Array Token) (session : List Operation)
    (k : Kind) :
    let s := (ofTokens input tokens).run session
    ∃ j, IsLeast (s.stops k) j ∧ (s.skipUntil k).position = j ∧
      s.skipUntil k = s.run (List.replicate (j - s.position) .moveNext) ∧
      (j = s.position → s.skipUntil k = s) ∧
      (s.position < j → s.resetPosition j = (.ok (), s.skipUntil k)) ∧
      (s.skipUntil k).skipUntil k = s.skipUntil k ∧
      ((s.skipUntil k).isNext k = true ↔
        ∃ i t, s.position ≤ i ∧ tokens[i]? = some t ∧ t.kind = k) := by
  intro s
  have within : s.position ≤ s.size := ((coherent_ofTokens input tokens).run session).position_le
  have kept : s.tokens = tokens := tokens_run _ session
  obtain ⟨n, moves, passed, stopped⟩ := s.exists_skipUntil_eq_run k
  have least := isLeast_stops within passed stopped
  have inside : s.position + n ≤ s.size := le_size_of_mem_stops least.1
  have place : (s.skipUntil k).position = s.position + n := by
    rw [moves, position_run_replicate_moveNext within, Nat.min_eq_left inside]
  rw [← kept]
  refine ⟨s.position + n, least, place, ?_, ?_, ?_, s.skipUntil_skipUntil k, ?_⟩
  · rw [Nat.add_sub_cancel_left, moves]
  · intro still
    rw [moves, Nat.add_eq_left.mp still]
    rfl
  · intro further
    obtain ⟨m, rfl⟩ := Nat.exists_eq_add_one.mpr (Nat.pos_of_lt_add_right further)
    rw [moves, run_replicate_succ_moveNext inside, resetPosition_of_le inside]
  · rw [← place] at least
    exact isNext_skipUntil_iff least

end TypeExprLexer.TokenStream

import TypeExprLexer.TokenStream

/-!
Sessions with a token stream.

A parser asks a stream for one operation after the other; `TokenStream.run` is the
stream that a list of them leads to. Whatever every single operation keeps, a
session keeps (`TokenStream.run_induction`), and the input and the tokens are kept
by all of them (`TokenStream.input_run`, `TokenStream.tokens_run`).

Some operations only look: but for the peeks they leave the stream as it was
(`TokenStream.resetPeek_look`). So where a session looks and moves, its moves alone say
where it leads (`TokenStream.position_run_of_onward`).
-/

namespace TypeExprLexer

/-- What a parser can ask of a stream. -/
inductive Operation where
  | moveNext
  | skipUntil (kind : Kind)
  | peek
  | resetPeek
  | glimpse
  | reset
  | resetPosition (position : Nat)
  /-- Any of the queries, which answer from the stream and give no other one. -/
  | query
deriving DecidableEq, Repr

namespace TokenStream

/-- The stream after an operation. -/
def apply (s : TokenStream) : Operation → TokenStream
  | .moveNext => s.moveNext.2
  | .skipUntil kind => s.skipUntil kind
  | .peek => s.peek.2
  | .resetPeek => s.resetPeek
  | .glimpse => s.glimpse.2
  | .reset => s.reset
  | .resetPosition position => (s.resetPosition position).2
  | .query => s

/-- The stream after a session of operations, from first to last. -/
def run (s : TokenStream) (session : List Operation) : TokenStream :=
  session.foldl apply s

@[simp] theorem run_nil (s : TokenStream) : s.run [] = s := rfl

@[simp] theorem run_cons (s : TokenStream) (o : Operation) (session : List Operation) :
    s.run (o :: session) = (s.apply o).run session := rfl

theorem run_append (s : TokenStream) (first second : List Operation) :
    s.run (first ++ second) = (s.run first).run second :=
  List.foldl_append

/-! ### What is kept -/

/-- What moving keeps, skipping keeps. -/
theorem skipUntil_induction {motive : TokenStream → Prop} {s : TokenStream} (kind : Kind)
    (start : motive s) (step : ∀ t, motive t → motive t.advance) : motive (s.skipUntil kind) := by
  fun_induction skipUntil s kind with
  | case1 s ended => exact start
  | case2 s t more shorter => exact start
  | case3 s t more shorter other ih => exact ih (step s start)

/-- What every operation keeps, a session keeps. -/
theorem run_induction {motive : TokenStream → Prop} {s : TokenStream} (session : List Operation)
    (start : motive s) (step : ∀ t o, motive t → motive (t.apply o)) : motive (s.run session) := by
  induction session generalizing s with
  | nil => exact start
  | cons o session ih => exact ih (step s o start)

/-- Peeking changes nothing but how far was peeked, and counts only what it saw. -/
theorem peek_snd (s : TokenStream) :
    s.peek.2 = { s with
      peeked := if s.position + 1 + s.peeked < s.tokens.size then s.peeked + 1 else s.peeked } := by
  rw [peek]
  split
  · next ended => rw [if_neg (Nat.not_lt.mpr (Array.getElem?_eq_none_iff.mp ended))]
  · next more => rw [if_pos (Array.getElem?_eq_some_iff.mp more).1]

theorem glimpse_snd (s : TokenStream) : s.glimpse.2 = s.resetPeek := by
  rw [glimpse, peek_snd]
  rfl

/-- No operation changes the input or the tokens. -/
theorem source_apply (s : TokenStream) (o : Operation) :
    (s.apply o).input = s.input ∧ (s.apply o).tokens = s.tokens := by
  cases o with
  | moveNext => exact ⟨s.input_advance, s.tokens_advance⟩
  | skipUntil kind =>
      apply skipUntil_induction (motive := fun t => t.input = s.input ∧ t.tokens = s.tokens) kind
      · exact ⟨rfl, rfl⟩
      · rintro t ⟨input, tokens⟩
        exact ⟨t.input_advance.trans input, t.tokens_advance.trans tokens⟩
  | peek => simp [apply, peek_snd]
  | resetPeek => exact ⟨rfl, rfl⟩
  | glimpse => simp [apply, glimpse_snd, resetPeek]
  | reset => exact ⟨rfl, rfl⟩
  | resetPosition position =>
      rcases Nat.lt_or_ge s.tokens.size position with beyond | within
      · simp [apply, resetPosition_of_lt beyond]
      · simp [apply, resetPosition_of_le within]
  | query => exact ⟨rfl, rfl⟩

@[simp] theorem input_run (s : TokenStream) (session : List Operation) :
    (s.run session).input = s.input :=
  run_induction (motive := fun t => t.input = s.input) session rfl
    fun t o same => (t.source_apply o).1.trans same

@[simp] theorem tokens_run (s : TokenStream) (session : List Operation) :
    (s.run session).tokens = s.tokens :=
  run_induction (motive := fun t => t.tokens = s.tokens) session rfl
    fun t o same => (t.source_apply o).2.trans same

theorem size_apply (s : TokenStream) (o : Operation) : (s.apply o).size = s.size :=
  congrArg Array.size (s.source_apply o).2

theorem size_run (s : TokenStream) (session : List Operation) : (s.run session).size = s.size :=
  congrArg Array.size (s.tokens_run session)

end TokenStream

/-! ### Looking -/

/-- Whether an operation only looks: it can change how far was peeked, and nothing else. -/
def Operation.isLook : Operation → Bool
  | .peek | .resetPeek | .glimpse | .query => true
  | .moveNext | .skipUntil _ | .reset | .resetPosition _ => false

/-- Any number of looks, one after the other. -/
structure Looks where
  session : List Operation
  looking : ∀ o ∈ session, o.isLook

namespace TokenStream

/-- The stream after some looks. -/
def look (s : TokenStream) (looks : Looks) : TokenStream :=
  s.run looks.session

theorem resetPeek_apply_of_isLook {o : Operation} (looking : o.isLook) (s : TokenStream) :
    (s.apply o).resetPeek = s.resetPeek := by
  cases o with
  | peek =>
      rw [apply, peek_snd]
      rfl
  | glimpse =>
      rw [apply, glimpse_snd]
      rfl
  | resetPeek => rfl
  | query => rfl
  | moveNext | skipUntil _ | reset | resetPosition _ => cases looking

/-- But for the peeks, looks leave a stream as it was. -/
@[simp] theorem resetPeek_look (s : TokenStream) (looks : Looks) :
    (s.look looks).resetPeek = s.resetPeek := by
  obtain ⟨session, looking⟩ := looks
  induction session generalizing s with
  | nil => rfl
  | cons o session ih =>
      obtain ⟨first, others⟩ := List.forall_mem_cons.mp looking
      exact (ih (s.apply o) others).trans (resetPeek_apply_of_isLook first s)

@[simp] theorem tokens_look (s : TokenStream) (looks : Looks) : (s.look looks).tokens = s.tokens :=
  tokens_run s looks.session

@[simp] theorem position_look (s : TokenStream) (looks : Looks) :
    (s.look looks).position = s.position :=
  (congrArg position (s.resetPeek_look looks) :)

@[simp] theorem token_look (s : TokenStream) (looks : Looks) : (s.look looks).token = s.token :=
  (congrArg token (s.resetPeek_look looks) :)

@[simp] theorem lookahead_look (s : TokenStream) (looks : Looks) :
    (s.look looks).lookahead = s.lookahead :=
  (congrArg lookahead (s.resetPeek_look looks) :)

/-- A move forgets the peeks, so it does not matter what was looked at before. -/
@[simp] theorem moveNext_look (s : TokenStream) (looks : Looks) :
    (s.look looks).moveNext = s.moveNext :=
  (congrArg moveNext (s.resetPeek_look looks) :)

/-! ### Going on -/

theorem position_advance_eq_min {s : TokenStream} (within : s.position ≤ s.size) :
    s.advance.position = min (s.position + 1) s.size := by
  rw [advance]
  split
  · next more => exact (Nat.min_eq_left more).symm
  · next ended =>
      have last : s.position = s.size := Nat.le_antisymm within (Nat.le_of_not_lt ended)
      rw [last, Nat.min_eq_right (Nat.le_succ _)]

theorem position_advance_le_size {s : TokenStream} (within : s.position ≤ s.size) :
    s.advance.position ≤ s.advance.size := by
  have size : s.advance.size = s.size := s.size_apply .moveNext
  rw [position_advance_eq_min within, size]
  exact Nat.min_le_right ..

/-- With looks between them, as many moves go as many tokens on, up to the end. -/
theorem position_run_of_onward {session : List Operation}
    (onward : ∀ o ∈ session, o = .moveNext ∨ o.isLook) {s : TokenStream}
    (within : s.position ≤ s.size) :
    (s.run session).position = min (s.position + session.count .moveNext) s.size := by
  induction session generalizing s with
  | nil => exact (Nat.min_eq_left within).symm
  | cons o session ih =>
      obtain ⟨first, others⟩ := List.forall_mem_cons.mp onward
      rcases first with rfl | looking
      · have size : s.advance.size = s.size := s.size_apply .moveNext
        have rest := ih others (position_advance_le_size within)
        rw [position_advance_eq_min within, size] at rest
        rw [List.count_cons_self]
        refine Eq.trans rest ?_
        omega
      · have place : (s.apply o).position = s.position :=
          (congrArg position (resetPeek_apply_of_isLook looking s) :)
        have other : o ≠ .moveNext := by
          rintro rfl
          cases looking
        have within' : (s.apply o).position ≤ (s.apply o).size := by
          rwa [place, size_apply]
        rw [run_cons, ih others within', place, size_apply, List.count_cons_of_ne other]

theorem position_run_replicate_moveNext {s : TokenStream} (within : s.position ≤ s.size) (n : Nat) :
    (s.run (List.replicate n .moveNext)).position = min (s.position + n) s.size := by
  have onward : ∀ o ∈ List.replicate n Operation.moveNext, o = .moveNext ∨ o.isLook :=
    fun o mem => .inl (List.eq_of_mem_replicate mem)
  rw [position_run_of_onward onward within, List.count_replicate_self]

end TokenStream

end TypeExprLexer

import TypeExprLexer.Proofs.Blanks

/-!
What goes on with the text.

A move over a type expression can change when the text goes on behind it, for a
name reads on and so does `$this`. A lexeme and what stands right behind it are
glued (`Glues`) if the lexeme is a name and the other goes on with it, or if it is
a `$` that the other completes. Only this matters: an emitted lexeme changes only
if it reaches the end and is glued to what is appended, or if one further lexeme
alone stands between that is (`PatternSet.step_append_or_glues`), and where it is
glued it does change (`PatternSet.step_ne_of_glues`).
-/

namespace TypeExprLexer

open ByteClass Pattern

namespace Pattern

/-! ### Names that go on -/

theorem nameTail_pos_iff {rest : List UInt8} :
    0 < nameTail rest ↔ (∃ b ∈ rest.head?, isNamePart b) ∨
      ∃ b, [separator, b] <+: rest ∧ isNameStart b := by
  fun_cases nameTail rest with
  | case1 => simp
  | case2 b bs part => simp [part]
  | case3 noPart => simp [noPart, List.cons_prefix_cons]
  | case4 c cs start noPart => simp [start, List.cons_prefix_cons]
  | case5 c cs noStart noPart => simp [noStart, noPart, List.cons_prefix_cons]
  | case6 b bs noPart noSeparator =>
      simp [noPart, List.cons_prefix_cons, Ne.symm noSeparator]

/-- A name that reaches the end goes on with what is appended. -/
theorem nameTail_append_of_eq_length {xs : List UInt8} (whole : nameTail xs = xs.length)
    (ys : List UInt8) : nameTail (xs ++ ys) = xs.length + nameTail ys := by
  fun_induction nameTail xs with
  | case1 => simp
  | case2 b bs part ih =>
      rw [List.cons_append, nameTail_cons_of_isNamePart _ part, ih (by simpa using whole),
        List.length_cons]
      omega
  | case3 => cases whole
  | case4 c cs start _ ih =>
      rw [List.cons_append, List.cons_append, nameTail_separator_cons _ start,
        ih (by simpa using whole), List.length_cons, List.length_cons]
      omega
  | case5 => cases whole
  | case6 => cases whole

/-- A name stays as it is when something is appended, unless it reaches the end or
a lone separator stands between. -/
theorem nameTail_append_or (xs ys : List UInt8) :
    nameTail (xs ++ ys) = nameTail xs ∨ nameTail xs = xs.length ∨
      (xs.drop (nameTail xs) = [separator] ∧ ∃ b ∈ ys.head?, isNameStart b) := by
  fun_induction nameTail xs with
  | case1 => exact .inr (.inl rfl)
  | case2 b bs part ih =>
      rw [List.cons_append, nameTail_cons_of_isNamePart _ part, List.drop_succ_cons,
        List.length_cons]
      simpa using ih
  | case3 =>
      by_cases start : ∃ b ∈ ys.head?, isNameStart b
      · exact .inr (.inr ⟨rfl, start⟩)
      · refine .inl (nameTail_separator_of_not ?_)
        simpa using start
  | case4 c cs start _ ih =>
      rw [List.cons_append, List.cons_append, nameTail_separator_cons _ start,
        List.drop_succ_cons, List.drop_succ_cons, List.length_cons, List.length_cons]
      simpa using ih
  | case5 c cs noStart _ =>
      refine .inl (nameTail_separator_of_not ?_)
      simpa using noStart
  | case6 b bs noPart noSeparator => exact .inl (nameTail_cons_of_not _ noPart noSeparator)

/-! ### `$this` that is completed -/

theorem BeginsThis.append {xs : List UInt8} (h : BeginsThis xs) (ys : List UInt8) :
    BeginsThis (xs ++ ys) := by
  have size := congrArg List.length h
  rw [List.length_map, List.length_take] at size
  rw [BeginsThis, List.take_append_of_le_length (by omega)]
  exact h

/-- The bytes ahead complete a `$` to `$this`. -/
def CompletesThis (rest : List UInt8) : Prop :=
  (rest.take 4).map toLower = thisBytes.tail

instance (rest : List UInt8) : Decidable (CompletesThis rest) :=
  inferInstanceAs (Decidable (_ = _))

theorem beginsThis_cons_iff {b : UInt8} {bs : List UInt8} :
    BeginsThis (b :: bs) ↔ b = 0x24 ∧ CompletesThis bs := by
  constructor
  · intro this
    exact ⟨this.eq_dollar, congrArg List.tail this⟩
  · rintro ⟨rfl, completes⟩
    exact congrArg (toLower 0x24 :: ·) completes

theorem isLetter_of_completesThis {rest : List UInt8} (h : CompletesThis rest) :
    ∀ b ∈ rest.take 4, isLetter b := by
  intro b mem
  have inside : toLower b ∈ thisBytes.tail := h ▸ List.mem_map_of_mem mem
  have letters : ∀ x ∈ thisBytes.tail, isLetter x := by simp [thisBytes, isLetter]
  rw [← isLetter_toLower]
  exact letters _ inside

theorem length_of_completesThis {rest : List UInt8} (h : CompletesThis rest) :
    (rest.take 4).length = 4 := by
  simpa [thisBytes] using congrArg List.length h

end Pattern

/-! ### Glued bytes -/

/-- A lexeme that begins as names do. -/
def IsNameLike (first : List UInt8) : Prop :=
  ∃ b ∈ first.head?, isNameStart b ∨ b = separator

/-- What goes on with a name in front of it: a name byte, or a separator and the
first byte of a segment. -/
def ContinuesName (next : List UInt8) : Prop :=
  (∃ b ∈ next.head?, isNamePart b) ∨ ∃ b, [separator, b] <+: next ∧ isNameStart b

instance (first : List UInt8) : Decidable (IsNameLike first) :=
  inferInstanceAs (Decidable (∃ b ∈ first.head?, _))

instance (next : List UInt8) : Decidable (ContinuesName next) :=
  decidable_of_iff _ nameTail_pos_iff

theorem ContinuesName.of_isLetter {b : UInt8} {next : List UInt8} (mem : b ∈ next.head?)
    (letter : isLetter b) : ContinuesName next :=
  .inl ⟨b, mem, isNamePart_of_isNameStart (isNameStart_of_isLetter letter)⟩

/-- A lexeme and what stands right behind it do not stay apart: a name goes on, or
a `$` becomes `$this`. -/
def Glues (first next : List UInt8) : Prop :=
  (IsNameLike first ∧ ContinuesName next) ∨ (first = [0x24] ∧ CompletesThis next)

instance (first next : List UInt8) : Decidable (Glues first next) :=
  inferInstanceAs (Decidable (_ ∨ _))

theorem Glues.append {first next : List UInt8} (h : Glues first next) (rest : List UInt8) :
    Glues first (next ++ rest) := by
  rcases h with ⟨like, ⟨b, mem, part⟩ | ⟨b, ahead, start⟩⟩ | ⟨rfl, completes⟩
  · refine .inl ⟨like, .inl ⟨b, ?_, part⟩⟩
    rw [List.head?_append, show next.head? = some b from mem]
    rfl
  · exact .inl ⟨like, .inr ⟨b, ahead.trans (List.prefix_append ..), start⟩⟩
  · refine .inr ⟨rfl, ?_⟩
    have size := length_of_completesThis completes
    rw [List.length_take] at size
    rw [CompletesThis, List.take_append_of_le_length (by omega)]
    exact completes

theorem not_glues_nil (first : List UInt8) : ¬ Glues first [] := by
  rintro (⟨_, ⟨b, mem, _⟩ | ⟨b, ahead, _⟩⟩ | ⟨_, completes⟩)
  · cases mem
  · cases List.prefix_nil.mp ahead
  · revert completes
    decide

/-- What is glued begins with a name byte or a separator, and no more of it counts
than a name. -/
theorem Glues.exists_prefix {first next : List UInt8} (h : Glues first next) :
    ∃ front, front <+: next ∧ Glues first front ∧
      (front.length = 1 ∨ NameGrammar.IsName NameGrammar.byteAlphabet front) := by
  rcases h with ⟨like, ⟨b, mem, part⟩ | ⟨b, ahead, start⟩⟩ | ⟨rfl, completes⟩
  · obtain ⟨bs, rfl⟩ := List.head?_eq_some_iff.mp mem
    exact ⟨[b], List.prefix_append [b] bs, .inl ⟨like, .inl ⟨b, rfl, part⟩⟩, .inl rfl⟩
  · refine ⟨[separator, b], ahead, .inl ⟨like, .inr ⟨b, List.prefix_refl _, start⟩⟩, .inr ?_⟩
    exact ⟨separator, [b], rfl, .inr rfl,
      NameGrammar.isTail_nil.cons (isNamePart_of_isNameStart start)⟩
  · have letters := isLetter_of_completesThis completes
    have size := length_of_completesThis completes
    refine ⟨next.take 4, List.take_prefix .., .inr ⟨rfl, ?_⟩, .inr ?_⟩
    · rw [CompletesThis, List.take_take]
      exact completes
    · cases front : next.take 4 with
      | nil =>
          rw [front] at size
          cases size
      | cons b bs =>
          rw [front] at letters
          obtain ⟨letter, letters⟩ := List.forall_mem_cons.mp letters
          refine ⟨b, bs, rfl, .inl (isNameStart_of_isLetter letter), bs, [], by simp, ?_, nofun⟩
          intro x mem
          exact isNamePart_of_isNameStart (isNameStart_of_isLetter (letters x mem))

theorem Glues.exists_head {first next : List UInt8} (h : Glues first next) :
    ∃ b ∈ next.head?, isNamePart b ∨ b = separator := by
  rcases h with ⟨_, ⟨b, mem, part⟩ | ⟨b, ⟨bs, rfl⟩, _⟩⟩ | ⟨_, completes⟩
  · exact ⟨b, mem, .inl part⟩
  · exact ⟨separator, rfl, .inr rfl⟩
  · cases next with
    | nil => exact absurd completes (by decide)
    | cons b bs =>
        have letter := isLetter_of_completesThis completes b List.mem_cons_self
        exact ⟨b, rfl, .inl (isNamePart_of_isNameStart (isNameStart_of_isLetter letter))⟩

namespace PatternSet

/-! ### Moves at the seam -/

/-- Letters alone are one name. -/
theorem step_of_forall_isLetter {b : UInt8} {bs : List UInt8} (letters : ∀ x ∈ b :: bs, isLetter x) :
    typeExpression.step (b :: bs) = .emit (b :: bs).length (some .name) := by
  obtain ⟨letter, letters⟩ := List.forall_mem_cons.mp letters
  have whole : nameTail bs = bs.length := by
    have parts : ∀ x ∈ bs, isNamePart x := by
      intro x mem
      exact isNamePart_of_isNameStart (isNameStart_of_isLetter (letters x mem))
    simpa [nameTail] using nameTail_append [] parts
  have size : nameLength (b :: bs) = (b :: bs).length := by
    rw [nameLength, if_pos (by simp [isNameStart_of_isLetter letter]), whole, List.length_cons]
  rw [← size]
  exact step_of_nameLength_pos (by rw [size]; exact Nat.succ_pos _)

/-- A `$` that is emitted alone becomes `$this` only if what is behind it up to the
end is a lexeme glued to what is appended, or nothing. -/
theorem glues_of_beginsThis_append {b : UInt8} {bs ys : List UInt8}
    (other : ¬ BeginsThis (b :: bs)) (this : BeginsThis (b :: (bs ++ ys))) :
    b = 0x24 ∧ ((bs = [] ∧ CompletesThis ys) ∨
      (typeExpression.step bs = .emit bs.length (some .name) ∧ Glues bs ys)) := by
  obtain ⟨rfl, completes⟩ := beginsThis_cons_iff.mp this
  refine ⟨rfl, ?_⟩
  have short : bs.length < 4 := by
    apply Nat.lt_of_not_le
    intro long
    refine other (beginsThis_cons_iff.mpr ⟨rfl, ?_⟩)
    rwa [CompletesThis, List.take_append_of_le_length long] at completes
  have letters := isLetter_of_completesThis completes
  have size := length_of_completesThis completes
  rw [List.take_append, List.take_of_length_le (Nat.le_of_lt short)] at letters size
  cases bs with
  | nil => exact .inl ⟨rfl, completes⟩
  | cons c cs =>
      have inside : ∀ x ∈ c :: cs, isLetter x := by
        intro x mem
        exact letters x (List.mem_append_left _ mem)
      refine .inr ⟨step_of_forall_isLetter inside, .inl ⟨⟨c, rfl, ?_⟩, ?_⟩⟩
      · exact .inl (isNameStart_of_isLetter (inside c List.mem_cons_self))
      · cases ys with
        | nil =>
            simp only [List.take_nil, List.append_nil] at size
            omega
        | cons y ys =>
            obtain ⟨k, more⟩ : ∃ k, 4 - (c :: cs).length = k + 1 :=
              ⟨4 - (c :: cs).length - 1, by omega⟩
            refine .of_isLetter rfl (letters y (List.mem_append_right _ ?_))
            rw [more, List.take_succ_cons]
            exact List.mem_cons_self

/-- A name that is emitted goes on only if it reaches the end and is glued to what
is appended, or if a lone separator behind it is. -/
theorem step_append_or_of_name {b : UInt8} {bs : List UInt8} (start : isNameStart b ∨ b = separator)
    (ys : List UInt8) :
    nameTail (bs ++ ys) = nameTail bs ∨
      (nameTail bs = bs.length ∧ Glues (b :: bs) ys) ∨
      (typeExpression.step (bs.drop (nameTail bs)) =
          .emit (bs.drop (nameTail bs)).length (some .name) ∧
        Glues (bs.drop (nameTail bs)) ys) := by
  rcases nameTail_append_or bs ys with same | whole | ⟨lone, c, mem, first⟩
  · exact .inl same
  · by_cases continues : ContinuesName ys
    · exact .inr (.inl ⟨whole, .inl ⟨⟨b, rfl, start⟩, continues⟩⟩)
    · have stops : nameTail ys = 0 := Nat.eq_zero_of_not_pos (mt nameTail_pos_iff.mp continues)
      exact .inl (by rw [nameTail_append_of_eq_length whole, stops, whole, Nat.add_zero])
  · rw [lone]
    refine .inr (.inr ⟨?_, .inl ⟨⟨separator, rfl, .inr rfl⟩, ?_⟩⟩)
    · exact step_of_nameLength_pos (by decide)
    · exact .inl ⟨c, mem, isNamePart_of_isNameStart first⟩

theorem step_append_or {xs : List UInt8} {n : Nat} {p : Option Pattern}
    (emitted : typeExpression.step xs = .emit n p) (ys : List UInt8) :
    typeExpression.step (xs ++ ys) = .emit n p ∨ (n = xs.length ∧ Glues xs ys) ∨
      (typeExpression.step (xs.drop n) = .emit (xs.drop n).length (some .name) ∧
        Glues (xs.drop n) ys) := by
  cases xs with
  | nil => cases emitted
  | cons b bs =>
      rw [step_typeExpression_cons] at emitted
      rw [List.cons_append, step_typeExpression_cons]
      by_cases this : BeginsThis (b :: bs)
      · rw [if_pos this] at emitted
        exact .inl (by rw [← List.cons_append, if_pos (this.append ys), emitted])
      · rw [if_neg this] at emitted
        -- What is appended can complete a `$` or lengthen a name, and nothing else.
        by_cases completed : BeginsThis (b :: (bs ++ ys))
        · obtain ⟨rfl, glued⟩ := glues_of_beginsThis_append this completed
          rw [if_neg (by decide), if_neg (by decide)] at emitted
          cases emitted
          rcases glued with ⟨rfl, completes⟩ | ⟨step, glues⟩
          · exact .inr (.inl ⟨rfl, .inr ⟨rfl, completes⟩⟩)
          · exact .inr (.inr ⟨step, glues⟩)
        · rw [if_neg completed]
          by_cases start : isNameStart b ∨ b = separator
          · rw [if_pos start] at emitted ⊢
            cases emitted
            rcases step_append_or_of_name start ys with same | ⟨whole, glues⟩ | behind
            · exact .inl (by rw [same])
            · exact .inr (.inl ⟨by rw [whole, List.length_cons], glues⟩)
            · exact .inr (.inr behind)
          · rw [if_neg start] at emitted ⊢
            by_cases blank : isBlank b
            · rw [if_pos blank] at emitted
              cases emitted
            · rw [if_neg blank] at emitted ⊢
              exact .inl emitted

/-- An emitted lexeme stays as it is when the text goes on, unless it reaches the
end and is glued to what follows, or one lexeme stands between that is. -/
theorem step_append_or_glues {part rest : String} {p : Option Pattern}
    (emitted : typeExpression.step (Utf8.bytes (part ++ rest)) = .emit part.utf8ByteSize p)
    (more : String) :
    typeExpression.step (Utf8.bytes (part ++ (rest ++ more))) = .emit part.utf8ByteSize p ∨
      (rest = "" ∧ Glues (Utf8.bytes part) (Utf8.bytes more)) ∨
      (typeExpression.scan rest = [⟨rest, 0⟩] ∧ Glues (Utf8.bytes rest) (Utf8.bytes more)) := by
  have behind : (Utf8.bytes (part ++ rest)).drop part.utf8ByteSize = Utf8.bytes rest := by
    rw [Utf8.bytes_append, ← Utf8.length_bytes, List.drop_left]
  rw [← String.append_assoc, Utf8.bytes_append (part ++ rest)]
  rcases step_append_or emitted (Utf8.bytes more) with same | ⟨whole, glues⟩ | ⟨step, glues⟩
  · exact .inl same
  · have empty : rest = "" := by
      rw [Utf8.length_bytes, String.utf8ByteSize_append] at whole
      exact String.utf8ByteSize_eq_zero_iff.mp (by omega)
    subst empty
    rw [String.append_empty] at glues
    exact .inr (.inl ⟨rfl, glues⟩)
  · rw [behind, Utf8.length_bytes] at step
    rw [behind] at glues
    have alone : typeExpression.step (Utf8.bytes (rest ++ "")) =
        .emit rest.utf8ByteSize (some .name) := by
      rw [String.append_empty]
      exact step
    refine .inr (.inr ⟨?_, glues⟩)
    simpa using scan_of_emit alone

/-- What is glued to a lexeme lengthens the move that emits it. -/
theorem step_ne_of_glues {first next : List UInt8} (glues : Glues first next) (p : Option Pattern) :
    typeExpression.step (first ++ next) ≠ .emit first.length p := by
  intro emitted
  rcases glues with ⟨⟨b, mem, start⟩, continues⟩ | ⟨rfl, completes⟩
  · obtain ⟨bs, rfl⟩ := List.head?_eq_some_iff.mp mem
    have pos : 0 < nameLength (b :: (bs ++ next)) := length_name_pos_iff.mpr start
    have length : nameTail (bs ++ next) = bs.length := by
      rw [List.cons_append, step_of_nameLength_pos pos, nameLength, if_pos (by simpa using start)]
        at emitted
      exact Nat.succ.inj (Step.emit.inj emitted).1
    have whole : nameTail bs = bs.length := by
      have cut := nameTail_take (Nat.le_of_eq length)
      rwa [List.take_left, length] at cut
    have := nameTail_pos_iff.mpr continues
    rw [nameTail_append_of_eq_length whole] at length
    omega
  · have this : BeginsThis (0x24 :: next) := beginsThis_cons_iff.mpr ⟨rfl, completes⟩
    rw [List.singleton_append, step_typeExpression_cons, if_pos this] at emitted
    cases emitted

end PatternSet

end TypeExprLexer

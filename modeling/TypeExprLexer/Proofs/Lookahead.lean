import TypeExprLexer.NameGrammar
import TypeExprLexer.Proofs.Moves

/-!
What a move reads.

The first byte ahead tells which patterns can match (`Pattern.length_name_pos_iff`
and its neighbours), so at most one of `thisVariable`, `name` and `blanks` does, and
which match comes first is told by the place and by `anyChar`
(`Pattern.firstMatch?_eq_due`).
A match is decided by the bytes it takes: if the text is cut anywhere behind them,
the same move is made (`PatternSet.step_take`, `PatternSet.step_append`). That the
converse fails, because a name and `$this` read on, is the subject of
`TypeExprLexer.Proofs.Glue`.
-/

namespace TypeExprLexer

open ByteClass

/-! ### Letter case -/

namespace ByteClass

theorem toLower_of_not_isLetter {b : UInt8} (other : ¬ isLetter b) : toLower b = b := by
  have upper : ¬ (0x41 ≤ b && b ≤ 0x5A) := by
    intro h
    exact other (by rw [isLetter, h, Bool.true_or])
  rw [toLower, if_neg upper]

@[simp] theorem isLetter_toLower (b : UInt8) : isLetter (toLower b) = isLetter b := by
  by_cases upper : 0x41 ≤ b && b ≤ 0x5A
  · have range := upper
    simp only [Bool.and_eq_true, decide_eq_true_eq, UInt8.le_iff_toNat_le] at range
    have big : isLetter b := by rw [isLetter, upper, Bool.true_or]
    have small : isLetter (b + 0x20) := by
      rw [isLetter_iff, UInt8.toNat_add]
      simp only [UInt8.reduceToNat] at range ⊢
      omega
    rw [toLower, if_pos upper, big, small]
  · rw [toLower, if_neg upper]

/-- A byte that is no letter is a lower-case form of itself alone. -/
theorem eq_of_toLower_eq {b c : UInt8} (other : ¬ isLetter c) (same : toLower b = c) : b = c := by
  have noLetter : ¬ isLetter b := by
    rw [← isLetter_toLower, same]
    exact other
  rw [← same, toLower_of_not_isLetter noLetter]

end ByteClass

namespace Pattern

/-! ### The first byte -/

/-- The bytes ahead begin with `$this` in some letter case. -/
def BeginsThis (rest : List UInt8) : Prop :=
  (rest.take thisBytes.length).map toLower = thisBytes

instance (rest : List UInt8) : Decidable (BeginsThis rest) :=
  inferInstanceAs (Decidable (_ = _))

/-- Bytes spell `$this` if they begin so and there are no others. -/
theorem map_toLower_eq_thisBytes_iff {xs : List UInt8} :
    xs.map toLower = thisBytes ↔ xs.length = thisBytes.length ∧ BeginsThis xs := by
  constructor
  · intro same
    have size : xs.length = thisBytes.length := by rw [← List.length_map toLower, same]
    refine ⟨size, ?_⟩
    rw [BeginsThis, List.take_of_length_le (Nat.le_of_eq size), same]
  · rintro ⟨size, this⟩
    rwa [BeginsThis, List.take_of_length_le (Nat.le_of_eq size)] at this

theorem length_thisVariable (rest : List UInt8) :
    thisVariable.length rest = if BeginsThis rest then 5 else 0 := rfl

theorem BeginsThis.eq_dollar {b : UInt8} {bs : List UInt8} (h : BeginsThis (b :: bs)) :
    b = 0x24 := by
  have first := congrArg List.head? h
  simp only [thisBytes, List.length_cons, List.take_succ_cons, List.map_cons, List.head?_cons,
    Option.some_inj] at first
  exact eq_of_toLower_eq (by decide) first

theorem length_name_pos_iff {b : UInt8} {bs : List UInt8} :
    0 < name.length (b :: bs) ↔ isNameStart b ∨ b = separator := by
  rw [length, nameLength]
  split
  · next start => simpa using start
  · next other => simpa using other

theorem length_blanks_pos_iff {b : UInt8} {bs : List UInt8} :
    0 < blanks.length (b :: bs) ↔ isBlank b := by
  rw [length, List.takeWhile_cons]
  split
  · next blank => simp [blank]
  · next other => simp [other]

theorem length_anyChar_pos (b : UInt8) (bs : List UInt8) : 0 < anyChar.length (b :: bs) :=
  Utf8.leadWidth_pos b

/-! ### The pattern that a place is for -/

@[simp] theorem firstMatch?_nil (rest : List UInt8) : firstMatch? [] rest = none := rfl

theorem firstMatch?_cons (p : Pattern) (patterns : List Pattern) (rest : List UInt8) :
    firstMatch? (p :: patterns) rest =
      if 0 < p.length rest then some (p, p.length rest) else firstMatch? patterns rest := by
  rw [firstMatch?, List.findSome?_cons, matchLength?]
  split
  · next hit =>
      split at hit
      · next pos => rw [if_pos pos]; cases hit; rfl
      · cases hit
  · next miss =>
      split at miss
      · cases miss
      · next none => rw [if_neg none, firstMatch?]

theorem firstMatch?_eq_none_iff {patterns : List Pattern} {rest : List UInt8} :
    firstMatch? patterns rest = none ↔ ∀ p ∈ patterns, p.length rest = 0 := by
  induction patterns with
  | nil => simp [firstMatch?]
  | cons p ps ih =>
      rw [firstMatch?_cons, List.forall_mem_cons, ← ih]
      split
      · next pos => simp; omega
      · next none => simp; omega

theorem length_of_length_thisVariable_pos {rest : List UInt8} (pos : 0 < thisVariable.length rest) :
    name.length rest = 0 ∧ blanks.length rest = 0 := by
  cases rest with
  | nil => exact ⟨rfl, rfl⟩
  | cons b bs =>
      have this : BeginsThis (b :: bs) := by
        rw [length_thisVariable] at pos
        split at pos
        · assumption
        · cases pos
      have dollar := this.eq_dollar
      subst dollar
      refine ⟨Nat.eq_zero_of_not_pos ?_, Nat.eq_zero_of_not_pos ?_⟩
      · rw [length_name_pos_iff]
        decide
      · rw [length_blanks_pos_iff]
        decide

theorem length_blanks_of_length_name_pos {rest : List UInt8} (pos : 0 < name.length rest) :
    blanks.length rest = 0 := by
  cases rest with
  | nil => rfl
  | cons b bs =>
      apply Nat.eq_zero_of_not_pos
      rw [length_blanks_pos_iff]
      intro blank
      rcases length_name_pos_iff.mp pos with start | rfl
      · exact not_isNamePart_of_isBlank blank (isNamePart_of_isNameStart start)
      · cases not_isBlank_separator.symm.trans blank

/-- The one of `thisVariable`, `name` and `blanks` that matches at a place, and `anyChar`
where none of them does. -/
def due (rest : List UInt8) : Pattern :=
  if 0 < thisVariable.length rest then thisVariable
  else if 0 < name.length rest then name
  else if 0 < blanks.length rest then blanks
  else anyChar

/-- Apart from `anyChar` no other pattern matches. -/
theorem due_of_length_pos {p : Pattern} {rest : List UInt8} (special : p ≠ anyChar)
    (pos : 0 < p.length rest) : due rest = p := by
  cases p with
  | thisVariable => exact if_pos pos
  | name =>
      have noThis : ¬ 0 < thisVariable.length rest := fun this =>
        absurd (length_of_length_thisVariable_pos this).1 (Nat.ne_of_gt pos)
      rw [due, if_neg noThis, if_pos pos]
  | blanks =>
      have noThis : ¬ 0 < thisVariable.length rest := fun this =>
        absurd (length_of_length_thisVariable_pos this).2 (Nat.ne_of_gt pos)
      have noName : ¬ 0 < name.length rest := fun named =>
        absurd (length_blanks_of_length_name_pos named) (Nat.ne_of_gt pos)
      rw [due, if_neg noThis, if_neg noName, if_pos pos]
  | anyChar => exact absurd rfl special

theorem length_due_pos (b : UInt8) (bs : List UInt8) : 0 < (due (b :: bs)).length (b :: bs) := by
  unfold due
  split
  · assumption
  · split
    · assumption
    · split
      · assumption
      · exact length_anyChar_pos b bs

/-- Without `anyChar` every pattern has its turn. -/
theorem takeWhile_eq_self {patterns : List Pattern} (none : anyChar ∉ patterns) :
    patterns.takeWhile (· ≠ anyChar) = patterns := by
  induction patterns with
  | nil => rfl
  | cons p ps ih =>
      rw [List.mem_cons, not_or] at none
      rw [List.takeWhile_cons_of_pos (by simpa using Ne.symm none.1), ih none.2]

/-- The first match is the pattern due, if it is listed in front of `anyChar`, and else
`anyChar` if this is listed. -/
theorem firstMatch?_eq_due (patterns : List Pattern) (b : UInt8) (bs : List UInt8) :
    firstMatch? patterns (b :: bs) =
      if due (b :: bs) ∈ patterns.takeWhile (· ≠ anyChar) then
        some (due (b :: bs), (due (b :: bs)).length (b :: bs))
      else if anyChar ∈ patterns then some (anyChar, anyChar.length (b :: bs)) else none := by
  induction patterns with
  | nil => rfl
  | cons p ps ih =>
      rw [firstMatch?_cons]
      by_cases any : p = anyChar
      · subst any
        rw [if_pos (length_anyChar_pos b bs)]
        simp
      · rw [List.takeWhile_cons_of_pos (by simpa using any)]
        by_cases own : p = due (b :: bs)
        · rw [own, if_pos (length_due_pos b bs), if_pos List.mem_cons_self]
        · have none : ¬ 0 < p.length (b :: bs) := fun pos => own (due_of_length_pos any pos).symm
          rw [if_neg none, ih]
          simp [Ne.symm own, Ne.symm any]

/-! ### Cuts behind a match -/

/-- Names are cut off where the text is. -/
theorem nameTail_take {rest : List UInt8} {k : Nat} (within : nameTail rest ≤ k) :
    nameTail (rest.take k) = nameTail rest := by
  fun_induction nameTail rest generalizing k with
  | case1 => simp [nameTail]
  | case2 b bs part ih =>
      obtain ⟨k, rfl⟩ : ∃ m, k = m + 1 := ⟨k - 1, by omega⟩
      rw [List.take_succ_cons, nameTail_cons_of_isNamePart _ part, ih (by omega)]
  | case3 noPart =>
      cases k with
      | zero => rfl
      | succ k =>
          rw [List.take_succ_cons, List.take_nil]
          exact nameTail_separator_of_not nofun
  | case4 c cs start noPart ih =>
      obtain ⟨k, rfl⟩ : ∃ m, k = m + 2 := ⟨k - 2, by omega⟩
      rw [List.take_succ_cons, List.take_succ_cons, nameTail_separator_cons _ start, ih (by omega)]
  | case5 c cs noStart noPart =>
      cases k with
      | zero => rfl
      | succ k =>
          rw [List.take_succ_cons]
          apply nameTail_separator_of_not
          intro x mem
          cases k with
          | zero => cases mem
          | succ k =>
              cases mem
              exact noStart
  | case6 b bs noPart noSeparator =>
      cases k with
      | zero => rfl
      | succ k => rw [List.take_succ_cons, nameTail_cons_of_not _ noPart noSeparator]

theorem nameLength_take {rest : List UInt8} {k : Nat} (within : nameLength rest ≤ k) :
    nameLength (rest.take k) = nameLength rest := by
  cases rest with
  | nil => rw [List.take_nil]
  | cons b bs =>
      by_cases start : isNameStart b || b == separator
      · have whole : nameLength (b :: bs) = nameTail bs + 1 := if_pos start
        obtain ⟨k, rfl⟩ : ∃ m, k = m + 1 := ⟨k - 1, by omega⟩
        have same : nameTail (bs.take k) = nameTail bs := nameTail_take (by omega)
        rw [List.take_succ_cons, whole, ← same]
        exact if_pos start
      · have none : nameLength (b :: bs) = 0 := if_neg start
        rw [none]
        cases k with
        | zero => rfl
        | succ k => exact if_neg start

theorem beginsThis_take_iff {rest : List UInt8} {k : Nat}
    (within : thisVariable.length rest ≤ k) : BeginsThis (rest.take k) ↔ BeginsThis rest := by
  constructor
  · intro this
    have size := congrArg List.length this
    rw [List.length_map, List.length_take, List.length_take] at size
    unfold BeginsThis at this ⊢
    rwa [List.take_take, Nat.min_eq_left (by omega)] at this
  · intro this
    have within : thisBytes.length ≤ k := by
      rwa [length_thisVariable, if_pos this] at within
    unfold BeginsThis at this ⊢
    rwa [List.take_take, Nat.min_eq_left within]

/-- A match, and that there is none, is decided by the bytes it takes. -/
theorem length_take (p : Pattern) {rest : List UInt8} {k : Nat} (within : p.length rest ≤ k) :
    p.length (rest.take k) = p.length rest := by
  cases p with
  | thisVariable =>
      simp only [length_thisVariable, beginsThis_take_iff within]
  | name => exact nameLength_take within
  | blanks =>
      rw [length] at within
      rw [length, length, ← List.take_takeWhile, List.length_take]
      exact Nat.min_eq_right within
  | anyChar =>
      cases rest with
      | nil => rw [List.take_nil]
      | cons b bs =>
          have pos := length_anyChar_pos b bs
          obtain ⟨k, rfl⟩ : ∃ m, k = m + 1 := ⟨k - 1, by omega⟩
          rfl

theorem firstMatch?_take_of_eq_none {patterns : List Pattern} {rest : List UInt8} (k : Nat)
    (missed : firstMatch? patterns rest = none) : firstMatch? patterns (rest.take k) = none := by
  rw [firstMatch?_eq_none_iff] at missed ⊢
  intro p mem
  rw [length_take p (by rw [missed p mem]; exact Nat.zero_le k), missed p mem]

theorem firstMatch?_take_of_eq_some {patterns : List Pattern} {rest : List UInt8} {p : Pattern}
    {n k : Nat} (found : firstMatch? patterns rest = some (p, n)) (within : n ≤ k) :
    firstMatch? patterns (rest.take k) = some (p, n) := by
  induction patterns with
  | nil => cases found
  | cons q qs ih =>
      rw [firstMatch?_cons] at found ⊢
      by_cases pos : 0 < q.length rest
      · rw [if_pos pos] at found
        cases found
        rw [length_take p within, if_pos pos]
      · rw [if_neg pos] at found
        rw [length_take q (by omega), if_neg pos]
        exact ih found

end Pattern

/-- How many bytes a move takes. -/
def Step.length : Step → Nat
  | finished => 0
  | skip n => n
  | emit n _ => n

namespace PatternSet

variable {P : PatternSet}

/-- The same move is made where the text ends earlier, but behind what it takes. -/
theorem step_take (rest : List UInt8) {k : Nat} (pos : 0 < k)
    (within : (P.step rest).length ≤ k) : P.step (rest.take k) = P.step rest := by
  cases rest with
  | nil => rw [List.take_nil]
  | cons b bs =>
      obtain ⟨k, rfl⟩ : ∃ m, k = m + 1 := ⟨k - 1, by omega⟩
      cases first : Pattern.firstMatch? P.catchable (b :: bs) with
      | some found =>
          have same : P.step (b :: bs) = .emit found.2 (some found.1) := by simp only [step, first]
          rw [same] at within
          have first := Pattern.firstMatch?_take_of_eq_some first within
          rw [List.take_succ_cons] at first
          rw [same, List.take_succ_cons]
          simp only [step, first]
      | none =>
          have first' := Pattern.firstMatch?_take_of_eq_none (k + 1) first
          rw [List.take_succ_cons] at first' ⊢
          cases second : Pattern.firstMatch? P.nonCatchable (b :: bs) with
          | some found =>
              have taken : found.2 ≤ k + 1 := by
                obtain ⟨p, n⟩ := found
                cases p <;> simpa only [step, first, second, Step.length] using within
              have second' := Pattern.firstMatch?_take_of_eq_some second taken
              rw [List.take_succ_cons] at second'
              simp only [step, first, second, first', second']
          | none =>
              have second' := Pattern.firstMatch?_take_of_eq_none (k + 1) second
              rw [List.take_succ_cons] at second'
              simp only [step, first, second, first', second']

theorem step_append {part rest more : String} (nonempty : part ≠ "")
    (taken : (P.step (Utf8.bytes (part ++ (rest ++ more)))).length = part.utf8ByteSize) :
    P.step (Utf8.bytes (part ++ rest)) = P.step (Utf8.bytes (part ++ (rest ++ more))) := by
  have pos := Utf8.utf8ByteSize_pos nonempty
  have whole : Utf8.bytes (part ++ (rest ++ more)) =
      Utf8.bytes (part ++ rest) ++ Utf8.bytes more := by
    rw [← String.append_assoc, Utf8.bytes_append]
  have cut : P.step ((Utf8.bytes (part ++ (rest ++ more))).take (Utf8.bytes (part ++ rest)).length) =
      P.step (Utf8.bytes (part ++ (rest ++ more))) := by
    apply step_take
    · rw [Utf8.length_bytes, String.utf8ByteSize_append]
      omega
    · rw [taken, Utf8.length_bytes, String.utf8ByteSize_append]
      omega
  rw [← cut, whole, List.take_left]

/-- One move of any pattern set: the pattern due moves if its turn comes before that of
`anyChar`, and else one character is emitted. -/
theorem step_cons_eq_due (P : PatternSet) (b : UInt8) (bs : List UInt8) :
    P.step (b :: bs) =
      if .due (b :: bs) ∈ P.catchable.takeWhile (· ≠ .anyChar) then
        .emit ((Pattern.due (b :: bs)).length (b :: bs)) (some (.due (b :: bs)))
      else if .anyChar ∈ P.catchable then .emit (Utf8.leadWidth b) (some .anyChar)
      else if .due (b :: bs) ∈ P.nonCatchable.takeWhile (· ≠ .anyChar) then
        if .due (b :: bs) = Pattern.blanks then .skip (Pattern.blanks.length (b :: bs))
        else .emit ((Pattern.due (b :: bs)).length (b :: bs)) (some (.due (b :: bs)))
      else .emit (Utf8.leadWidth b) (if .anyChar ∈ P.nonCatchable then some .anyChar else none) := by
  rw [step, Pattern.firstMatch?_eq_due, Pattern.firstMatch?_eq_due]
  by_cases caught : .due (b :: bs) ∈ P.catchable.takeWhile (· ≠ .anyChar)
  · rw [if_pos caught, if_pos caught]
  rw [if_neg caught, if_neg caught]
  by_cases any : .anyChar ∈ P.catchable
  · rw [if_pos any, if_pos any]
    rfl
  rw [if_neg any, if_neg any]
  by_cases listed : .due (b :: bs) ∈ P.nonCatchable.takeWhile (· ≠ .anyChar)
  · rw [if_pos listed, if_pos listed]
    cases Pattern.due (b :: bs) <;> rfl
  rw [if_neg listed, if_neg listed]
  by_cases any : .anyChar ∈ P.nonCatchable
  · rw [if_pos any, if_pos any]
    rfl
  · rw [if_neg any, if_neg any]

/-! ### The patterns of type expressions -/

/-- One move over a type expression, by its first byte. -/
theorem step_typeExpression_cons (b : UInt8) (bs : List UInt8) :
    typeExpression.step (b :: bs) =
      if Pattern.BeginsThis (b :: bs) then .emit 5 (some .thisVariable)
      else if isNameStart b ∨ b = separator then .emit (Pattern.nameTail bs + 1) (some .name)
      else if isBlank b then .skip (Pattern.blanks.length (b :: bs))
      else .emit (Utf8.leadWidth b) (some .anyChar) := by
  simp only [step, typeExpression, Pattern.firstMatch?_cons, Pattern.length_name_pos_iff,
    Pattern.length_blanks_pos_iff, Pattern.length_anyChar_pos, Pattern.length_thisVariable]
  by_cases this : Pattern.BeginsThis (b :: bs)
  · simp [this]
  · by_cases start : isNameStart b ∨ b = separator
    · simp [this, start, Pattern.length, Pattern.nameLength]
    · by_cases blank : isBlank b
      · simp [this, start, blank]
      · simp [this, start, blank, Pattern.length]

/-- Where a name begins, the longest one is emitted. -/
theorem step_of_nameLength_pos {rest : List UInt8} (pos : 0 < Pattern.nameLength rest) :
    typeExpression.step rest = .emit (Pattern.nameLength rest) (some .name) := by
  cases rest with
  | nil => exact absurd pos (Nat.lt_irrefl 0)
  | cons b bs =>
      have start := Pattern.length_name_pos_iff.mp pos
      have other : ¬ Pattern.BeginsThis (b :: bs) := by
        intro this
        rw [this.eq_dollar] at start
        revert start
        decide
      rw [step_typeExpression_cons, if_neg other, if_pos start, Pattern.nameLength,
        if_pos (by simpa using start)]

/-- Where a name is ahead, a move that emits takes all of it. -/
theorem length_le_of_isName {name rest : List UInt8} {n : Nat} {p : Option Pattern}
    (named : NameGrammar.IsName NameGrammar.byteAlphabet name) (ahead : name <+: rest)
    (emitted : typeExpression.step rest = .emit n p) : name.length ≤ n := by
  have fits := NameGrammar.length_le_nameLength named ahead
  obtain ⟨b, bs, rfl, _⟩ := named
  have pos : 0 < Pattern.nameLength rest := Nat.lt_of_lt_of_le (Nat.succ_pos _) fits
  rw [step_of_nameLength_pos pos] at emitted
  rwa [(Step.emit.inj emitted).1] at fits

end PatternSet

end TypeExprLexer

import TypeExprLexer.Proofs.Lookahead

/-!
Blanks.

At a blank no name and no `$this` begins, so what is done there is fixed by the
order of `blanks` and `anyChar` in the two lists of a pattern set. In one case
blanks are passed over (`PatternSet.SkipsBlanks`), and then a scan never emits
one (`PatternSet.not_isBlank_of_step_emit`) and blanks in front of a text only
move its lexemes on (`PatternSet.scan_blanks_append`).
-/

namespace TypeExprLexer

open ByteClass

/-! ### Blanks and matches -/

namespace Pattern

theorem length_of_firstMatch? {patterns : List Pattern} {rest : List UInt8} {p : Pattern} {n : Nat}
    (found : firstMatch? patterns rest = some (p, n)) : 0 < n ∧ p.length rest = n := by
  obtain ⟨q, _, hit⟩ := List.exists_of_findSome?_eq_some found
  obtain ⟨m, same, eq⟩ := Option.map_eq_some_iff.mp hit
  cases eq
  exact matchLength?_eq_some_iff.mp same

/-- A match that begins with no blank takes none. -/
theorem not_isBlank_of_mem_take (p : Pattern) {chars : List Char}
    (first : ∀ b ∈ (Utf8.encode chars).head?, ¬ isBlank b) :
    ∀ b ∈ (Utf8.encode chars).take (p.length (Utf8.encode chars)), ¬ isBlank b := by
  intro b mem blank
  cases p with
  | thisVariable =>
      rw [length_thisVariable] at mem
      split at mem
      · next this =>
          unfold BeginsThis at this
          have letter : ¬ isLetter b := by
            intro letter
            exact not_isNamePart_of_isBlank blank
              (isNamePart_of_isNameStart (isNameStart_of_isLetter letter))
          have inside : b ∈ thisBytes := by
            rw [← toLower_of_not_isLetter letter, ← this]
            exact List.mem_map_of_mem mem
          have none : ∀ x ∈ thisBytes, ¬ isBlank x := by simp [thisBytes, isBlank]
          exact none b inside blank
      · cases mem
  | name =>
      rcases Nat.eq_zero_or_pos (nameLength (Utf8.encode chars)) with none | pos
      · rw [length, none] at mem
        cases mem
      · rcases (NameGrammar.isName_take pos).mem mem with start | part | rfl
        · exact not_isNamePart_of_isBlank blank (isNamePart_of_isNameStart start)
        · exact not_isNamePart_of_isBlank blank part
        · cases not_isBlank_separator.symm.trans blank
  | blanks =>
      cases ahead : Utf8.encode chars with
      | nil => simp [ahead] at mem
      | cons x xs =>
          have other : ¬ isBlank x := first x (by rw [ahead]; rfl)
          rw [ahead, length, List.takeWhile_cons_of_neg other] at mem
          cases mem
  | anyChar =>
      cases chars with
      | nil => cases mem
      | cons c cs =>
          rw [Utf8.encode_cons] at first mem
          rcases Utf8.encodeChar_cases c with ⟨x, low, eq⟩ | ⟨lead, tail, eq, width, high⟩
          · rw [eq] at first mem
            have one : anyChar.length ([x] ++ Utf8.encode cs) = 1 :=
              if_pos (UInt8.lt_of_lt_of_le low (by decide))
            rw [one] at mem
            simp only [List.singleton_append, List.take_succ_cons, List.take_zero,
              List.mem_singleton] at mem
            subst mem
            exact first b rfl blank
          · rw [eq] at mem
            have whole : anyChar.length (lead :: tail ++ Utf8.encode cs) =
              (lead :: tail).length := width
            rw [whole, List.take_left] at mem
            exact not_isBlank_of_le (high b mem) blank

end Pattern

/-! ### Blanks and moves -/

namespace PatternSet

variable {P : PatternSet}

/-- Blanks are passed over: no pattern that catches takes them, and of the others
`blanks` comes first. -/
def SkipsBlanks (P : PatternSet) : Prop :=
  .blanks ∈ P.nonCatchable.takeWhile (· ≠ .anyChar) ∧ .blanks ∉ P.catchable ∧
    .anyChar ∉ P.catchable

instance (P : PatternSet) : Decidable P.SkipsBlanks :=
  inferInstanceAs (Decidable (_ ∧ _ ∧ _))

theorem skipsBlanks_typeExpression : typeExpression.SkipsBlanks := by decide

theorem skipsBlanks_of_step_skip {rest : List UInt8} {n : Nat} (skipped : P.step rest = .skip n) :
    P.SkipsBlanks := by
  cases rest with
  | nil => cases skipped
  | cons b bs =>
      rw [step_cons_eq_due] at skipped
      split at skipped
      · cases skipped
      next uncaught =>
      split at skipped
      · cases skipped
      next noAny =>
      split at skipped
      · next listed =>
          split at skipped
          · next here =>
              rw [here] at uncaught listed
              rw [Pattern.takeWhile_eq_self noAny] at uncaught
              exact ⟨listed, uncaught, noAny⟩
          · cases skipped
      · cases skipped

theorem step_of_skipsBlanks (skips : P.SkipsBlanks) {b : UInt8} (bs : List UInt8)
    (blank : isBlank b) :
    P.step (b :: bs) = .skip (Pattern.blanks.length (b :: bs)) := by
  obtain ⟨listed, noBlanks, noAny⟩ := skips
  have here : Pattern.due (b :: bs) = .blanks :=
    Pattern.due_of_length_pos nofun (Pattern.length_blanks_pos_iff.mpr blank)
  have uncaught : .blanks ∉ P.catchable.takeWhile (· ≠ .anyChar) := by
    rwa [Pattern.takeWhile_eq_self noAny]
  rw [step_cons_eq_due, here, if_neg uncaught, if_neg noAny, if_pos listed, if_pos rfl]

/-- Where blanks are passed over, a move that emits takes none. -/
theorem not_isBlank_of_step_emit (skips : P.SkipsBlanks) {part rest : String} {p : Option Pattern}
    (emitted : P.step (Utf8.bytes (part ++ rest)) = .emit part.utf8ByteSize p) :
    ∀ b ∈ Utf8.bytes part, ¬ isBlank b := by
  have first : ∀ b ∈ (Utf8.bytes (part ++ rest)).head?, ¬ isBlank b := by
    intro b mem blank
    obtain ⟨bs, ahead⟩ := List.head?_eq_some_iff.mp mem
    rw [ahead, step_of_skipsBlanks skips bs blank] at emitted
    cases emitted
  have taken : ∃ q : Pattern, q.length (Utf8.bytes (part ++ rest)) = part.utf8ByteSize := by
    rcases cases_of_step_emit emitted with ⟨_, q, found, _⟩ | ⟨b, bs, ahead, width, _⟩
    · exact ⟨q, (Pattern.length_of_firstMatch? found).2⟩
    · exact ⟨.anyChar, by rw [ahead, Pattern.length, width]⟩
  obtain ⟨q, taken⟩ := taken
  have whole : (Utf8.bytes (part ++ rest)).take part.utf8ByteSize = Utf8.bytes part := by
    rw [Utf8.bytes_append, ← Utf8.length_bytes, List.take_left]
  rw [← whole, ← taken]
  exact q.not_isBlank_of_mem_take first

/-- Where blanks are passed over, no lexeme has one. -/
theorem not_isBlank_of_mem_scan (skips : P.SkipsBlanks) {text : String} {l : Lexeme}
    (mem : l ∈ P.scan text) : ∀ b ∈ Utf8.bytes l.text, ¬ isBlank b := by
  obtain ⟨_, _, _, _, _, emitted⟩ := exists_emit_of_mem_scan mem
  exact not_isBlank_of_step_emit skips emitted

/-- A move that skips takes blanks alone. -/
theorem isBlank_of_step_skip {part rest : String}
    (skipped : P.step (Utf8.bytes (part ++ rest)) = .skip part.utf8ByteSize) :
    ∀ b ∈ Utf8.bytes part, isBlank b := by
  have taken := (Pattern.length_of_firstMatch? (firstMatch?_of_step_skip skipped)).2
  rw [Utf8.bytes_append, ← Utf8.length_bytes] at taken
  have same : (Utf8.bytes part ++ Utf8.bytes rest).takeWhile isBlank = Utf8.bytes part := by
    have ahead := List.takeWhile_prefix isBlank (l := Utf8.bytes part ++ Utf8.bytes rest)
    have within := List.prefix_of_prefix_length_le ahead (List.prefix_append ..) (Nat.le_of_eq taken)
    exact within.eq_of_length taken
  rw [← same]
  exact List.all_eq_true.mp List.all_takeWhile

theorem length_blanks_append {part : List UInt8} (rest : List UInt8)
    (blank : ∀ b ∈ part, isBlank b) :
    Pattern.blanks.length (part ++ rest) = part.length + Pattern.blanks.length rest := by
  rw [Pattern.length, Pattern.length, List.takeWhile_append_of_pos blank, List.length_append]

theorem step_blanks_append (skips : P.SkipsBlanks) {part : List UInt8} (rest : List UInt8)
    (nonempty : part ≠ []) (blank : ∀ b ∈ part, isBlank b) :
    P.step (part ++ rest) = .skip (part.length + Pattern.blanks.length rest) := by
  rw [← length_blanks_append rest blank]
  cases part with
  | nil => exact absurd rfl nonempty
  | cons b bs => exact step_of_skipsBlanks skips (bs ++ rest) (blank b List.mem_cons_self)

/-- Where blanks are passed over, blanks in front of a text only move its lexemes
on. -/
theorem scan_blanks_append (skips : P.SkipsBlanks) {part : String} (rest : String)
    (blank : ∀ b ∈ Utf8.bytes part, isBlank b) :
    P.scan (part ++ rest) = (P.scan rest).map (Lexeme.shift part.utf8ByteSize) := by
  by_cases empty : part = ""
  · subst empty
    simp
  have nonempty : Utf8.bytes part ≠ [] := mt Utf8.bytes_eq_nil_iff.mp empty
  have step := step_blanks_append skips (Utf8.bytes rest) nonempty blank
  rw [← Utf8.bytes_append, Utf8.length_bytes] at step
  -- The run of blanks goes on into `rest` if a move skips some there.
  induction rest using move_induction P with
  | finished => exact scan_of_skip step
  | skip more rest skipped _ =>
      have taken := (Pattern.length_of_firstMatch? (firstMatch?_of_step_skip skipped)).2
      rw [taken, ← String.utf8ByteSize_append, ← String.append_assoc] at step
      rw [← String.append_assoc, scan_of_skip step, scan_of_skip skipped]
      simp [Function.comp_def]
  | emit more rest p emitted _ =>
      have none : Pattern.blanks.length (Utf8.bytes (more ++ rest)) = 0 := by
        apply Nat.eq_zero_of_not_pos
        intro pos
        cases ahead : Utf8.bytes (more ++ rest) with
        | nil =>
            rw [ahead] at pos
            cases pos
        | cons b bs =>
            rw [ahead] at pos emitted
            rw [step_of_skipsBlanks skips bs (Pattern.length_blanks_pos_iff.mp pos)] at emitted
            cases emitted
      rw [none, Nat.add_zero] at step
      exact scan_of_skip step

end PatternSet

end TypeExprLexer

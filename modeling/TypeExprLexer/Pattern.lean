import TypeExprLexer.ByteClass
import TypeExprLexer.Utf8

/-!
What scanning looks for.

A pattern says how many of the bytes ahead it takes; it sees nothing of what
came before. A pattern set is two ordered lists: the patterns that catch come
first, then those that are tried when nothing was caught, and of each list the
first match counts. `PatternSet.step` is one move of a scan: blanks that were
not caught are skipped, anything else that matches is a lexeme, and where
nothing matches one character is.
-/

namespace TypeExprLexer

open ByteClass

/-- A rule that takes some of the bytes ahead. -/
inductive Pattern where
  /-- The variable `$this` in any letter case. -/
  | thisVariable
  /-- A name of one or more segments. -/
  | name
  /-- A run of blanks. -/
  | blanks
  /-- A single character. -/
  | anyChar
deriving DecidableEq, Repr

namespace Pattern

/-- The bytes of `$this`. -/
def thisBytes : List UInt8 :=
  [0x24, 0x74, 0x68, 0x69, 0x73]

/-- How many bytes continue a name: name bytes, and a separator where a further
segment begins right after it. -/
def nameTail : List UInt8 → Nat
  | [] => 0
  | b :: bs =>
      if isNamePart b then nameTail bs + 1
      else if b = separator then
        match bs with
        | [] => 0
        | c :: cs => if isNameStart c then nameTail cs + 2 else 0
      else 0

theorem nameTail_cons_of_isNamePart {b : UInt8} (bs : List UInt8) (part : isNamePart b) :
    nameTail (b :: bs) = nameTail bs + 1 := by
  rw [nameTail.eq_def]
  exact if_pos part

theorem nameTail_separator_cons {b : UInt8} (bs : List UInt8) (start : isNameStart b) :
    nameTail (separator :: b :: bs) = nameTail bs + 2 := by
  rw [nameTail.eq_def]
  exact if_pos start

theorem nameTail_separator_of_not {rest : List UInt8}
    (noStart : ∀ b ∈ rest.head?, ¬ isNameStart b) : nameTail (separator :: rest) = 0 := by
  cases rest with
  | nil => rfl
  | cons b bs =>
      rw [nameTail.eq_def]
      exact if_neg (noStart b rfl)

theorem nameTail_cons_of_not {b : UInt8} (bs : List UInt8) (noPart : ¬ isNamePart b)
    (noSeparator : b ≠ separator) : nameTail (b :: bs) = 0 := by
  rw [nameTail.eq_def]
  exact (if_neg noPart).trans (if_neg noSeparator)

/-- How many bytes form a name, which begins with a name byte other than a digit
or with a separator. -/
def nameLength : List UInt8 → Nat
  | [] => 0
  | b :: bs => if isNameStart b || b == separator then nameTail bs + 1 else 0

/-- How many of the bytes ahead a pattern takes, 0 if it does not match. -/
def length : Pattern → List UInt8 → Nat
  | thisVariable, rest =>
      if (rest.take thisBytes.length).map toLower = thisBytes then thisBytes.length else 0
  | name, rest => nameLength rest
  | blanks, rest => (rest.takeWhile isBlank).length
  | anyChar, [] => 0
  | anyChar, b :: _ => Utf8.leadWidth b

/-- How many of the bytes ahead a pattern takes, if it matches. A match is never
empty. -/
def matchLength? (p : Pattern) (rest : List UInt8) : Option Nat :=
  if 0 < p.length rest then some (p.length rest) else none

theorem matchLength?_eq_some_iff {p : Pattern} {rest : List UInt8} {n : Nat} :
    p.matchLength? rest = some n ↔ 0 < n ∧ p.length rest = n := by
  rw [matchLength?, Option.ite_none_right_eq_some, Option.some_inj]
  constructor
  · rintro ⟨pos, rfl⟩
    exact ⟨pos, rfl⟩
  · rintro ⟨pos, rfl⟩
    exact ⟨pos, rfl⟩

theorem matchLength?_nil (p : Pattern) : p.matchLength? [] = none := by
  cases p <;> rfl

/-- The first match in a list of patterns. -/
def firstMatch? (patterns : List Pattern) (rest : List UInt8) : Option (Pattern × Nat) :=
  patterns.findSome? fun p => (p.matchLength? rest).map (p, ·)

theorem firstMatch?_pos {patterns : List Pattern} {rest : List UInt8} {p : Pattern} {n : Nat}
    (found : firstMatch? patterns rest = some (p, n)) : 0 < n := by
  obtain ⟨q, _, hit⟩ := List.exists_of_findSome?_eq_some found
  obtain ⟨m, same, eq⟩ := Option.map_eq_some_iff.mp hit
  cases eq
  exact (matchLength?_eq_some_iff.mp same).1

end Pattern

/-- Two ordered lists of patterns. -/
structure PatternSet where
  catchable : List Pattern
  nonCatchable : List Pattern
deriving DecidableEq, Repr

/-- One move of a scan. -/
inductive Step where
  /-- The text ends here. -/
  | finished
  /-- The next bytes are blanks to pass over. -/
  | skip (length : Nat)
  /-- The next bytes are a lexeme, with the pattern that took them if one did. -/
  | emit (length : Nat) (pattern : Option Pattern)
deriving DecidableEq, Repr

namespace PatternSet

/-- The patterns of type expressions. -/
def typeExpression : PatternSet where
  catchable := [.thisVariable, .name]
  nonCatchable := [.blanks, .anyChar]

/-- What to do with the bytes ahead. -/
def step (P : PatternSet) (rest : List UInt8) : Step :=
  match rest with
  | [] => .finished
  | b :: _ =>
      match Pattern.firstMatch? P.catchable rest with
      | some (p, n) => .emit n (some p)
      | none =>
          match Pattern.firstMatch? P.nonCatchable rest with
          | some (.blanks, n) => .skip n
          | some (p, n) => .emit n (some p)
          | none => .emit (Utf8.leadWidth b) none

@[simp] theorem step_nil (P : PatternSet) : P.step [] = .finished := rfl

theorem step_eq_finished_iff {P : PatternSet} {rest : List UInt8} :
    P.step rest = .finished ↔ rest = [] := by
  constructor
  · intro finished
    cases rest with
    | nil => rfl
    | cons b bs =>
        rw [step] at finished
        split at finished
        · cases finished
        · split at finished
          · cases finished
          · cases finished
          · cases finished
  · rintro rfl
    rfl

/-- What is skipped are blanks, as the first match of the patterns that do not
catch. -/
theorem firstMatch?_of_step_skip {P : PatternSet} {rest : List UInt8} {n : Nat}
    (skipped : P.step rest = .skip n) :
    Pattern.firstMatch? P.nonCatchable rest = some (.blanks, n) := by
  cases rest with
  | nil => cases skipped
  | cons b bs =>
      rw [step] at skipped
      split at skipped
      · cases skipped
      · split at skipped
        · next found => cases skipped; exact found
        · cases skipped
        · cases skipped

/-- What is emitted is the first match of one of the lists, or one character
where nothing matches. -/
theorem cases_of_step_emit {P : PatternSet} {rest : List UInt8} {n : Nat} {p : Option Pattern}
    (emitted : P.step rest = .emit n p) :
    (∃ patterns q, Pattern.firstMatch? patterns rest = some (q, n) ∧ p = some q) ∨
      ∃ b bs, rest = b :: bs ∧ Utf8.leadWidth b = n ∧ p = none := by
  cases rest with
  | nil => cases emitted
  | cons b bs =>
      rw [step] at emitted
      split at emitted
      · next found =>
          cases emitted
          exact .inl ⟨_, _, found, rfl⟩
      · split at emitted
        · cases emitted
        · next _ found =>
            cases emitted
            exact .inl ⟨_, _, found, rfl⟩
        · cases emitted
          exact .inr ⟨b, bs, rfl, rfl, rfl⟩

/-- A move that does not end the scan takes at least one byte. -/
theorem step_skip_pos {P : PatternSet} {rest : List UInt8} {n : Nat}
    (skipped : P.step rest = .skip n) : 0 < n :=
  Pattern.firstMatch?_pos (firstMatch?_of_step_skip skipped)

theorem step_emit_pos {P : PatternSet} {rest : List UInt8} {n : Nat} {p : Option Pattern}
    (emitted : P.step rest = .emit n p) : 0 < n := by
  rcases cases_of_step_emit emitted with ⟨_, _, found, _⟩ | ⟨b, _, _, rfl, _⟩
  · exact Pattern.firstMatch?_pos found
  · exact Utf8.leadWidth_pos b

end PatternSet

end TypeExprLexer

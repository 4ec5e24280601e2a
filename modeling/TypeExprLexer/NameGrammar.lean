import TypeExprLexer.Pattern

/-!
The grammar of names.

A name is a first segment and any number of further ones. The first begins with
a symbol that starts segments or with a separator, each further one is a
separator, a starting symbol and symbols that continue. Which symbols these are is
given by an alphabet: scanning reads bytes (`byteAlphabet`), and a reader of
characters has an alphabet of its own. `NameGrammar.isName_take` and
`NameGrammar.length_le_nameLength` say that the name pattern takes the longest
name that the bytes ahead begin with.
-/

namespace TypeExprLexer.NameGrammar

open ByteClass Pattern

/-- What names are made of. -/
structure Alphabet (α : Type) where
  starts : α → Bool
  continues : α → Bool
  separator : α

/-- The bytes of names. -/
abbrev byteAlphabet : Alphabet UInt8 where
  starts := isNameStart
  continues := isNamePart
  separator := ByteClass.separator

section Grammar

variable {α : Type} {A : Alphabet α}

/-- A segment after the first. -/
def IsSegment (A : Alphabet α) (word : List α) : Prop :=
  ∃ start part, word = A.separator :: start :: part ∧ A.starts start ∧ ∀ b ∈ part, A.continues b

/-- What follows the first symbol of a name. -/
def IsTail (A : Alphabet α) (word : List α) : Prop :=
  ∃ (part : List α) (segments : List (List α)), word = part ++ segments.flatten ∧
    (∀ b ∈ part, A.continues b) ∧ ∀ segment ∈ segments, IsSegment A segment

/-- A name of one or more segments. -/
def IsName (A : Alphabet α) (word : List α) : Prop :=
  ∃ first tail, word = first :: tail ∧ (A.starts first ∨ first = A.separator) ∧ IsTail A tail

/-! ### Tails symbol by symbol -/

theorem isTail_nil : IsTail A [] :=
  ⟨[], [], rfl, nofun, nofun⟩

theorem IsTail.cons {b : α} {tail : List α} (part : A.continues b) (h : IsTail A tail) :
    IsTail A (b :: tail) := by
  obtain ⟨ps, segments, rfl, parts, further⟩ := h
  exact ⟨b :: ps, segments, rfl, List.forall_mem_cons.mpr ⟨part, parts⟩, further⟩

theorem IsTail.segment {b : α} {tail : List α} (start : A.starts b) (h : IsTail A tail) :
    IsTail A (A.separator :: b :: tail) := by
  obtain ⟨ps, segments, rfl, parts, further⟩ := h
  refine ⟨[], (A.separator :: b :: ps) :: segments, rfl, nofun, ?_⟩
  exact List.forall_mem_cons.mpr ⟨⟨b, ps, rfl, start, parts⟩, further⟩

/-- A tail begins with a symbol that continues or with a further segment. -/
theorem IsTail.cases_cons {b : α} {tail : List α} (h : IsTail A (b :: tail)) :
    (A.continues b ∧ IsTail A tail) ∨
      (b = A.separator ∧ ∃ c rest, tail = c :: rest ∧ A.starts c ∧ IsTail A rest) := by
  obtain ⟨ps, segments, eq, parts, further⟩ := h
  cases ps with
  | cons p ps =>
      obtain ⟨rfl, rfl⟩ := List.cons.inj eq
      obtain ⟨part, parts⟩ := List.forall_mem_cons.mp parts
      exact .inl ⟨part, ps, segments, rfl, parts, further⟩
  | nil =>
      cases segments with
      | nil => cases eq
      | cons segment segments =>
          obtain ⟨⟨c, qs, rfl, start, parts⟩, others⟩ := List.forall_mem_cons.mp further
          obtain ⟨rfl, rfl⟩ := List.cons.inj eq
          exact .inr ⟨rfl, c, _, rfl, start, qs, segments, rfl, parts, others⟩

theorem isTail_cons_iff {b : α} {tail : List α} :
    IsTail A (b :: tail) ↔ (A.continues b ∧ IsTail A tail) ∨
      (b = A.separator ∧ ∃ c rest, tail = c :: rest ∧ A.starts c ∧ IsTail A rest) := by
  constructor
  · exact IsTail.cases_cons
  · rintro (⟨part, tailed⟩ | ⟨rfl, c, rest, rfl, start, tailed⟩)
    · exact tailed.cons part
    · exact tailed.segment start

/-- Whether a word can follow the first symbol of a name. -/
def isTail (A : Alphabet α) [DecidableEq α] : List α → Bool
  | [] => true
  | [b] => A.continues b
  | b :: c :: cs =>
      (A.continues b && isTail A (c :: cs)) || (b = A.separator && A.starts c && isTail A cs)

theorem isTail_iff [DecidableEq α] {word : List α} : isTail A word ↔ IsTail A word := by
  fun_induction isTail A word with
  | case1 => exact iff_of_true rfl isTail_nil
  | case2 b => simp [isTail_cons_iff, isTail_nil]
  | case3 b c cs ih ih' =>
      rw [isTail_cons_iff, Bool.or_eq_true, Bool.and_eq_true, Bool.and_eq_true, Bool.and_eq_true,
        ih, ih', decide_eq_true_eq]
      simp [and_assoc]

instance [DecidableEq α] (word : List α) : Decidable (IsTail A word) :=
  decidable_of_iff _ isTail_iff

theorem isName_cons_iff {first : α} {tail : List α} :
    IsName A (first :: tail) ↔ (A.starts first ∨ first = A.separator) ∧ IsTail A tail := by
  constructor
  · rintro ⟨_, _, eq, start, tailed⟩
    cases eq
    exact ⟨start, tailed⟩
  · rintro ⟨start, tailed⟩
    exact ⟨first, tail, rfl, start, tailed⟩

theorem not_isName_nil : ¬ IsName A [] := by
  rintro ⟨_, _, eq, _⟩
  cases eq

instance [DecidableEq α] : (word : List α) → Decidable (IsName A word)
  | [] => isFalse not_isName_nil
  | _ :: _ => decidable_of_iff _ isName_cons_iff.symm

theorem IsTail.mem {tail : List α} (h : IsTail A tail) {b : α} (mem : b ∈ tail) :
    A.starts b ∨ A.continues b ∨ b = A.separator := by
  obtain ⟨ps, segments, rfl, parts, further⟩ := h
  rcases List.mem_append.mp mem with mem | mem
  · exact .inr (.inl (parts b mem))
  · obtain ⟨segment, inside, mem⟩ := List.mem_flatten.mp mem
    obtain ⟨start, part, rfl, first, parts⟩ := further segment inside
    simp only [List.mem_cons] at mem
    rcases mem with rfl | rfl | mem
    · exact .inr (.inr rfl)
    · exact .inl first
    · exact .inr (.inl (parts b mem))

/-- Nothing else is in a name. -/
theorem IsName.mem {name : List α} (h : IsName A name) {b : α} (mem : b ∈ name) :
    A.starts b ∨ A.continues b ∨ b = A.separator := by
  obtain ⟨first, tail, rfl, start, tailed⟩ := h
  rcases List.mem_cons.mp mem with rfl | mem
  · exact start.imp_right .inr
  · exact tailed.mem mem

end Grammar

/-! ### The longest name -/

theorem nameTail_le_length (rest : List UInt8) : nameTail rest ≤ rest.length := by
  fun_induction nameTail rest with
  | case1 => exact Nat.le_refl 0
  | case2 _ _ _ ih => exact Nat.succ_le_succ ih
  | case3 => exact Nat.zero_le _
  | case4 _ _ _ _ ih => exact Nat.add_le_add_right ih 2
  | case5 => exact Nat.zero_le _
  | case6 => exact Nat.zero_le _

theorem nameLength_le_length (rest : List UInt8) : nameLength rest ≤ rest.length := by
  fun_cases nameLength rest with
  | case1 => exact Nat.le_refl 0
  | case2 b bs _ => exact Nat.succ_le_succ (nameTail_le_length bs)
  | case3 => exact Nat.zero_le _

theorem isTail_take (rest : List UInt8) : IsTail byteAlphabet (rest.take (nameTail rest)) := by
  fun_induction nameTail rest with
  | case1 => exact isTail_nil
  | case2 _ _ part ih => exact ih.cons part
  | case3 => exact isTail_nil
  | case4 _ _ start _ ih => exact ih.segment start
  | case5 => exact isTail_nil
  | case6 => exact isTail_nil

/-- No tail that the bytes ahead begin with is longer. -/
theorem length_le_nameTail {tail rest : List UInt8} (tailed : IsTail byteAlphabet tail)
    (ahead : tail <+: rest) : tail.length ≤ nameTail rest := by
  fun_induction nameTail rest generalizing tail with
  | case1 =>
      rw [List.prefix_nil.mp ahead]
      exact Nat.le_refl 0
  | case2 b bs part ih =>
      cases tail with
      | nil => exact Nat.zero_le _
      | cons x xs =>
          obtain ⟨rfl, behind⟩ := List.cons_prefix_cons.mp ahead
          rcases tailed.cases_cons with ⟨_, tailed⟩ | ⟨rfl, _⟩
          · exact Nat.succ_le_succ (ih tailed behind)
          · cases not_isNamePart_separator.symm.trans part
  | case3 noPart =>
      cases tail with
      | nil => exact Nat.zero_le _
      | cons x xs =>
          obtain ⟨rfl, behind⟩ := List.cons_prefix_cons.mp ahead
          rcases tailed.cases_cons with ⟨part, _⟩ | ⟨_, c, cs, rfl, _⟩
          · exact absurd part noPart
          · cases List.prefix_nil.mp behind
  | case4 c cs start noPart ih =>
      cases tail with
      | nil => exact Nat.zero_le _
      | cons x xs =>
          obtain ⟨rfl, behind⟩ := List.cons_prefix_cons.mp ahead
          rcases tailed.cases_cons with ⟨part, _⟩ | ⟨_, d, ds, rfl, _, tailed⟩
          · exact absurd part noPart
          · exact Nat.add_le_add_right (ih tailed (List.cons_prefix_cons.mp behind).2) 2
  | case5 c cs noStart noPart =>
      cases tail with
      | nil => exact Nat.zero_le _
      | cons x xs =>
          obtain ⟨rfl, behind⟩ := List.cons_prefix_cons.mp ahead
          rcases tailed.cases_cons with ⟨part, _⟩ | ⟨_, d, ds, rfl, start, _⟩
          · exact absurd part noPart
          · obtain ⟨rfl, _⟩ := List.cons_prefix_cons.mp behind
            exact absurd start noStart
  | case6 b bs noPart noSeparator =>
      cases tail with
      | nil => exact Nat.zero_le _
      | cons x xs =>
          obtain ⟨rfl, _⟩ := List.cons_prefix_cons.mp ahead
          rcases tailed.cases_cons with ⟨part, _⟩ | ⟨separated, _⟩
          · exact absurd part noPart
          · exact absurd separated noSeparator

/-- What the name pattern takes is a name. -/
theorem isName_take {rest : List UInt8} (pos : 0 < nameLength rest) :
    IsName byteAlphabet (rest.take (nameLength rest)) := by
  cases rest with
  | nil => exact absurd pos (Nat.lt_irrefl 0)
  | cons b bs =>
      by_cases first : isNameStart b || b == separator
      · rw [nameLength, if_pos first]
        exact ⟨b, _, rfl, by simpa using first, isTail_take bs⟩
      · rw [nameLength, if_neg first] at pos
        exact absurd pos (Nat.lt_irrefl 0)

/-- No name that the bytes ahead begin with is longer. -/
theorem length_le_nameLength {name rest : List UInt8} (named : IsName byteAlphabet name)
    (ahead : name <+: rest) : name.length ≤ nameLength rest := by
  obtain ⟨first, tail, rfl, start, tailed⟩ := named
  cases rest with
  | nil => cases List.prefix_nil.mp ahead
  | cons b bs =>
      obtain ⟨rfl, behind⟩ := List.cons_prefix_cons.mp ahead
      rw [nameLength, if_pos (by simpa using start)]
      exact Nat.succ_le_succ (length_le_nameTail tailed behind)

end TypeExprLexer.NameGrammar

import TypeExprLexer.Proofs.Shape

/-!
Segments of names.

A name with a namespace is told by its first byte and by whether it has a separator at all.
What a resolver of names relies on, that each separator stands between whole segments, is no
part of that rule: it comes from the grammar of names, in which a separator behind the first
byte is followed by the start of a segment (`NameGrammar.IsName.start_of_split`). So a name
that begins with a letter splits into segments (`NameGrammar.IsName.isQualified`), and one that
begins with a separator has no other loose one (`NameGrammar.IsName.isRooted`).
`Vocabulary.kind_eq_name_iff` says so for the tokens of all texts.
-/

namespace TypeExprLexer

open ByteClass

namespace NameGrammar

/-- Two or more segments with a separator between each two. -/
structure IsQualified (word : List UInt8) : Prop where
  two_le : 2 ≤ (word.splitOn separator).length
  parts : ∀ segment ∈ word.splitOn separator, segment ≠ [] ∧ ∀ b ∈ segment, isNamePart b
  /-- What stands behind a separator begins as segments do. -/
  starts : ∀ segment ∈ (word.splitOn separator).tail, ∃ b ∈ segment.head?, isNameStart b

/-- A first separator, and no other that is loose: a segment begins right behind each. -/
structure IsRooted (word : List UInt8) : Prop where
  head : word.head? = some separator
  eq_of_ends : ∀ before, word = before ++ [separator] → word = [separator]
  /-- Two in a row are the first two bytes, and a segment begins behind them. -/
  adjacent : ∀ before after, word = before ++ separator :: separator :: after →
    before = [] ∧ ∃ b ∈ after.head?, isNameStart b
  followed : ∀ before after, word = before ++ separator :: after → before ≠ [] →
    ∃ b ∈ after.head?, isNameStart b

/-! ### Separators -/

/-- Behind a separator in a tail a segment begins. Going through what stands before it, a name
byte is one byte and a further separator takes the byte behind it along. -/
theorem IsTail.start_of_append {after : List UInt8} : ∀ before : List UInt8,
    IsTail byteAlphabet (before ++ separator :: after) → ∃ b ∈ after.head?, isNameStart b
  | [], tailed => by
      rcases tailed.cases_cons with ⟨part, _⟩ | ⟨_, c, rest, rfl, start, _⟩
      · cases not_isNamePart_separator.symm.trans part
      · exact ⟨c, rfl, start⟩
  | [x], tailed => by
      rcases tailed.cases_cons with ⟨_, tailed⟩ | ⟨_, c, rest, same, start, _⟩
      · exact start_of_append [] tailed
      · cases same
        exact absurd start (by decide)
  | x :: y :: ys, tailed => by
      rcases tailed.cases_cons with ⟨_, tailed⟩ | ⟨_, c, rest, same, _, tailed⟩
      · exact start_of_append (y :: ys) tailed
      · cases same
        exact start_of_append ys tailed

/-- Behind a separator that is not the first byte of a name a segment begins. -/
theorem IsName.start_of_split {word before after : List UInt8} (named : IsName byteAlphabet word)
    (split : word = before ++ separator :: after) (inner : before ≠ []) :
    ∃ b ∈ after.head?, isNameStart b := by
  obtain ⟨first, tail, rfl, _, tailed⟩ := named
  cases before with
  | nil => exact absurd rfl inner
  | cons x xs =>
      obtain ⟨rfl, rfl⟩ := List.cons.inj split
      exact tailed.start_of_append xs

/-- A name that begins with a separator has no other loose one. -/
theorem IsName.isRooted {word : List UInt8} (named : IsName byteAlphabet word)
    (head : word.head? = some separator) : IsRooted word where
  head := head
  eq_of_ends before split := by
    by_cases inner : before = []
    · rw [split, inner]
      rfl
    · obtain ⟨b, mem, _⟩ := named.start_of_split split inner
      cases mem
  adjacent before after split := by
    by_cases inner : before = []
    · subst inner
      have second : word = [separator] ++ separator :: after := split
      exact ⟨rfl, named.start_of_split second nofun⟩
    · obtain ⟨b, mem, start⟩ := named.start_of_split split inner
      cases mem
      exact absurd start (by decide)
  followed _ _ split inner := named.start_of_split split inner

/-! ### Segments -/

theorem append_flatten_eq_intercalate {α : Type} {A : Alphabet α} (part : List α)
    {segments : List (List α)} (further : ∀ segment ∈ segments, IsSegment A segment) :
    part ++ segments.flatten = [A.separator].intercalate (part :: segments.map List.tail) := by
  induction segments generalizing part with
  | nil => simp
  | cons segment segments ih =>
      obtain ⟨⟨start, rest, rfl, _⟩, others⟩ := List.forall_mem_cons.mp further
      rw [List.map_cons, List.intercalate_cons_cons, List.tail_cons, ← ih _ others]
      simp

/-- A name part is cut nowhere. -/
theorem separator_not_mem {part : List UInt8} (parts : ∀ b ∈ part, isNamePart b) :
    separator ∉ part :=
  fun mem => absurd (parts separator mem) (by decide)

/-- What a segment is without its separator. -/
theorem IsSegment.tail {segment : List UInt8} (h : IsSegment byteAlphabet segment) :
    segment.tail ≠ [] ∧ (∀ b ∈ segment.tail, isNamePart b) ∧
      ∃ b ∈ segment.tail.head?, isNameStart b := by
  obtain ⟨start, rest, rfl, starts, parts⟩ := h
  refine ⟨nofun, ?_, start, rfl, starts⟩
  exact List.forall_mem_cons.mpr ⟨isNamePart_of_isNameStart starts, parts⟩

/-- Splitting at separators gives back what a name was put together from. -/
theorem splitOn_append_flatten {part : List UInt8} {segments : List (List UInt8)}
    (parts : ∀ b ∈ part, isNamePart b)
    (further : ∀ segment ∈ segments, IsSegment byteAlphabet segment) :
    (part ++ segments.flatten).splitOn separator = part :: segments.map List.tail := by
  rw [append_flatten_eq_intercalate part further]
  apply List.splitOn_intercalate
  · refine List.forall_mem_cons.mpr ⟨separator_not_mem parts, List.forall_mem_map.mpr ?_⟩
    intro segment mem
    exact separator_not_mem (further segment mem).tail.2.1
  · nofun

/-- A name that begins with a segment and has a separator is qualified. -/
theorem IsName.isQualified {word : List UInt8} (named : IsName byteAlphabet word)
    (first : ∃ b ∈ word.head?, isNameStart b) (separated : separator ∈ word) :
    IsQualified word := by
  obtain ⟨b, tail, rfl, _, part, segments, rfl, parts, further⟩ := named
  obtain ⟨x, head, start⟩ := first
  cases head
  have front : ∀ x ∈ b :: part, isNamePart x :=
    List.forall_mem_cons.mpr ⟨isNamePart_of_isNameStart start, parts⟩
  have pieces : (b :: (part ++ segments.flatten)).splitOn separator =
      (b :: part) :: segments.map List.tail := splitOn_append_flatten front further
  refine ⟨?_, ?_, ?_⟩
  · cases segments with
    | nil =>
        rw [List.flatten_nil, List.append_nil] at separated
        exact absurd separated (separator_not_mem front)
    | cons segment segments =>
        rw [pieces]
        simp
  · rw [pieces]
    refine List.forall_mem_cons.mpr ⟨⟨nofun, front⟩, List.forall_mem_map.mpr ?_⟩
    intro segment mem
    obtain ⟨nonempty, inside, _⟩ := (further segment mem).tail
    exact ⟨nonempty, inside⟩
  · rw [pieces, List.tail_cons]
    intro piece mem
    obtain ⟨segment, inside, rfl⟩ := List.mem_map.mp mem
    exact (further segment inside).tail.2.2

end NameGrammar

namespace Vocabulary

/-- A token is a qualified name exactly if no category lists its lexeme and the lexeme begins
with a letter and has a separator; it then splits into segments. It is a fully qualified name
exactly if no category lists its lexeme and the lexeme begins with a separator; its other
separators are then followed by segments. -/
theorem kind_eq_name_iff {v : Vocabulary} {text : String} {t : Token} (mem : t ∈ v.tokenize text) :
    (t.kind = .qualifiedName ↔ (∀ c, t.lexeme ∉ v.names c) ∧
        (∃ b ∈ (Utf8.bytes t.lexeme).head?, isLetter b) ∧ separator ∈ Utf8.bytes t.lexeme) ∧
      (t.kind = .qualifiedName → NameGrammar.IsQualified (Utf8.bytes t.lexeme)) ∧
      (t.kind = .fullyQualifiedName ↔ (∀ c, t.lexeme ∉ v.names c) ∧
        (Utf8.bytes t.lexeme).head? = some separator) ∧
      (t.kind = .fullyQualifiedName → NameGrammar.IsRooted (Utf8.bytes t.lexeme)) := by
  have lexed := isLexeme_of_mem_tokenize mem
  have qualified : t.kind = .qualifiedName ↔ (∀ c, t.lexeme ∉ v.names c) ∧
      (∃ b ∈ (Utf8.bytes t.lexeme).head?, isLetter b) ∧ separator ∈ Utf8.bytes t.lexeme := by
    rw [kind_of_mem_tokenize mem, classify_eq_iff rfl, Kind.ofShape_eq_qualifiedName_iff]
    rfl
  have rooted : t.kind = .fullyQualifiedName ↔ (∀ c, t.lexeme ∉ v.names c) ∧
      (Utf8.bytes t.lexeme).head? = some separator := by
    rw [kind_of_mem_tokenize mem, classify_eq_iff rfl, Kind.ofShape_eq_fullyQualifiedName_iff]
    rfl
  refine ⟨qualified, fun kind => ?_, rooted, fun kind => ?_⟩
  · obtain ⟨_, ⟨b, head, letter⟩, separated⟩ := qualified.mp kind
    have start := isNameStart_of_isLetter letter
    have named := NameGrammar.mem_language_iff.mp (lexed.mem_language ⟨b, head, .inl start⟩)
    exact named.isQualified ⟨b, head, start⟩ separated
  · obtain ⟨_, head⟩ := rooted.mp kind
    have named := NameGrammar.mem_language_iff.mp (lexed.mem_language ⟨_, head, .inr rfl⟩)
    exact named.isRooted head

/-- A name of two segments, and one that begins with two separators. -/
theorem kind_eq_name_iff_both :
    (⟨.qualifiedName, "a\\é1", 0⟩ : Token) ∈ standard.tokenize "a\\é1|\\\\b" ∧
      NameGrammar.IsQualified (Utf8.bytes "a\\é1") ∧
      (⟨.fullyQualifiedName, "\\\\b", 6⟩ : Token) ∈ standard.tokenize "a\\é1|\\\\b" ∧
      NameGrammar.IsRooted (Utf8.bytes "\\\\b") := by
  have first : (⟨.qualifiedName, "a\\é1", 0⟩ : Token) ∈ standard.tokenize "a\\é1|\\\\b" := by
    decide +kernel
  have last : (⟨.fullyQualifiedName, "\\\\b", 6⟩ : Token) ∈ standard.tokenize "a\\é1|\\\\b" := by
    decide +kernel
  obtain ⟨_, qualified, _⟩ := kind_eq_name_iff first
  obtain ⟨_, _, _, rooted⟩ := kind_eq_name_iff last
  exact ⟨first, qualified rfl, last, rooted rfl⟩

end Vocabulary

end TypeExprLexer

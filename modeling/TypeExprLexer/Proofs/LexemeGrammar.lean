import TypeExprLexer.Proofs.Factorization
import TypeExprLexer.Proofs.Glue
import TypeExprLexer.Proofs.LetterCase
import TypeExprLexer.Proofs.LongestName

/-!
The grammar of lexemes.

A lexeme stays one when it is scanned alone, so what can come out of a scan anywhere is
what the first move takes whole (`PatternSet.exists_mem_scan_iff`,
`PatternSet.scan_eq_singleton_iff`). For type expressions these texts have a grammar
(`IsLexeme`): `$this` in some letter case, a name, or one ASCII character that stands alone.
`PatternSet.isLexeme_iff_exists_mem_scan` says that it is exact: no surrounding yields
anything else, and each of these texts is a lexeme by itself.
-/

namespace TypeExprLexer

open CharacterReader

/-- An ASCII character that is in no name and no blank. -/
def StandsAlone (c : Char) : Prop :=
  c.toNat < 0x80 ∧ ¬ c.isAlpha ∧ c ≠ '_' ∧ c ≠ '\\' ∧ ¬ isBlank c

instance (c : Char) : Decidable (StandsAlone c) :=
  inferInstanceAs (Decidable (_ ∧ _))

/-- The texts that are lexemes of type expressions. -/
inductive IsLexeme (text : String) : Prop where
  /-- `$this` in some letter case. -/
  | thisVariable (spelled : text.toLower = "$this")
  /-- A name of one or more segments. -/
  | name (named : Utf8.bytes text ∈ NameGrammar.language)
  /-- A single character. -/
  | character (c : Char) (alone : text = String.singleton c) (standing : StandsAlone c)

namespace CharacterReader

theorem standsAlone_iff {c : Char} :
    StandsAlone c ↔ ¬ (startsSegment c ∨ c = '\\') ∧ ¬ isBlank c := by
  simp only [StandsAlone, startsSegment, Bool.or_eq_true, beq_iff_eq, decide_eq_true_eq, not_or,
    Nat.not_le]
  tauto

theorem width_pos (c : Char) (cs : List Char) : 0 < width (c :: cs) :=
  Nat.lt_of_lt_of_le c.utf8Size_pos (Nat.le_add_right ..)

/-- Characters that take all the bytes are all the characters. -/
theorem eq_of_width_take_eq {c : Char} {cs : List Char} {n : Nat}
    (whole : width (c :: cs.take n) = width (c :: cs)) : cs.take n = cs := by
  have split := cons_take_append_drop c cs n
  rw [← split, width_append] at whole
  cases behind : cs.drop n with
  | nil => exact List.take_of_length_le (List.drop_eq_nil_iff.mp behind)
  | cons d ds =>
      have := width_pos d ds
      rw [behind] at whole
      omega

theorem toLower_ofList_eq_this_iff {chars : List Char} :
    (String.ofList chars).toLower = "$this" ↔ chars.map Char.toLower = thisChars := by
  rw [← String.toList_inj, Utf8.toList_toLower, String.toList_ofList]
  rfl

/-- What is spelled `$this` begins with it and has no more bytes. -/
theorem beginsThis_of_toLower_eq {text : String} (spelled : text.toLower = "$this") :
    (Utf8.bytes text).length = Pattern.thisBytes.length ∧ Pattern.BeginsThis (Utf8.bytes text) := by
  rw [← Pattern.map_toLower_eq_thisBytes_iff, ← Utf8.bytes_toLower, spelled]
  rfl

end CharacterReader

/-- A name alone is taken whole. -/
theorem NameGrammar.nameLength_of_isName {word : List UInt8} (named : IsName byteAlphabet word) :
    0 < Pattern.nameLength word ∧ Pattern.nameLength word = word.length := by
  have size : Pattern.nameLength word = word.length :=
    Nat.le_antisymm (nameLength_le_length word) (length_le_nameLength named (List.prefix_refl word))
  obtain ⟨first, tail, rfl, _⟩ := named
  exact ⟨size ▸ Nat.succ_pos _, size⟩

namespace PatternSet

variable {P : PatternSet}

/-! ### Lexemes alone -/

/-- What is a lexeme anywhere is one lexeme when it is scanned alone. -/
theorem exists_mem_scan_iff {text : String} :
    (∃ input, ∃ l ∈ P.scan input, l.text = text) ↔ P.scan text = [⟨text, 0⟩] := by
  constructor
  · rintro ⟨input, l, mem, rfl⟩
    exact scan_of_mem_scan mem
  · intro alone
    exact ⟨text, ⟨text, 0⟩, by simp [alone], rfl⟩

/-- A text is one lexeme exactly if the first move takes it whole. -/
theorem scan_eq_singleton_iff {text : String} :
    P.scan text = [⟨text, 0⟩] ↔
      ∃ p, P.step (Utf8.bytes text) = .emit text.utf8ByteSize p := by
  constructor
  · intro alone
    have mem : ⟨text, 0⟩ ∈ P.scan text := by simp [alone]
    obtain ⟨before, after, p, split, _, emitted⟩ := exists_emit_of_mem_scan mem
    dsimp only at split emitted
    have sizes := congrArg String.utf8ByteSize split
    rw [String.utf8ByteSize_append, String.utf8ByteSize_append] at sizes
    have none : after = "" := String.utf8ByteSize_eq_zero_iff.mp (by omega)
    subst none
    rw [String.append_empty] at emitted
    exact ⟨p, emitted⟩
  · rintro ⟨p, emitted⟩
    have ahead : P.step (Utf8.bytes (text ++ "")) = .emit text.utf8ByteSize p := by
      rwa [String.append_empty]
    exact scan_of_emit_append ahead

/-! ### Lexemes of type expressions -/

/-- What the first move takes whole is in the grammar. -/
theorem isLexeme_of_step_eq_emit {c : Char} {cs : List Char} {p : Option Pattern}
    (emitted : typeExpression.step (Utf8.encode (c :: cs)) = .emit (width (c :: cs)) p) :
    IsLexeme (String.ofList (c :: cs)) := by
  by_cases this : BeginsThis (c :: cs)
  · rw [step_encode_of_beginsThis this] at emitted
    have whole : cs.take 4 = cs := eq_of_width_take_eq (Step.emit.inj emitted).1
    have five : (c :: cs).take thisChars.length = c :: cs := congrArg (c :: ·) whole
    rw [BeginsThis, five] at this
    exact .thisVariable (toLower_ofList_eq_this_iff.mpr this)
  · by_cases start : startsSegment c ∨ c = '\\'
    · rw [step_encode_of_starts start] at emitted
      have named := isName_cons_take_nameRest start cs
      rw [eq_of_width_take_eq (Step.emit.inj emitted).1, ← isName_encode_iff,
        ← NameGrammar.mem_language_iff, ← bytes_ofList] at named
      exact .name named
    · by_cases blank : isBlank c
      · obtain ⟨b, bs, eq, _, _, same, _⟩ := exists_encodeChar c
        rw [Utf8.encode_cons, eq, List.cons_append,
          step_of_skipsBlanks skipsBlanks_typeExpression _ (same.trans blank)] at emitted
        cases emitted
      · rw [step_encode_of_other this start blank] at emitted
        have whole : cs.take 0 = cs := eq_of_width_take_eq (Step.emit.inj emitted).1
        rw [← whole]
        exact .character c String.singleton_eq_ofList.symm (standsAlone_iff.mpr ⟨start, blank⟩)

/-- What is in the grammar, the first move takes whole. -/
theorem exists_step_eq_emit_of_isLexeme {text : String} (h : IsLexeme text) :
    ∃ p, typeExpression.step (Utf8.bytes text) = .emit text.utf8ByteSize p := by
  rw [← Utf8.length_bytes]
  cases h with
  | thisVariable spelled =>
      obtain ⟨size, begins⟩ := beginsThis_of_toLower_eq spelled
      rw [size]
      cases bytes : Utf8.bytes text with
      | nil =>
          rw [bytes] at size
          cases size
      | cons b bs =>
          rw [bytes] at begins
          rw [step_typeExpression_cons, if_pos begins]
          exact ⟨_, rfl⟩
  | name named =>
      obtain ⟨pos, size⟩ := NameGrammar.nameLength_of_isName (NameGrammar.mem_language_iff.mp named)
      rw [← size]
      exact ⟨_, step_of_nameLength_pos pos⟩
  | character c alone standing =>
      subst alone
      obtain ⟨noName, noBlank⟩ := standsAlone_iff.mp standing
      have noThis : ¬ BeginsThis [c] := by
        intro this
        cases congrArg List.length this
      rw [String.singleton_eq_ofList, bytes_ofList, length_encode_eq_width]
      exact ⟨_, step_encode_of_other noThis noName noBlank⟩

theorem scan_eq_singleton_iff_isLexeme {text : String} :
    typeExpression.scan text = [⟨text, 0⟩] ↔ IsLexeme text := by
  rw [scan_eq_singleton_iff]
  constructor
  · rintro ⟨p, emitted⟩
    rw [← Utf8.length_bytes, Utf8.bytes] at emitted
    rw [← String.ofList_toList (s := text)]
    cases chars : text.toList with
    | nil =>
        rw [chars] at emitted
        cases emitted
    | cons c cs =>
        rw [chars, length_encode_eq_width] at emitted
        exact isLexeme_of_step_eq_emit emitted
  · exact exists_step_eq_emit_of_isLexeme

/-- A text is a lexeme of some input exactly if it is in the grammar, and exactly if it is its
own only lexeme. -/
theorem isLexeme_iff_exists_mem_scan (text : String) :
    ((∃ input, ∃ l ∈ typeExpression.scan input, l.text = text) ↔ IsLexeme text) ∧
      (IsLexeme text ↔ typeExpression.scan text = [⟨text, 0⟩]) := by
  constructor
  · rw [exists_mem_scan_iff, scan_eq_singleton_iff_isLexeme]
  · exact scan_eq_singleton_iff_isLexeme.symm

instance (text : String) : Decidable (IsLexeme text) :=
  decidable_of_iff _ scan_eq_singleton_iff_isLexeme

example : IsLexeme "\\1\\a" ∧ ¬ IsLexeme "a\\" := by
  decide +kernel

end PatternSet

/-! ### Tokens -/

theorem Vocabulary.isLexeme_of_mem_tokenize {v : Vocabulary} {text : String} {t : Token}
    (mem : t ∈ v.tokenize text) : IsLexeme t.lexeme := by
  obtain ⟨l, found, rfl⟩ := List.mem_map.mp mem
  exact PatternSet.scan_eq_singleton_iff_isLexeme.mp (PatternSet.scan_of_mem_scan found)

/-- A lexeme that begins as names do is one. -/
theorem IsLexeme.mem_language {text : String} (lexed : IsLexeme text)
    (like : IsNameLike (Utf8.bytes text)) : Utf8.bytes text ∈ NameGrammar.language := by
  obtain ⟨b, head, start⟩ := like
  obtain ⟨bs, bytes⟩ := List.head?_eq_some_iff.mp head
  cases lexed with
  | thisVariable spelled =>
      have begins := (beginsThis_of_toLower_eq spelled).2
      rw [bytes] at begins
      rw [begins.eq_dollar] at start
      exact absurd start (by decide)
  | name named => exact named
  | character c alone standing =>
      have noName := (standsAlone_iff.mp standing).1
      obtain ⟨x, xs, eq, starts, _, _, separated, _⟩ := exists_encodeChar c
      rw [alone, String.singleton_eq_ofList, PatternSet.bytes_ofList, Utf8.encode_cons, eq] at bytes
      cases bytes
      rw [starts, separated] at start
      exact absurd start noName

end TypeExprLexer

import TypeExprLexer.Proofs.LexemeGrammar
import TypeExprLexer.Proofs.Punctuation

/-!
Kinds that are told by shape.

A kind that is no keyword is the shape of a lexeme that no category lists
(`Vocabulary.classify_eq_iff`), and the shape of a text shows in its bytes
(`Kind.ofShape_eq_qualifiedName_iff` and its neighbours). What is not understood need not be a
single character: names that begin outside the letters and `$this` are whole lexemes.
`Vocabulary.kind_eq_unrecognized_iff` lists all of them, under every vocabulary.
-/

namespace TypeExprLexer

open ByteClass CharacterReader

/-! ### Characters and their first bytes -/

/-- The bytes that start a name without being letters. -/
theorem ByteClass.isNameStart_and_not_isLetter_iff {b : UInt8} :
    isNameStart b ∧ ¬ isLetter b ↔ b = 0x5F ∨ 0x80 ≤ b := by
  rw [isNameStart_iff, isLetter_iff, ← UInt8.toNat_inj, UInt8.le_iff_toNat_le]
  simp only [UInt8.reduceToNat]
  omega

namespace CharacterReader

theorem isLetter_of_lt : ∀ c : Char, c.toNat < 0x80 → isLetter (UInt8.ofNat c.toNat) = c.isAlpha :=
  forall_ascii (by decide)

/-- There are no letters outside ASCII. -/
theorem isAlpha_of_le {c : Char} (wide : 0x80 ≤ c.toNat) : c.isAlpha = false := by
  rw [Bool.eq_false_iff]
  intro alpha
  have low : c ≤ 'z' := by
    rcases Bool.or_eq_true_iff.mp alpha with upper | lower
    · have bounds : 'A' ≤ c ∧ c ≤ 'Z' := of_decide_eq_true upper
      exact Char.le_trans bounds.2 (by decide)
    · have bounds : (decide ('a' ≤ c) && decide (c ≤ 'z')) = true := lower
      exact of_decide_eq_true (Bool.and_eq_true_iff.mp bounds).2
  exact absurd (Nat.le_trans wide low) (by decide)

theorem ne_backslash_of_isAlpha {c : Char} (alpha : c.isAlpha) : c ≠ '\\' := by
  rintro rfl
  cases alpha

/-- The first byte of a character is a letter exactly if the character is. -/
theorem isLetter_head {c : Char} {b : UInt8} {bs : List UInt8}
    (eq : String.utf8EncodeChar c = b :: bs) : isLetter b = c.isAlpha := by
  by_cases ascii : c.toNat < 0x80
  · obtain ⟨rfl, _⟩ := List.cons.inj (eq.symm.trans (Utf8.encodeChar_of_lt ascii))
    exact isLetter_of_lt c ascii
  · have wide := Nat.le_of_not_lt ascii
    have high : 0x80 ≤ b := Utf8.le_of_mem_encodeChar wide (eq ▸ List.mem_cons_self)
    rw [isAlpha_of_le wide, Bool.eq_false_iff, ne_eq, isLetter_iff]
    simp only [UInt8.le_iff_toNat_le, UInt8.reduceToNat] at high
    omega

/-- The first byte of characters has the classes of the first character. -/
theorem exists_head?_encode (c : Char) (cs : List Char) :
    ∃ b, (Utf8.encode (c :: cs)).head? = some b ∧ isNameStart b = startsSegment c ∧
      isLetter b = c.isAlpha ∧ (b = separator ↔ c = '\\') := by
  obtain ⟨b, bs, eq, start, _, _, separated, _⟩ := exists_encodeChar c
  refine ⟨b, ?_, start, isLetter_head eq, separated⟩
  rw [Utf8.encode_cons, eq]
  rfl

theorem separator_mem_encode_iff {chars : List Char} :
    separator ∈ Utf8.encode chars ↔ '\\' ∈ chars := by
  have own (c : Char) : separator ∈ String.utf8EncodeChar c ↔ c = '\\' := by
    obtain ⟨b, bs, eq, _, _, _, separated, parts⟩ := exists_encodeChar c
    have noTail : separator ∉ bs := fun mem => absurd (parts separator mem) (by decide)
    rw [eq, List.mem_cons, or_iff_left noTail, eq_comm, separated]
  simp [Utf8.encode, own]

end CharacterReader

/-! ### Shapes -/

namespace Kind

theorem ofSymbol?_eq_lookup (c : Char) : ofSymbol? c = signs.lookup c := by
  apply Option.ext
  intro k
  rw [ofSymbol?_eq_some_iff, lookup_signs_eq_some_iff]

theorem isName_ofSymbol? (c : Char) : ((ofSymbol? c).getD unrecognized).isName = false := by
  unfold ofSymbol?
  split <;> rfl

/-- A letter shows a word or a qualified name. -/
theorem ofShape_cons_of_isAlpha {c : Char} (alpha : c.isAlpha) (cs : List Char) :
    ofShape (c :: cs) = if '\\' ∈ cs then qualifiedName else pseudoType := by
  rw [ofShape, if_neg (ne_backslash_of_isAlpha alpha), if_pos alpha]

/-- Only a letter and a separator begin names with a namespace. -/
theorem isName_ofShape_cons {c : Char} (noSeparator : c ≠ '\\') (noAlpha : ¬ c.isAlpha)
    (cs : List Char) : (ofShape (c :: cs)).isName = false := by
  rw [ofShape, if_neg noSeparator, if_neg noAlpha]
  split
  · exact isName_ofSymbol? c
  · rfl

/-- A qualified name begins with a letter and has a separator. -/
theorem ofShape_eq_qualifiedName_iff {chars : List Char} :
    ofShape chars = qualifiedName ↔
      (∃ b ∈ (Utf8.encode chars).head?, isLetter b) ∧ separator ∈ Utf8.encode chars := by
  rw [separator_mem_encode_iff]
  cases chars with
  | nil => simp [ofShape]
  | cons c cs =>
      obtain ⟨b, first, _, letter, _⟩ := exists_head?_encode c cs
      simp only [first, Option.mem_some_iff, exists_eq_left', letter]
      by_cases alpha : c.isAlpha
      · simp [ofShape_cons_of_isAlpha alpha, alpha, (ne_backslash_of_isAlpha alpha).symm]
      · refine iff_of_false ?_ (fun h => alpha h.1)
        intro shape
        by_cases separated : c = '\\'
        · rw [ofShape, if_pos separated] at shape
          cases shape
        · have noName := isName_ofShape_cons separated alpha cs
          rw [shape] at noName
          cases noName

/-- A fully qualified name begins with a separator. -/
theorem ofShape_eq_fullyQualifiedName_iff {chars : List Char} :
    ofShape chars = fullyQualifiedName ↔ (Utf8.encode chars).head? = some separator := by
  cases chars with
  | nil => simp [ofShape]
  | cons c cs =>
      obtain ⟨b, first, _, _, separated⟩ := exists_head?_encode c cs
      rw [first, Option.some_inj, separated]
      constructor
      · intro shape
        by_contra other
        by_cases alpha : c.isAlpha
        · rw [ofShape_cons_of_isAlpha alpha] at shape
          split at shape
          · cases shape
          · cases shape
        · have noName := isName_ofShape_cons other alpha cs
          rw [shape] at noName
          cases noName
      · intro backslash
        rw [ofShape, if_pos backslash]

/-- A text is unknown by its shape if it begins with neither a letter nor a separator and is no
sign. -/
theorem ofShape_cons_eq_unrecognized_iff {c : Char} {cs : List Char} :
    ofShape (c :: cs) = unrecognized ↔
      c ≠ '\\' ∧ ¬ c.isAlpha ∧ (cs = [] → signs.lookup c = none) := by
  by_cases separated : c = '\\'
  · rw [ofShape, if_pos separated]
    refine iff_of_false ?_ (fun h => h.1 separated)
    intro shape
    cases shape
  · by_cases alpha : c.isAlpha
    · rw [ofShape_cons_of_isAlpha alpha]
      refine iff_of_false ?_ (fun h => h.2.1 alpha)
      intro shape
      split at shape
      · cases shape
      · cases shape
    · rw [ofShape, if_neg separated, if_neg alpha, ofSymbol?_eq_lookup]
      cases cs with
      | nil =>
        cases found : signs.lookup c with
        | none => simp [separated, alpha]
        | some k =>
            have known : ∀ sign ∈ signs, sign.2 ≠ unrecognized := by decide
            simpa using known _ (lookup_signs_eq_some_iff.mp found)
      | cons d ds => simp [separated, alpha]

end Kind

namespace Vocabulary

variable {v : Vocabulary}

/-- A kind that is no keyword belongs to the lexemes of one shape that no category lists. -/
theorem classify_eq_iff {lexeme : String} {k : Kind} (other : k.isTypeKeyword = false) :
    v.classify lexeme = k ↔ (∀ c, lexeme ∉ v.names c) ∧ Kind.ofShape lexeme.toList = k := by
  constructor
  · rintro rfl
    obtain ⟨unlisted, shape⟩ := classify_of_not_isTypeKeyword other
    exact ⟨unlisted, shape.symm⟩
  · rintro ⟨unlisted, rfl⟩
    have noVoid : lexeme ≠ "void" := by
      rintro rfl
      exact absurd other (by decide)
    have noNull : lexeme.toLower ≠ "null" := by
      intro null
      have shape := Kind.ofShape_map_toLower lexeme.toList
      rw [← Utf8.toList_toLower, null] at shape
      rw [← shape] at other
      exact absurd other (by decide)
    have free : ¬ v.FixesCase lexeme := by
      rintro (void | ⟨c, listed⟩)
      · exact noVoid void
      · exact unlisted c listed
    rw [classify_of_not_fixesCase free, if_neg noNull]

end Vocabulary

/-! ### What is not understood -/

/-- The lexemes that have no kind by their shape. -/
inductive IsKindless (text : String) : Prop where
  /-- A name that begins with an underscore or with a character outside ASCII. -/
  | name (first : ∃ b ∈ (Utf8.bytes text).head?, b = 0x5F ∨ 0x80 ≤ b)
  /-- `$this` in some letter case. -/
  | thisVariable (spelled : text.toLower = "$this")
  /-- A single character that is no sign. -/
  | character (c : Char) (alone : text = String.singleton c) (standing : StandsAlone c)
      (noSign : Kind.signs.lookup c = none)

/-- Such a text is unknown by its shape, wherever it comes from. -/
theorem ofShape_of_isKindless {text : String} (kindless : IsKindless text) :
    Kind.ofShape text.toList = .unrecognized := by
  cases kindless with
  | name first =>
      obtain ⟨b, head, apart⟩ := first
      cases chars : text.toList with
      | nil =>
          rw [Utf8.bytes, chars] at head
          cases head
      | cons c cs =>
          obtain ⟨x, first, start, letter, separated⟩ := exists_head?_encode c cs
          rw [Utf8.bytes, chars, first] at head
          cases head
          obtain ⟨starts, noLetter⟩ := isNameStart_and_not_isLetter_iff.mpr apart
          have free : SignFree [c] :=
            signFree_of_forall (p := fun d => startsSegment d)
              (List.forall_mem_singleton.mpr (start.symm.trans starts)) (by decide)
          have noSeparator : c ≠ '\\' := by
            intro backslash
            rw [separated.mpr backslash] at starts
            cases starts
          rw [Kind.ofShape_cons_eq_unrecognized_iff]
          exact ⟨noSeparator, letter ▸ noLetter, fun _ => free c List.mem_cons_self⟩
  | thisVariable spelled =>
      rw [← Kind.ofShape_map_toLower, ← Utf8.toList_toLower, spelled]
      decide
  | character c alone standing noSign =>
      obtain ⟨_, noAlpha, _, noSeparator, _⟩ := standing
      rw [alone, String.toList_singleton, Kind.ofShape_cons_eq_unrecognized_iff]
      exact ⟨noSeparator, noAlpha, fun _ => noSign⟩

/-- The lexemes that are unknown by their shape. -/
theorem ofShape_eq_unrecognized_iff_of_isLexeme {text : String} (lexed : IsLexeme text) :
    Kind.ofShape text.toList = .unrecognized ↔ IsKindless text := by
  refine ⟨fun shape => ?_, ofShape_of_isKindless⟩
  cases lexed with
  | thisVariable spelled => exact .thisVariable spelled
  | name named =>
      cases chars : text.toList with
      | nil =>
          rw [Utf8.bytes, chars] at named
          exact absurd (NameGrammar.mem_language_iff.mp named) NameGrammar.not_isName_nil
      | cons c cs =>
          obtain ⟨b, first, _, letter, separated⟩ := exists_head?_encode c cs
          rw [chars, Kind.ofShape_cons_eq_unrecognized_iff, ← letter, ne_eq, ← separated] at shape
          obtain ⟨noSeparator, noLetter, _⟩ := shape
          obtain ⟨x, tail, bytes, start, _⟩ := NameGrammar.mem_language_iff.mp named
          rw [Utf8.bytes, chars] at bytes
          rw [bytes] at first
          cases first
          refine .name ⟨b, by rw [Utf8.bytes, chars, bytes]; rfl, ?_⟩
          exact isNameStart_and_not_isLetter_iff.mp ⟨start.resolve_right noSeparator, noLetter⟩
  | character c alone standing =>
      rw [alone, String.toList_singleton, Kind.ofShape_cons_eq_unrecognized_iff] at shape
      exact .character c alone standing (shape.2.2 rfl)

namespace Vocabulary

/-- A token is unrecognized exactly if no category lists its lexeme and the lexeme is one of
those that have no kind by their shape; one that begins with an underscore or outside ASCII
is a whole name. -/
theorem kind_eq_unrecognized_iff {v : Vocabulary} {text : String} {t : Token}
    (mem : t ∈ v.tokenize text) :
    (t.kind = .unrecognized ↔ (∀ c, t.lexeme ∉ v.names c) ∧ IsKindless t.lexeme) ∧
      ((∃ b ∈ (Utf8.bytes t.lexeme).head?, b = 0x5F ∨ 0x80 ≤ b) →
        Utf8.bytes t.lexeme ∈ NameGrammar.language) := by
  have lexed := isLexeme_of_mem_tokenize mem
  constructor
  · rw [kind_of_mem_tokenize mem, classify_eq_iff rfl,
      ofShape_eq_unrecognized_iff_of_isLexeme lexed]
  · rintro ⟨b, head, apart⟩
    exact lexed.mem_language ⟨b, head, .inl (isNameStart_and_not_isLetter_iff.mpr apart).1⟩

/-- A name of two segments that is unrecognized as a whole. -/
theorem kind_eq_unrecognized_iff_underscore :
    (⟨.unrecognized, "_a\\b", 1⟩ : Token) ∈ standard.tokenize "|_a\\b" ∧
      (∀ c, "_a\\b" ∉ standard.names c) ∧ IsKindless "_a\\b" ∧
      Utf8.bytes "_a\\b" ∈ NameGrammar.language := by
  have mem : (⟨.unrecognized, "_a\\b", 1⟩ : Token) ∈ standard.tokenize "|_a\\b" := by
    decide +kernel
  obtain ⟨kinds, named⟩ := kind_eq_unrecognized_iff mem
  obtain ⟨unlisted, kindless⟩ := kinds.mp rfl
  exact ⟨mem, unlisted, kindless, named ⟨0x5F, rfl, .inl rfl⟩⟩

end Vocabulary

end TypeExprLexer

import TypeExprLexer.Classification
import TypeExprLexer.Proofs.CharacterReader
import TypeExprLexer.Tokenization

/-!
Letter case.

No pattern sees the case of an ASCII letter: the classes of bytes treat all letters alike,
and `$this` is compared in lower case. So a text in lower case has the lexemes of the
text, in lower case and at the same offsets (`PatternSet.scan_toLower`). Of the classifier
only the vocabulary and the word `void` count as they are spelled
(`Vocabulary.FixesCase`), hence texts that differ in letter case alone have the same kinds
everywhere else (`Vocabulary.tokenize_of_toLower_eq`). `String.toLower` knows the letters of
ASCII alone.
-/

namespace TypeExprLexer

/-! ### Bytes -/

namespace ByteClass

/-- What treats all letters alike does not see letter case. -/
theorem apply_toLower {α : Type} {f : UInt8 → α} {y : α} (alike : ∀ b, isLetter b → f b = y)
    (b : UInt8) : f (toLower b) = f b := by
  by_cases letter : isLetter b
  · rw [alike b letter, alike (toLower b) (by simpa using letter)]
  · rw [toLower_of_not_isLetter letter]

@[simp] theorem isNameStart_toLower (b : UInt8) : isNameStart (toLower b) = isNameStart b :=
  apply_toLower (fun _ => isNameStart_of_isLetter) b

@[simp] theorem isNamePart_toLower (b : UInt8) : isNamePart (toLower b) = isNamePart b :=
  apply_toLower (fun _ letter => isNamePart_of_isNameStart (isNameStart_of_isLetter letter)) b

theorem not_isBlank_of_isLetter {b : UInt8} (letter : isLetter b) : isBlank b = false := by
  apply Bool.eq_false_iff.mpr
  intro blank
  exact not_isNamePart_of_isBlank blank (isNamePart_of_isNameStart (isNameStart_of_isLetter letter))

@[simp] theorem isBlank_toLower (b : UInt8) : isBlank (toLower b) = isBlank b :=
  apply_toLower (fun _ => not_isBlank_of_isLetter) b

@[simp] theorem toLower_separator : toLower separator = separator :=
  toLower_of_not_isLetter (by decide)

theorem toLower_eq_separator_iff {b : UInt8} : toLower b = separator ↔ b = separator := by
  constructor
  · exact eq_of_toLower_eq (by decide)
  · rintro rfl
    exact toLower_separator

theorem leadWidth_of_isLetter {b : UInt8} (letter : isLetter b) : Utf8.leadWidth b = 1 := by
  have low : b.toNat < 0xC0 := by
    rw [isLetter_iff] at letter
    omega
  exact if_pos (UInt8.lt_iff_toNat_lt.mpr low)

@[simp] theorem leadWidth_toLower (b : UInt8) : Utf8.leadWidth (toLower b) = Utf8.leadWidth b :=
  apply_toLower (fun _ => leadWidth_of_isLetter) b

@[simp] theorem toLower_toLower (b : UInt8) : toLower (toLower b) = toLower b := by
  by_cases upper : 0x41 ≤ b && b ≤ 0x5A
  · have lower : ¬ (0x41 ≤ b + 0x20 && b + 0x20 ≤ 0x5A) := by
      simp only [Bool.and_eq_true, decide_eq_true_eq, UInt8.le_iff_toNat_le, UInt8.toNat_add,
        UInt8.reduceToNat] at upper ⊢
      omega
    simp only [toLower, if_pos upper, if_neg lower]
  · simp only [toLower, if_neg upper]

end ByteClass

open ByteClass

/-! ### Matches and moves -/

namespace Pattern

theorem nameTail_map_toLower (rest : List UInt8) : nameTail (rest.map toLower) = nameTail rest := by
  fun_induction nameTail rest with
  | case1 => rfl
  | case2 b bs part ih =>
      rw [List.map_cons, nameTail_cons_of_isNamePart _ (by simpa using part), ih]
  | case3 noPart => rfl
  | case4 c cs start noPart ih =>
      rw [List.map_cons, List.map_cons, toLower_separator,
        nameTail_separator_cons _ (by simpa using start), ih]
  | case5 c cs noStart noPart =>
      rw [List.map_cons, toLower_separator]
      exact nameTail_separator_of_not (by simpa using noStart)
  | case6 b bs noPart noSeparator =>
      rw [List.map_cons]
      exact nameTail_cons_of_not _ (by simpa using noPart)
        (mt toLower_eq_separator_iff.mp noSeparator)

theorem beginsThis_map_toLower (rest : List UInt8) :
    BeginsThis (rest.map toLower) ↔ BeginsThis rest := by
  simp [BeginsThis, ← List.map_take, Function.comp_def]

/-- No pattern sees letter case. -/
@[simp] theorem length_map_toLower (p : Pattern) (rest : List UInt8) :
    p.length (rest.map toLower) = p.length rest := by
  cases p with
  | thisVariable => simp only [length_thisVariable, beginsThis_map_toLower]
  | name =>
      cases rest with
      | nil => rfl
      | cons b bs =>
          simp only [length, List.map_cons, nameLength, isNameStart_toLower, nameTail_map_toLower,
            beq_iff_eq, Bool.or_eq_true, toLower_eq_separator_iff]
  | blanks =>
      have same : isBlank ∘ toLower = isBlank := funext isBlank_toLower
      simp only [length, List.takeWhile_map, same, List.length_map]
  | anyChar =>
      cases rest with
      | nil => rfl
      | cons b bs => exact leadWidth_toLower b

theorem due_map_toLower (rest : List UInt8) : due (rest.map toLower) = due rest := by
  simp only [due, length_map_toLower]

end Pattern

namespace PatternSet

/-- No move sees letter case. -/
theorem step_map_toLower (P : PatternSet) (rest : List UInt8) :
    P.step (rest.map toLower) = P.step rest := by
  cases rest with
  | nil => rfl
  | cons b bs =>
      have due : Pattern.due (toLower b :: bs.map toLower) = Pattern.due (b :: bs) :=
        Pattern.due_map_toLower (b :: bs)
      have length : ∀ p : Pattern, p.length (toLower b :: bs.map toLower) = p.length (b :: bs) :=
        fun p => p.length_map_toLower (b :: bs)
      simp only [List.map_cons, step_cons_eq_due, due, length, leadWidth_toLower]

end PatternSet

/-! ### Characters -/

namespace CharacterReader

/-- The lower case of a letter is a letter, and no other character has one of its own. -/
theorem ascii_toLower : ∀ c : Char, c.toNat < 0x80 →
    c.toLower.isAlpha = c.isAlpha ∧ (¬ c.isAlpha → c.toLower = c) :=
  forall_ascii (by decide)

theorem isAlpha_toLower (c : Char) : c.toLower.isAlpha = c.isAlpha := by
  by_cases ascii : c.toNat < 0x80
  · exact (ascii_toLower c ascii).1
  · rw [toLower_of_le (Nat.le_of_not_lt ascii)]

theorem toLower_of_not_isAlpha {c : Char} (other : ¬ c.isAlpha) : c.toLower = c := by
  by_cases ascii : c.toNat < 0x80
  · exact (ascii_toLower c ascii).2 other
  · exact toLower_of_le (Nat.le_of_not_lt ascii)

theorem toLower_eq_backslash_iff {c : Char} : c.toLower = '\\' ↔ c = '\\' := by
  by_cases letter : c.isAlpha
  · refine iff_of_false ?_ ?_
    · intro same
      rw [← isAlpha_toLower, same] at letter
      cases letter
    · rintro rfl
      cases letter
  · rw [toLower_of_not_isAlpha letter]

end CharacterReader

/-! ### Texts -/

namespace Utf8

theorem encodeChar_toLower (c : Char) :
    String.utf8EncodeChar c.toLower = (String.utf8EncodeChar c).map toLower := by
  by_cases ascii : c.toNat < 0x80
  · obtain ⟨lower, bound⟩ := CharacterReader.toLower_of_lt c ascii
    rw [encodeChar_of_lt ascii, encodeChar_of_lt bound, List.map_singleton, lower]
  · have wide := Nat.le_of_not_lt ascii
    have same : ∀ b ∈ String.utf8EncodeChar c, toLower b = b := by
      intro b mem
      have high := UInt8.le_iff_toNat_le.mp (le_of_mem_encodeChar wide mem)
      simp only [UInt8.reduceToNat] at high
      apply toLower_of_not_isLetter
      rw [isLetter_iff]
      omega
    rw [CharacterReader.toLower_of_le wide, List.map_congr_left same, List.map_id']

theorem encode_map_toLower (chars : List Char) :
    encode (chars.map Char.toLower) = (encode chars).map toLower := by
  simp [encode, List.flatMap_map, List.map_flatMap, encodeChar_toLower]

theorem toList_toLower (text : String) : text.toLower.toList = text.toList.map Char.toLower :=
  String.toList_map

theorem bytes_toLower (text : String) : bytes text.toLower = (bytes text).map toLower := by
  rw [bytes, toList_toLower, encode_map_toLower, bytes]

@[simp] theorem utf8ByteSize_toLower (text : String) :
    text.toLower.utf8ByteSize = text.utf8ByteSize := by
  rw [← length_bytes, bytes_toLower, List.length_map, length_bytes]

theorem toLower_append (s t : String) : (s ++ t).toLower = s.toLower ++ t.toLower := by
  apply eq_of_bytes_eq
  simp only [bytes_toLower, bytes_append, List.map_append]

end Utf8

/-! ### Lexemes -/

/-- The lexeme with its text in lower case. -/
def Lexeme.toLower (l : Lexeme) : Lexeme :=
  { l with text := l.text.toLower }

namespace PatternSet

/-- A text in lower case has the lexemes of the text in lower case. -/
theorem scan_toLower (P : PatternSet) (text : String) :
    P.scan text.toLower = (P.scan text).map Lexeme.toLower := by
  have step (part rest : String) : P.step (Utf8.bytes (part.toLower ++ rest.toLower)) =
      P.step (Utf8.bytes (part ++ rest)) := by
    rw [← Utf8.toLower_append, Utf8.bytes_toLower, step_map_toLower]
  induction text using move_induction P with
  | finished =>
      have empty : "".toLower = "" := Utf8.eq_of_bytes_eq (Utf8.bytes_toLower "")
      simp [empty]
  | skip part rest skipped ih =>
      have skipped' := (step part rest).trans skipped
      rw [← Utf8.utf8ByteSize_toLower] at skipped'
      rw [Utf8.toLower_append, scan_of_skip skipped', scan_of_skip skipped, ih]
      simp [Function.comp_def, Lexeme.toLower, Lexeme.shift]
  | emit part rest p emitted ih =>
      have emitted' := (step part rest).trans emitted
      rw [← Utf8.utf8ByteSize_toLower] at emitted'
      rw [Utf8.toLower_append, scan_of_emit emitted', scan_of_emit emitted, ih]
      simp [Function.comp_def, Lexeme.toLower, Lexeme.shift]

/-- Texts that differ in letter case alone are cut at the same places. -/
theorem scan_of_toLower_eq (P : PatternSet) {s t : String} (same : s.toLower = t.toLower) :
    (P.scan s).map Lexeme.toLower = (P.scan t).map Lexeme.toLower := by
  rw [← scan_toLower, same, scan_toLower]

end PatternSet

/-! ### Kinds -/

theorem Kind.ofShape_map_toLower (chars : List Char) :
    ofShape (chars.map Char.toLower) = ofShape chars := by
  cases chars with
  | nil => rfl
  | cons c cs =>
      have separated : '\\' ∈ cs.map Char.toLower ↔ '\\' ∈ cs := by
        simp [CharacterReader.toLower_eq_backslash_iff]
      by_cases letter : c.isAlpha
      · simp only [List.map_cons, ofShape, CharacterReader.toLower_eq_backslash_iff,
          CharacterReader.isAlpha_toLower, letter, separated, if_true]
      · simp only [List.map_cons, ofShape, CharacterReader.toLower_of_not_isAlpha letter, letter,
          List.isEmpty_map]
        simp

namespace Vocabulary

variable {v : Vocabulary}

/-- The spelling of the lexeme counts, letter case included: the vocabulary lists it, or it
is `void`. -/
def FixesCase (v : Vocabulary) (lexeme : String) : Prop :=
  lexeme = "void" ∨ ∃ c, lexeme ∈ v.names c

theorem classify_of_not_fixesCase {lexeme : String} (free : ¬ v.FixesCase lexeme) :
    v.classify lexeme =
      if lexeme.toLower = "null" then .null else Kind.ofShape lexeme.toList := by
  rw [FixesCase, not_or, not_exists] at free
  rw [classify_of_not_mem free.2]
  simp [classify, empty, free.1]

/-- Where spelling does not count, letter case has no say in the kind. -/
theorem classify_of_toLower_eq {x y : String} (same : x.toLower = y.toLower)
    (freeX : ¬ v.FixesCase x) (freeY : ¬ v.FixesCase y) : v.classify x = v.classify y := by
  have shape : Kind.ofShape x.toList = Kind.ofShape y.toList := by
    rw [← Kind.ofShape_map_toLower x.toList, ← Utf8.toList_toLower, same, Utf8.toList_toLower,
      Kind.ofShape_map_toLower]
  rw [classify_of_not_fixesCase freeX, classify_of_not_fixesCase freeY, same, shape]

/-- Texts that differ in the case of ASCII letters alone have as many lexemes, of the same
lengths and at the same offsets, under every pattern set. Their tokens have the same kinds
except where the spelling of one of the two counts. -/
theorem tokenize_of_toLower_eq {s t : String} (same : s.toLower = t.toLower) :
    (∀ P : PatternSet, (P.scan s).map (fun l => (l.offset, l.text.utf8ByteSize)) =
      (P.scan t).map fun l => (l.offset, l.text.utf8ByteSize)) ∧
    ∀ (v : Vocabulary) (i : Nat) (a b : Token), (v.tokenize s)[i]? = some a →
      (v.tokenize t)[i]? = some b → a.kind ≠ b.kind →
        v.FixesCase a.lexeme ∨ v.FixesCase b.lexeme := by
  constructor
  · intro P
    have cut := congrArg (List.map fun l => (l.offset, l.text.utf8ByteSize))
      (P.scan_of_toLower_eq same)
    simpa [Function.comp_def, Lexeme.toLower] using cut
  · intro v i a b foundA foundB differ
    rw [tokenize, List.getElem?_map, Option.map_eq_some_iff] at foundA foundB
    obtain ⟨l, foundL, rfl⟩ := foundA
    obtain ⟨m, foundM, rfl⟩ := foundB
    have texts : l.text.toLower = m.text.toLower := by
      have cut := congrArg (·[i]?) (PatternSet.typeExpression.scan_of_toLower_eq same)
      simp only [List.getElem?_map, foundL, foundM, Option.map_some, Option.some_inj] at cut
      exact congrArg Lexeme.text cut
    by_contra free
    obtain ⟨freeL, freeM⟩ := not_or.mp free
    exact differ (classify_of_toLower_eq texts freeL freeM)

/-- `VOID` is a word like any other and `void` is not; nothing else is told apart. -/
theorem tokenize_of_toLower_eq_void :
    "Foo|VOID $THIS".toLower = "fOO|void $this".toLower ∧
      (PatternSet.typeExpression.scan "Foo|VOID $THIS").map
          (fun l => (l.offset, l.text.utf8ByteSize)) =
        (PatternSet.typeExpression.scan "fOO|void $this").map
          (fun l => (l.offset, l.text.utf8ByteSize)) ∧
      (Vocabulary.empty.tokenize "Foo|VOID $THIS")[2]? = some ⟨.pseudoType, "VOID", 4⟩ ∧
      (Vocabulary.empty.tokenize "fOO|void $this")[2]? = some ⟨.void, "void", 4⟩ ∧
      (empty.FixesCase "VOID" ∨ empty.FixesCase "void") := by
  have same : "Foo|VOID $THIS".toLower = "fOO|void $this".toLower :=
    Utf8.eq_of_bytes_eq (by simp only [Utf8.bytes_toLower]; decide)
  obtain ⟨cuts, kinds⟩ := tokenize_of_toLower_eq same
  have upper : (empty.tokenize "Foo|VOID $THIS")[2]? = some ⟨.pseudoType, "VOID", 4⟩ := by
    decide +kernel
  have lower : (empty.tokenize "fOO|void $this")[2]? = some ⟨.void, "void", 4⟩ := by
    decide +kernel
  have spelled := kinds empty 2 _ _ upper lower nofun
  refine ⟨same, ?_, ?_, ?_, ?_⟩
  · exact cuts PatternSet.typeExpression
  · exact upper
  · exact lower
  · exact spelled

end Vocabulary

end TypeExprLexer

import TypeExprLexer.Proofs.CharacterReader
import TypeExprLexer.Proofs.Noninterference

/-!
Punctuation.

The punctuation of a text is told by its characters alone: each of the ten signs, with its
kind and the byte offset at which it stands (`punctuation`). The tokens of these kinds are
exactly that (`Vocabulary.filter_tokenize_eq_punctuation`). For no sign is part of a name, of
`$this` or of blanks (`signFree_of_isName` and its neighbours), so each is a lexeme by itself;
and a lexeme without signs has the kind of none. Only a vocabulary that lists a sign as a
keyword can hide it.
-/

namespace TypeExprLexer

open CharacterReader

/-! ### Signs -/

namespace Kind

/-- The punctuation characters, each with its kind. -/
def signs : List (Char × Kind) :=
  [('|', union), ('&', intersection), (',', comma), ('?', nullable), ('<', lessThan),
    ('>', greaterThan), ('(', openParen), (')', closeParen), ('[', openBracket),
    (']', closeBracket)]

theorem ofSymbol?_eq_some_iff {c : Char} {k : Kind} : ofSymbol? c = some k ↔ (c, k) ∈ signs := by
  constructor
  · intro found
    unfold ofSymbol? at found
    split at found
    all_goals cases found
    all_goals decide
  · have own : ∀ sign ∈ signs, ofSymbol? sign.1 = some sign.2 := by decide
    exact own (c, k)

theorem lookup_signs_eq_some_iff {c : Char} {k : Kind} :
    signs.lookup c = some k ↔ (c, k) ∈ signs := by
  constructor
  · intro found
    obtain ⟨front, back, split, _⟩ := List.lookup_eq_some_iff.mp found
    simp [split]
  · have own : ∀ sign ∈ signs, signs.lookup sign.1 = some sign.2 := by decide
    exact own (c, k)

/-- A text that has the kind of a sign by its shape is the sign alone. -/
theorem exists_sign_of_ofShape_mem_symbols (chars : List Char) :
    ofShape chars ∈ symbols → ∃ c k, chars = [c] ∧ signs.lookup c = some k := by
  fun_cases ofShape chars with
  | case1 => exact (absurd · (by decide))
  | case2 => exact (absurd · (by decide))
  | case3 => exact (absurd · (by decide))
  | case4 => exact (absurd · (by decide))
  | case5 c cs _ _ alone =>
      intro mem
      cases found : ofSymbol? c with
      | none =>
          rw [found] at mem
          exact absurd mem (by decide)
      | some k =>
          refine ⟨c, k, ?_, ?_⟩
          · rw [List.isEmpty_iff.mp alone]
          · exact lookup_signs_eq_some_iff.mpr (ofSymbol?_eq_some_iff.mp found)
  | case6 => exact (absurd · (by decide))

end Kind

/-- There is no sign among the characters. -/
def SignFree (chars : List Char) : Prop :=
  ∀ c ∈ chars, Kind.signs.lookup c = none

theorem signFree_of_forall {chars : List Char} {p : Char → Prop} (within : ∀ c ∈ chars, p c)
    (apart : ∀ sign ∈ Kind.signs, ¬ p sign.1) : SignFree chars := by
  intro c mem
  cases found : Kind.signs.lookup c with
  | none => rfl
  | some k => exact absurd (within c mem) (apart (c, k) (Kind.lookup_signs_eq_some_iff.mp found))

/-- No sign is part of `$this`. -/
theorem signFree_of_beginsThis {c : Char} {cs : List Char} (this : BeginsThis (c :: cs)) :
    SignFree (c :: cs.take 4) := by
  apply signFree_of_forall (p := fun d => d.toLower ∈ thisChars)
  · intro d mem
    exact this ▸ List.mem_map_of_mem (l := (c :: cs).take thisChars.length) mem
  · decide

/-- No sign is part of a name. -/
theorem signFree_of_isName {word : List Char} (named : NameGrammar.IsName characterAlphabet word) :
    SignFree word :=
  signFree_of_forall (fun _ mem => named.mem mem) (by decide)

/-- No sign is a blank. -/
theorem signFree_of_isBlank {c : Char} (blank : isBlank c) : SignFree [c] :=
  signFree_of_forall (p := fun d => isBlank d) (List.forall_mem_singleton.mpr blank) (by decide)

/-! ### The punctuation of a text -/

/-- The punctuation among characters, the first of which stands at a byte offset. -/
def punctuation (offset : Nat) : List Char → List Token
  | [] => []
  | c :: cs =>
      match Kind.signs.lookup c with
      | some k => ⟨k, String.singleton c, offset⟩ :: punctuation (offset + c.utf8Size) cs
      | none => punctuation (offset + c.utf8Size) cs

theorem punctuation_append (offset : Nat) (cs ds : List Char) :
    punctuation offset (cs ++ ds) =
      punctuation offset cs ++ punctuation (offset + width cs) ds := by
  induction cs generalizing offset with
  | nil => rfl
  | cons c cs ih =>
      rw [List.cons_append, punctuation, punctuation, ih, width, Nat.add_assoc]
      split <;> rfl

theorem punctuation_of_signFree (offset : Nat) {chars : List Char} (free : SignFree chars) :
    punctuation offset chars = [] := by
  induction chars generalizing offset with
  | nil => rfl
  | cons c cs ih =>
      obtain ⟨first, others⟩ := List.forall_mem_cons.mp free
      rw [punctuation, first]
      exact ih _ others

namespace Vocabulary

variable {v : Vocabulary}

/-- No category lists a sign. -/
def SparesSigns (v : Vocabulary) : Prop :=
  ∀ sign ∈ Kind.signs, ∀ c, String.singleton sign.1 ∉ v.names c

theorem sparesSigns_standard : standard.SparesSigns := by
  have apart : ∀ sign ∈ Kind.signs, String.singleton sign.1 ∉
      standardPrimitives ++ standardPseudoTypes ++ standardCollections := by
    decide +kernel
  intro sign mem c listed
  apply apart sign mem
  rw [mem_names_standard] at listed
  cases c <;> simp [listed]

theorem classify_singleton (spares : v.SparesSigns) {c : Char} {k : Kind}
    (sign : Kind.signs.lookup c = some k) : v.classify (String.singleton c) = k := by
  have mem := Kind.lookup_signs_eq_some_iff.mp sign
  have own : ∀ sign ∈ Kind.signs, empty.classify (String.singleton sign.1) = sign.2 := by
    decide +kernel
  rw [classify_of_not_mem (spares _ mem), own _ mem]

theorem exists_sign_of_classify_mem_symbols {lexeme : String}
    (mem : v.classify lexeme ∈ Kind.symbols) :
    ∃ c k, lexeme = String.singleton c ∧ Kind.signs.lookup c = some k := by
  have other := Kind.isTypeKeyword_eq_false_iff.mpr (.inr (.inr mem))
  have shaped := (classify_of_not_isTypeKeyword other).2
  obtain ⟨c, k, alone, sign⟩ := Kind.exists_sign_of_ofShape_mem_symbols _ (shaped ▸ mem)
  refine ⟨c, k, ?_, sign⟩
  rw [← String.toList_inj, alone, String.toList_singleton]

/-- A lexeme without signs has the kind of none. -/
theorem classify_not_mem_symbols {word : List Char} (free : SignFree word) :
    v.classify (String.ofList word) ∉ Kind.symbols := by
  intro mem
  obtain ⟨c, k, alone, sign⟩ := exists_sign_of_classify_mem_symbols mem
  rw [String.singleton_eq_ofList, String.ofList_inj] at alone
  subst alone
  cases (free c List.mem_cons_self).symm.trans sign

/-! ### The tokens that are punctuation -/

/-- The tokens of the kinds of signs, of the lexemes that a reader finds. -/
theorem filter_map_token_cons_of_signFree {offset : Nat} {word rest : List Char}
    (free : SignFree word)
    (behind : ((read (offset + width word) rest).map v.token).filter (·.kind ∈ Kind.symbols) =
      punctuation (offset + width word) rest) :
    ((⟨String.ofList word, offset⟩ :: read (offset + width word) rest).map v.token).filter
        (·.kind ∈ Kind.symbols) = punctuation offset (word ++ rest) := by
  have other : ¬ (v.token ⟨String.ofList word, offset⟩).kind ∈ Kind.symbols :=
    classify_not_mem_symbols free
  rw [punctuation_append, punctuation_of_signFree offset free, List.nil_append, ← behind,
    List.map_cons, List.filter_cons_of_neg (by simpa using other)]

theorem filter_map_token_cons_of_sign (spares : v.SparesSigns) {c : Char} {k : Kind}
    (sign : Kind.signs.lookup c = some k) (offset : Nat) (ls : List Lexeme) :
    ((⟨String.ofList [c], offset⟩ :: ls).map v.token).filter (·.kind ∈ Kind.symbols) =
      ⟨k, String.singleton c, offset⟩ :: (ls.map v.token).filter (·.kind ∈ Kind.symbols) := by
  have token : v.token ⟨String.ofList [c], offset⟩ = ⟨k, String.singleton c, offset⟩ := by
    rw [Vocabulary.token, ← String.singleton_eq_ofList, classify_singleton spares sign]
  have kinds : ∀ sign ∈ Kind.signs, sign.2 ∈ Kind.symbols := by decide
  have own := kinds _ (Kind.lookup_signs_eq_some_iff.mp sign)
  rw [List.map_cons, token, List.filter_cons_of_pos (by simpa using own)]

theorem filter_map_token_read (spares : v.SparesSigns) (offset : Nat) (chars : List Char) :
    ((read offset chars).map v.token).filter (·.kind ∈ Kind.symbols) =
      punctuation offset chars := by
  fun_induction read offset chars with
  | case1 offset => rfl
  | case2 offset c cs this ih =>
      rw [← cons_take_append_drop c cs 4]
      exact filter_map_token_cons_of_signFree (signFree_of_beginsThis this) ih
  | case3 offset c cs noThis start ih =>
      rw [← cons_take_append_drop c cs (nameRest c cs)]
      exact filter_map_token_cons_of_signFree
        (signFree_of_isName (isName_cons_take_nameRest start cs)) ih
  | case4 offset c cs noThis noName blank ih =>
      have split : [c] ++ cs = c :: cs := rfl
      rw [← split, punctuation_append, punctuation_of_signFree offset (signFree_of_isBlank blank),
        List.nil_append, ih]
  | case5 offset c cs noThis noName noBlank ih =>
      cases found : Kind.signs.lookup c with
      | none =>
          have free : SignFree [c] := List.forall_mem_singleton.mpr found
          exact filter_map_token_cons_of_signFree free ih
      | some k =>
          rw [filter_map_token_cons_of_sign spares found, punctuation, found, ih]
          rfl

/-- The tokens of the kinds of signs are the signs of the text, each with its own kind
and at its own byte offset, under every vocabulary that lists no sign, the standard one
among them. -/
theorem filter_tokenize_eq_punctuation :
    standard.SparesSigns ∧
      ∀ (v : Vocabulary) (text : String), v.SparesSigns →
        (v.tokenize text).filter (·.kind ∈ Kind.symbols) = punctuation 0 text.toList := by
  refine ⟨sparesSigns_standard, ?_⟩
  intro v text spares
  have lexemes := PatternSet.map_scan_eq_read 0 text.toList
  rw [String.ofList_toList, Lexeme.map_shift_zero] at lexemes
  rw [tokenize, lexemes, filter_map_token_read spares]

/-- The signs of a nested type, behind a name, behind `$this` and after a character of two
bytes. -/
theorem filter_tokenize_eq_punctuation_nested :
    standard.SparesSigns ∧
      (standard.tokenize "é<?A\\b, $this>").filter (·.kind ∈ Kind.symbols) =
        [⟨.lessThan, "<", 2⟩, ⟨.nullable, "?", 3⟩, ⟨.comma, ",", 7⟩, ⟨.greaterThan, ">", 14⟩] := by
  obtain ⟨spares, exact⟩ := filter_tokenize_eq_punctuation
  refine ⟨spares, ?_⟩
  rw [exact standard _ spares]
  decide +kernel

end Vocabulary

end TypeExprLexer

import TypeExprLexer.Proofs.Factorization

/-!
What a vocabulary decides.

A vocabulary has no say in where lexemes begin and end; it decides kinds, and the kind
of a lexeme only through the lexeme's own membership. So a name that is added matters
to some text exactly if it is a lexeme by itself and is classified differently by
then (`Vocabulary.exists_tokenize_add_ne_iff`); which names these are is told by the
rank of the categories. `Vocabulary.tokenize_noninterference` puts this together.
-/

namespace TypeExprLexer

namespace Kind

/-- The kinds of the punctuation characters. -/
def symbols : List Kind :=
  [union, intersection, nullable, greaterThan, lessThan, comma, closeParen, openParen,
    closeBracket, openBracket]

theorem isTypeKeyword_eq_false_iff {k : Kind} :
    k.isTypeKeyword = false ↔ k = unrecognized ∨ k.isName ∨ k ∈ symbols := by
  cases k <;> simp [isTypeKeyword, isName, symbols]

theorem isTypeKeyword_ofSymbol? (c : Char) :
    ((ofSymbol? c).getD unrecognized).isTypeKeyword = false := by
  unfold ofSymbol?
  split <;> rfl

/-- By its shape a text can be a pseudo-type, but no other keyword. -/
theorem ofShape_eq_pseudoType (chars : List Char) :
    (ofShape chars).isTypeKeyword → ofShape chars = pseudoType := by
  fun_cases ofShape chars with
  | case1 => nofun
  | case2 => nofun
  | case3 => nofun
  | case4 =>
      intro _
      rfl
  | case5 c =>
      intro keyword
      cases (isTypeKeyword_ofSymbol? c).symm.trans keyword
  | case6 => nofun

end Kind

namespace Vocabulary

variable {v : Vocabulary} {name : String}

/-! ### The rank of the categories -/

theorem classify_eq_primitiveType_iff :
    v.classify name = .primitiveType ↔ name ∈ v.primitives := by
  have shape := Kind.ofShape_eq_pseudoType name.toList
  grind [classify, Kind.isTypeKeyword]

theorem classify_eq_collectionType_iff :
    v.classify name = .collectionType ↔ name ∉ v.primitives ∧ name ∈ v.collections := by
  have shape := Kind.ofShape_eq_pseudoType name.toList
  grind [classify, Kind.isTypeKeyword]

/-- A kind that is no keyword is the one of the shape, of a lexeme that no category lists. -/
theorem classify_of_not_isTypeKeyword (other : (v.classify name).isTypeKeyword = false) :
    (∀ c, name ∉ v.names c) ∧ v.classify name = Kind.ofShape name.toList := by
  refine ⟨fun c listed => ?_, ?_⟩
  · cases c <;> grind [classify, names, Kind.isTypeKeyword]
  · grind [classify, Kind.isTypeKeyword]

theorem classify_add_primitive (v : Vocabulary) (name : String) :
    (v.add .primitive name).classify name = .primitiveType := by
  simp [add, classify]

theorem classify_add_collection (v : Vocabulary) (name : String) :
    (v.add .collection name).classify name =
      if name ∈ v.primitives then .primitiveType else .collectionType := by
  simp [add, classify]

/-- A pseudo-type has the lowest rank: a name that is a keyword of any kind stays what
it was. -/
theorem classify_add_pseudoType (v : Vocabulary) (name : String) :
    (v.add .pseudoType name).classify name =
      if (v.classify name).isTypeKeyword then v.classify name else .pseudoType := by
  have shape := Kind.ofShape_eq_pseudoType name.toList
  have listed : name ∈ v.pseudoTypes.insert name := Std.ExtTreeSet.mem_insert_self
  grind [classify, add, Kind.isTypeKeyword]

/-! ### Two vocabularies -/

/-- The tokens under one vocabulary are those under another with kinds of its own. -/
theorem tokenize_eq_map (v w : Vocabulary) (text : String) :
    v.tokenize text = (w.tokenize text).map fun t => { t with kind := v.classify t.lexeme } := by
  simp [tokenize, token]

theorem tokenize_ne_iff {w : Vocabulary} {text : String} :
    v.tokenize text ≠ w.tokenize text ↔
      ∃ l ∈ PatternSet.typeExpression.scan text, v.classify l.text ≠ w.classify l.text := by
  simp [tokenize, token]

/-- Kinds differ only where the membership of a lexeme does. -/
theorem exists_category_of_classify_ne {w : Vocabulary} {lexeme : String}
    (differ : v.classify lexeme ≠ w.classify lexeme) :
    ∃ c, ¬ (lexeme ∈ v.names c ↔ lexeme ∈ w.names c) :=
  Classical.not_forall.mp fun same => differ (classify_congr same)

/-! ### One more name -/

/-- A name that is added has no say in other lexemes. -/
theorem classify_add_of_ne (v : Vocabulary) (c : Category) {lexeme : String}
    (other : lexeme ≠ name) : (v.add c name).classify lexeme = v.classify lexeme :=
  classify_congr fun d => by simp [mem_names_add, other]

/-- A name that is added changes the tokens of some text exactly if it is a lexeme by
itself and its own kind changes. -/
theorem exists_tokenize_add_ne_iff {c : Category} :
    (∃ text, (v.add c name).tokenize text ≠ v.tokenize text) ↔
      PatternSet.typeExpression.scan name = [⟨name, 0⟩] ∧
        (v.add c name).classify name ≠ v.classify name := by
  constructor
  · rintro ⟨text, changed⟩
    obtain ⟨l, mem, differ⟩ := tokenize_ne_iff.mp changed
    by_cases own : l.text = name
    · subst own
      exact ⟨PatternSet.scan_of_mem_scan mem, differ⟩
    · exact absurd (classify_add_of_ne v c own) differ
  · rintro ⟨alone, differ⟩
    refine ⟨name, tokenize_ne_iff.mpr ⟨⟨name, 0⟩, ?_, differ⟩⟩
    rw [alone]
    exact List.mem_cons_self

example : PatternSet.typeExpression.scan "class-string" ≠ [⟨"class-string", 0⟩] := by
  decide +kernel

theorem classify_add_primitive_ne_iff :
    (v.add .primitive name).classify name ≠ v.classify name ↔ name ∉ v.primitives := by
  rw [classify_add_primitive, ne_comm, ne_eq, classify_eq_primitiveType_iff]

theorem classify_add_collection_ne_iff :
    (v.add .collection name).classify name ≠ v.classify name ↔
      name ∉ v.primitives ∧ name ∉ v.collections := by
  rw [classify_add_collection, ne_comm]
  split
  · next primitive => simp [classify_eq_primitiveType_iff, primitive]
  · next other => simp [classify_eq_collectionType_iff, other]

theorem classify_add_pseudoType_ne_iff :
    (v.add .pseudoType name).classify name ≠ v.classify name ↔
      v.classify name = .unrecognized ∨ (v.classify name).isName ∨
        v.classify name ∈ Kind.symbols := by
  rw [classify_add_pseudoType, ← Kind.isTypeKeyword_eq_false_iff]
  split
  · next keyword => simp [keyword]
  · next other =>
      refine iff_of_true ?_ (Bool.eq_false_iff.mpr other)
      intro same
      rw [← same] at other
      exact other rfl

/-- Under two vocabularies a text has the same lexemes at the same offsets, and a
kind differs only where the membership of its lexeme does. A name that is added to a
category changes the tokens of some text exactly if it is a lexeme by itself and
nothing of the same or a higher rank claims it. -/
theorem tokenize_noninterference (v : Vocabulary) :
    (∀ (w : Vocabulary) (text : String),
      (v.tokenize text).map (fun t => (t.lexeme, t.offset)) =
          (w.tokenize text).map (fun t => (t.lexeme, t.offset)) ∧
        ∀ (i : Nat) (t u : Token), (v.tokenize text)[i]? = some t →
          (w.tokenize text)[i]? = some u → t.kind ≠ u.kind →
            ∃ c, ¬ (t.lexeme ∈ v.names c ↔ t.lexeme ∈ w.names c)) ∧
    ∀ name,
      ((∃ text, (v.add .primitive name).tokenize text ≠ v.tokenize text) ↔
        name ∉ v.primitives ∧ PatternSet.typeExpression.scan name = [⟨name, 0⟩]) ∧
      ((∃ text, (v.add .collection name).tokenize text ≠ v.tokenize text) ↔
        PatternSet.typeExpression.scan name = [⟨name, 0⟩] ∧
          name ∉ v.primitives ∧ name ∉ v.collections) ∧
      ((∃ text, (v.add .pseudoType name).tokenize text ≠ v.tokenize text) ↔
        PatternSet.typeExpression.scan name = [⟨name, 0⟩] ∧
          (v.classify name = .unrecognized ∨ (v.classify name).isName ∨
            v.classify name ∈ Kind.symbols)) := by
  constructor
  · intro w text
    constructor
    · rw [tokenize_eq_map v w]
      simp
    · intro i t u found found' differ
      rw [tokenize_eq_map v w, List.getElem?_map, found'] at found
      cases found
      rw [kind_of_mem_tokenize (List.mem_of_getElem? found')] at differ
      exact exists_category_of_classify_ne differ
  · intro name
    refine ⟨?_, ?_, ?_⟩
    · rw [exists_tokenize_add_ne_iff, classify_add_primitive_ne_iff, and_comm]
    · rw [exists_tokenize_add_ne_iff, classify_add_collection_ne_iff]
    · rw [exists_tokenize_add_ne_iff, classify_add_pseudoType_ne_iff]

end Vocabulary

end TypeExprLexer

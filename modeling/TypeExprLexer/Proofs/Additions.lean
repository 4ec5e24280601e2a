import TypeExprLexer.Proofs.Noninterference

/-!
Building a vocabulary.

A vocabulary is built from a base by additions, one after the other. What comes out is a matter
of sets: two sequences of additions build the same vocabulary exactly if they agree on what the
base lacks (`Vocabulary.addAll_eq_addAll_iff`), so their order and their repetitions cannot be
told, nor can an addition that a base had before. A name may come to stand in several categories,
and `void`, `null` or a punctuation character may be added as names; `Vocabulary.Ranked` says
which of all these a lexeme is classified by. `Vocabulary.addAll_of_same_entries` has both.
-/

namespace TypeExprLexer

/-- A name set lists each of its names once. -/
theorem NameSet.count_toList (names : NameSet) (x : String) :
    names.toList.count x = if x ∈ names then 1 else 0 := by
  have distinct : names.toList.Nodup := by
    refine names.distinct_toList.imp ?_
    rintro x y differ rfl
    exact differ Std.ReflCmp.compare_self
  rw [distinct.count]
  simp

namespace Vocabulary

variable {v : Vocabulary} {name : String}

/-! ### Additions as sets -/

theorem mem_names_addAll_congr {xs ys : List (Category × String)} {c : Category}
    (same : name ∉ v.names c → ((c, name) ∈ xs ↔ (c, name) ∈ ys)) :
    name ∈ (v.addAll xs).names c ↔ name ∈ (v.addAll ys).names c := by
  rw [mem_names_addAll, mem_names_addAll]
  by_cases known : name ∈ v.names c
  · simp [known]
  · simp [known, same known]

/-- Additions build the same vocabulary if they agree on what the base lacks, and only then. -/
theorem addAll_eq_addAll_iff {xs ys : List (Category × String)} :
    v.addAll xs = v.addAll ys ↔
      ∀ c x, x ∉ v.names c → ((c, x) ∈ xs ↔ (c, x) ∈ ys) := by
  constructor
  · intro same c x unknown
    have listed : x ∈ (v.addAll xs).names c ↔ x ∈ (v.addAll ys).names c := by rw [same]
    simpa [mem_names_addAll, unknown] using listed
  · intro same
    exact ext_names fun c x => mem_names_addAll_congr (same c x)

example : empty.addAll [(.collection, "list"), (.pseudoType, "list"), (.collection, "list")] =
    empty.addAll [(.pseudoType, "list"), (.collection, "list")] :=
  addAll_eq_addAll_iff.mpr fun c x _ => by simp [or_comm]

/-! ### The rank of a lexeme -/

/-- What a lexeme is classified by: the first of these that applies. -/
structure Ranked (v : Vocabulary) (name : String) : Prop where
  primitive : v.classify name = .primitiveType ↔ name ∈ v.primitives
  collection : name ∉ v.primitives →
    (v.classify name = .collectionType ↔ name ∈ v.collections)
  /-- As it is spelled. -/
  void : name ∉ v.primitives → name ∉ v.collections → (v.classify name = .void ↔ name = "void")
  /-- In any letter case. -/
  null : name ∉ v.primitives → name ∉ v.collections → name ≠ "void" →
    (v.classify name = .null ↔ name.toLower = "null")
  pseudoType : name ∉ v.primitives → name ∉ v.collections → name ≠ "void" →
    name.toLower ≠ "null" → name ∈ v.pseudoTypes → v.classify name = .pseudoType
  /-- A lexeme that nothing claims is what it is without any names. -/
  unclaimed : (∀ c, name ∉ v.names c) → v.classify name = empty.classify name

theorem classify_eq_void_iff :
    v.classify name = .void ↔
      name ∉ v.primitives ∧ name ∉ v.collections ∧ name = "void" := by
  have shape := Kind.ofShape_eq_pseudoType name.toList
  grind [classify, Kind.isTypeKeyword]

theorem classify_eq_null_iff :
    v.classify name = .null ↔
      name ∉ v.primitives ∧ name ∉ v.collections ∧ name ≠ "void" ∧ name.toLower = "null" := by
  have shape := Kind.ofShape_eq_pseudoType name.toList
  grind [classify, Kind.isTypeKeyword]

/-- Every lexeme has its rank, in every vocabulary. -/
theorem ranked (v : Vocabulary) (name : String) : v.Ranked name where
  primitive := classify_eq_primitiveType_iff
  collection noPrimitive := by rw [classify_eq_collectionType_iff, and_iff_right noPrimitive]
  void noPrimitive noCollection := by
    rw [classify_eq_void_iff, and_iff_right noPrimitive, and_iff_right noCollection]
  null noPrimitive noCollection noVoid := by
    rw [classify_eq_null_iff, and_iff_right noPrimitive, and_iff_right noCollection,
      and_iff_right noVoid]
  pseudoType noPrimitive noCollection noVoid noNull listed := by
    rw [classify, if_neg noPrimitive, if_neg noCollection, if_neg noVoid, if_neg noNull,
      if_pos listed]
  unclaimed unlisted := classify_of_not_mem unlisted

/-- Additions with the same entries, in any order and repeated at will, build the same
vocabulary from a base. Each category has the names of the base and those added to it, and lists
each of them once; and every lexeme is classified by the rank of what the vocabulary came to be. -/
theorem addAll_of_same_entries (base : Vocabulary) {xs ys : List (Category × String)}
    (same : ∀ entry, entry ∈ xs ↔ entry ∈ ys) :
    base.addAll xs = base.addAll ys ∧
      (∀ c x, (x ∈ (base.addAll xs).names c ↔ x ∈ base.names c ∨ (c, x) ∈ xs) ∧
        ((base.addAll xs).names c).toList.count x =
          if x ∈ (base.addAll xs).names c then 1 else 0) ∧
      ∀ x, (base.addAll xs).Ranked x := by
  refine ⟨addAll_eq_addAll_iff.mpr fun c x _ => same (c, x), ?_, (base.addAll xs).ranked⟩
  intro c x
  exact ⟨mem_names_addAll, NameSet.count_toList ..⟩

/-- Of names that clash: `NULL` is a primitive type then, and a sign in two categories is told by
the higher one and listed once in the other. -/
theorem addAll_of_same_entries_clashing :
    (∀ entry, entry ∈ [(Category.pseudoType, "|"), (.primitive, "NULL"), (.collection, "|"),
        (.pseudoType, "|")] ↔
      entry ∈ [(Category.collection, "|"), (.pseudoType, "|"), (.primitive, "NULL")]) ∧
    let built := standard.addAll [(.pseudoType, "|"), (.primitive, "NULL"), (.collection, "|"),
      (.pseudoType, "|")]
    built = standard.addAll [(.collection, "|"), (.pseudoType, "|"), (.primitive, "NULL")] ∧
      built.classify "NULL" = .primitiveType ∧ built.classify "|" = .collectionType ∧
      built.pseudoTypes.toList.count "|" = 1 := by
  have same : ∀ entry, entry ∈ [(Category.pseudoType, "|"), (.primitive, "NULL"),
        (.collection, "|"), (.pseudoType, "|")] ↔
      entry ∈ [(Category.collection, "|"), (.pseudoType, "|"), (.primitive, "NULL")] := by
    simp only [List.mem_cons, List.not_mem_nil, or_false]
    grind
  obtain ⟨eq, listed, ranks⟩ := addAll_of_same_entries standard same
  refine ⟨same, eq, ?_, ?_, ?_⟩
  · exact (ranks "NULL").primitive.mpr ((listed .primitive "NULL").1.mpr (.inr (by decide)))
  · have noPrimitive := mt (listed .primitive "|").1.mp (by simp [mem_names_standard]; decide)
    exact ((ranks "|").collection noPrimitive).mpr
      ((listed .collection "|").1.mpr (.inr (by decide)))
  · have added := (listed .pseudoType "|").1.mpr (.inr (by decide))
    exact (listed .pseudoType "|").2.trans (if_pos added)

end Vocabulary

end TypeExprLexer

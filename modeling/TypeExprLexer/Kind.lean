/-!
The kinds of token in a type expression.

Each kind has a stable numeric code, a constant-style name and a description
for messages. Codes come in four groups: 1 for unrecognized input, 2 to 11 for
punctuation, 100 to 104 for names and keywords, 200 and 201 for `null` and
`void`. Kinds are ordered by code, and `Kind.ofCode?_eq_some_iff` says that a
code is read back as the one kind that has it.
-/

namespace TypeExprLexer

/-- What a lexeme is in a type expression. -/
inductive Kind where
  | unrecognized
  | union
  | intersection
  | nullable
  | greaterThan
  | lessThan
  | comma
  | closeParen
  | openParen
  | closeBracket
  | openBracket
  | qualifiedName
  | fullyQualifiedName
  | primitiveType
  | collectionType
  | pseudoType
  | null
  | void
deriving DecidableEq, Repr, Inhabited

namespace Kind

/-- Every kind, in the order of the codes. -/
def all : List Kind :=
  [unrecognized, union, intersection, nullable, greaterThan, lessThan, comma,
    closeParen, openParen, closeBracket, openBracket, qualifiedName,
    fullyQualifiedName, primitiveType, collectionType, pseudoType, null, void]

theorem mem_all (k : Kind) : k ∈ all := by
  cases k <;> decide

/-! ### Codes and their order -/

/-- The numeric code, for consumers that key on integers. -/
def code : Kind → UInt8
  | unrecognized => 1
  | union => 2
  | intersection => 3
  | nullable => 4
  | greaterThan => 5
  | lessThan => 6
  | comma => 7
  | closeParen => 8
  | openParen => 9
  | closeBracket => 10
  | openBracket => 11
  | qualifiedName => 100
  | fullyQualifiedName => 101
  | primitiveType => 102
  | collectionType => 103
  | pseudoType => 104
  | null => 200
  | void => 201

/-- The kind with the given code, if there is one. -/
def ofCode? (c : UInt8) : Option Kind :=
  all.find? fun k => k.code == c

@[simp] theorem ofCode?_code (k : Kind) : ofCode? k.code = some k := by
  cases k <;> decide

theorem code_injective {k l : Kind} (same : k.code = l.code) : k = l :=
  Option.some.inj (by rw [← ofCode?_code k, same, ofCode?_code])

theorem ofCode?_eq_some_iff {c : UInt8} {k : Kind} : ofCode? c = some k ↔ k.code = c := by
  constructor
  · intro found
    simpa using List.find?_some found
  · rintro rfl
    exact ofCode?_code k

instance : Ord Kind := ⟨fun k l => compare k.code l.code⟩

instance : LE Kind := leOfOrd

instance : DecidableLE Kind := fun _ _ => inferInstanceAs (Decidable (_ = true))

theorem le_iff {k l : Kind} : k ≤ l ↔ k.code ≤ l.code := by
  cases k <;> cases l <;> decide

/-- The kinds of a list in the order of their codes. -/
def sort (kinds : List Kind) : List Kind :=
  kinds.mergeSort fun k l => k ≤ l

theorem sort_perm (kinds : List Kind) : (sort kinds).Perm kinds :=
  List.mergeSort_perm ..

theorem pairwise_sort (kinds : List Kind) : (sort kinds).Pairwise (· ≤ ·) := by
  have sorted : (sort kinds).Pairwise fun k l => decide (k ≤ l) = true :=
    List.pairwise_mergeSort (fun a b c => by simpa [le_iff] using UInt8.le_trans)
      (fun a b => by simpa [le_iff] using UInt8.le_total ..) kinds
  simpa using sorted

/-! ### Names and descriptions -/

/-- The constant-style name. -/
def name : Kind → String
  | unrecognized => "T_NONE"
  | union => "T_COMPOUND_OPERATOR"
  | intersection => "T_INTERSECTION_OPERATOR"
  | nullable => "T_NULLABLE_OPERATOR"
  | greaterThan => "T_GREATER_THAN"
  | lessThan => "T_LESS_THAN"
  | comma => "T_COMMA"
  | closeParen => "T_CLOSE_PARENTHESIS"
  | openParen => "T_OPEN_PARENTHESIS"
  | closeBracket => "T_CLOSE_SQUARE_BRACKET"
  | openBracket => "T_OPEN_SQUARE_BRACKET"
  | qualifiedName => "T_QUALIFIED_NAME"
  | fullyQualifiedName => "T_FULLY_QUALIFIED_NAME"
  | primitiveType => "T_PRIMITIVE_TYPE"
  | collectionType => "T_COLLECTION_TYPE"
  | pseudoType => "T_PSEUDO_TYPE"
  | null => "T_NULL"
  | void => "T_VOID"

/-- The kind whose constant-style name is given, if there is one. -/
def ofName? (n : String) : Option Kind :=
  all.find? fun k => k.name == n

@[simp] theorem ofName?_name (k : Kind) : ofName? k.name = some k := by
  cases k <;> decide

theorem name_injective {k l : Kind} (same : k.name = l.name) : k = l :=
  Option.some.inj (by rw [← ofName?_name k, same, ofName?_name])

/-- The wording for messages to a reader. -/
def description : Kind → String
  | unrecognized => "unrecognized input"
  | union => "`|`"
  | intersection => "`&`"
  | nullable => "`?`"
  | greaterThan => "`>`"
  | lessThan => "`<`"
  | comma => "`,`"
  | closeParen => "`)`"
  | openParen => "`(`"
  | closeBracket => "`]`"
  | openBracket => "`[`"
  | qualifiedName => "qualified name"
  | fullyQualifiedName => "fully qualified name"
  | primitiveType => "primitive type"
  | collectionType => "collection type"
  | pseudoType => "pseudo-type"
  | null => "`null`"
  | void => "`void`"

instance : ToString Kind := ⟨description⟩

/-! ### Groups of kinds -/

/-- The signs that join two types. -/
def isOperator : Kind → Bool
  | union | intersection => true
  | _ => false

/-- The brackets of all shapes and the comma. -/
def isDelimiter : Kind → Bool
  | greaterThan | lessThan | comma | closeParen | openParen | closeBracket | openBracket => true
  | _ => false

/-- Names with a namespace, which a consumer resolves against its imports. -/
def isName : Kind → Bool
  | qualifiedName | fullyQualifiedName => true
  | _ => false

/-- Words that stand for a type by themselves. -/
def isTypeKeyword : Kind → Bool
  | primitiveType | collectionType | pseudoType | null | void => true
  | _ => false

end Kind

end TypeExprLexer

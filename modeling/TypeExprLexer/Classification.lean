import TypeExprLexer.Kind
import TypeExprLexer.Vocabulary

/-!
Which kind a lexeme is.

The vocabulary speaks first, and its categories have a fixed rank: primitive
types, then collections, then the words `void` and `null`, then pseudo-types.
`void` counts only as spelled, `null` in any letter case. A lexeme that none of
these claims has the kind of its shape (`Kind.ofShape`), which looks at no table.
`Vocabulary.classify_congr` says that a vocabulary matters to a lexeme only
through the lexeme's own membership.
-/

namespace TypeExprLexer

/-- The kind of a punctuation character. -/
def Kind.ofSymbol? : Char → Option Kind
  | '|' => some .union
  | '&' => some .intersection
  | ',' => some .comma
  | '?' => some .nullable
  | '<' => some .lessThan
  | '>' => some .greaterThan
  | '(' => some .openParen
  | ')' => some .closeParen
  | '[' => some .openBracket
  | ']' => some .closeBracket
  | _ => none

/-- The kind that a text shows by itself: a leading backslash makes it fully
qualified, a leading ASCII letter a qualified name or a plain word, and a
punctuation character alone stands for itself. -/
def Kind.ofShape : List Char → Kind
  | [] => .unrecognized
  | c :: cs =>
      if c = '\\' then .fullyQualifiedName
      else if c.isAlpha then
        if '\\' ∈ cs then .qualifiedName else .pseudoType
      else if cs.isEmpty then (Kind.ofSymbol? c).getD .unrecognized
      else .unrecognized

namespace Vocabulary

/-- The kind of a lexeme. Every text has one. -/
def classify (v : Vocabulary) (lexeme : String) : Kind :=
  if lexeme ∈ v.primitives then .primitiveType
  else if lexeme ∈ v.collections then .collectionType
  else if lexeme = "void" then .void
  else if lexeme.toLower = "null" then .null
  else if lexeme ∈ v.pseudoTypes then .pseudoType
  else Kind.ofShape lexeme.toList

theorem classify_congr {v w : Vocabulary} {lexeme : String}
    (same : ∀ c, lexeme ∈ v.names c ↔ lexeme ∈ w.names c) :
    v.classify lexeme = w.classify lexeme := by
  have primitive : lexeme ∈ v.primitives ↔ lexeme ∈ w.primitives := same .primitive
  have collection : lexeme ∈ v.collections ↔ lexeme ∈ w.collections := same .collection
  have pseudoType : lexeme ∈ v.pseudoTypes ↔ lexeme ∈ w.pseudoTypes := same .pseudoType
  simp only [classify, primitive, collection, pseudoType]

/-- A lexeme that no category lists is classified by its spelling alone. -/
theorem classify_of_not_mem {v : Vocabulary} {lexeme : String}
    (unlisted : ∀ c, lexeme ∉ v.names c) : v.classify lexeme = empty.classify lexeme :=
  classify_congr fun c => iff_of_false (unlisted c) not_mem_names_empty

end Vocabulary

end TypeExprLexer

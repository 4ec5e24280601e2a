import TypeExprLexer.Classification
import TypeExprLexer.Lexeme
import TypeExprLexer.Token

/-!
From a text to its tokens.

A text is cut with the patterns of type expressions and each lexeme is
classified on its own. Every text has tokens: what is not understood becomes a
token of the kind `unrecognized`.
-/

namespace TypeExprLexer.Vocabulary

/-- The token of a lexeme. -/
def token (v : Vocabulary) (l : Lexeme) : Token where
  kind := v.classify l.text
  lexeme := l.text
  offset := l.offset

/-- The tokens of a text, in their order. -/
def tokenize (v : Vocabulary) (text : String) : List Token :=
  (PatternSet.typeExpression.scan text).map v.token

/-- A token of a text is classified by its lexeme alone. -/
theorem kind_of_mem_tokenize {v : Vocabulary} {text : String} {t : Token}
    (mem : t ∈ v.tokenize text) : t.kind = v.classify t.lexeme := by
  obtain ⟨l, _, rfl⟩ := List.mem_map.mp mem
  rfl

end TypeExprLexer.Vocabulary

import TypeExprLexer.Kind

/-!
Classified lexemes.
-/

namespace TypeExprLexer

/-- A lexeme with its kind and the byte offset of its first byte. -/
structure Token where
  kind : Kind
  lexeme : String
  offset : Nat
deriving DecidableEq, Repr, Inhabited

namespace Token

/-- The byte offset just past the lexeme. -/
def stop (t : Token) : Nat :=
  t.offset + t.lexeme.utf8ByteSize

/-- One line for a reader: the name of the kind, the lexeme between backquotes
and the offset. -/
def describe (t : Token) : String :=
  t.kind.name ++ " `" ++ t.lexeme ++ "` at " ++ toString t.offset

instance : ToString Token := ⟨describe⟩

theorem offset_le_stop (t : Token) : t.offset ≤ t.stop :=
  Nat.le_add_right ..

end Token

end TypeExprLexer

import Mathlib.Data.List.DropRight
import Std.Data.String.ToNat
import TypeExprLexer.Token

/-!
Reading a token off its description.

A description shows the lexeme as it is, also where the lexeme has backquotes, blanks or digits of
its own, or ends like a description. It can be read all the same: the name of a kind has no blank,
so it ends at the first one, and nothing behind the lexeme has a backquote, so the last one closes
it. `Token.ofDescription?` reads a token in this way and gives none for a line that describes no
token; `Token.describe_unambiguous` says that it is the inverse of `Token.describe`.
-/

namespace TypeExprLexer

/-! ### The first and the last of a separator -/

section Separators

variable {α : Type} [DecidableEq α] {sep : α}

theorem split_at_first {front : List α} (absent : sep ∉ front) (back : List α) :
    (front ++ sep :: back).takeWhile (· != sep) = front ∧
      (front ++ sep :: back).dropWhile (· != sep) = sep :: back := by
  have others : ∀ x ∈ front, x != sep := by
    intro x mem
    exact bne_iff_ne.mpr (ne_of_mem_of_not_mem mem absent)
  constructor
  · rw [List.takeWhile_append_of_pos others, List.takeWhile_cons_of_neg (by simp), List.append_nil]
  · rw [List.dropWhile_append_of_pos others, List.dropWhile_cons_of_neg (by simp)]

theorem split_at_last (front : List α) {back : List α} (absent : sep ∉ back) :
    (front ++ sep :: back).rtakeWhile (· != sep) = back ∧
      (front ++ sep :: back).rdropWhile (· != sep) = front ++ [sep] := by
  have mirrored : (front ++ sep :: back).reverse = back.reverse ++ sep :: front.reverse := by simp
  obtain ⟨taken, left⟩ := split_at_first (mt List.mem_reverse.mp absent) front.reverse
  rw [List.rtakeWhile, List.rdropWhile, mirrored, taken, left]
  simp

end Separators

theorem Kind.blank_not_mem_name (k : Kind) : ' ' ∉ k.name.toList := by
  cases k <;> decide +kernel

namespace Token

/-- The sign that a description puts before and behind the lexeme. -/
def backquote : Char := '\x60'

/-- What a description has behind the lexeme. -/
def place (offset : Nat) : List Char :=
  [' ', 'a', 't', ' '] ++ (Nat.repr offset).toList

theorem ofList_drop_place (offset : Nat) :
    String.ofList ((place offset).drop 4) = Nat.repr offset := by
  have digits : (place offset).drop 4 = (Nat.repr offset).toList :=
    List.drop_left' rfl
  rw [digits, String.ofList_toList]

theorem backquote_not_mem_place (offset : Nat) : backquote ∉ place offset := by
  rw [place, List.mem_append, Nat.toList_repr]
  rintro (word | digit)
  · revert word
    decide
  · have decimal := Nat.isDigit_of_mem_toDigits (by decide) (by decide) digit
    revert decimal
    decide

theorem toList_describe (t : Token) :
    t.describe.toList = t.kind.name.toList ++ ' ' :: backquote ::
      (t.lexeme.toList ++ backquote :: place t.offset) := by
  simp [describe, backquote, place]

/-- The token that a line describes, if it describes one. -/
def ofDescription? (line : String) : Option Token := do
  let kind ← Kind.ofName? (String.ofList (line.toList.takeWhile (· != ' ')))
  let rest := line.toList.dropWhile (· != ' ')
  let lexeme := String.ofList ((rest.drop 2).rdropWhile (· != backquote)).dropLast
  let offset ← (String.ofList ((rest.rtakeWhile (· != backquote)).drop 4)).toNat?
  if describe ⟨kind, lexeme, offset⟩ = line then some ⟨kind, lexeme, offset⟩ else none

@[simp] theorem ofDescription?_describe (t : Token) : ofDescription? t.describe = some t := by
  have closing := backquote_not_mem_place t.offset
  obtain ⟨name, rest⟩ := split_at_first t.kind.blank_not_mem_name
    (backquote :: (t.lexeme.toList ++ backquote :: place t.offset))
  obtain ⟨behind, _⟩ := split_at_last (' ' :: backquote :: t.lexeme.toList) closing
  obtain ⟨_, lexeme⟩ := split_at_last t.lexeme.toList closing
  rw [← toList_describe] at name rest
  rw [List.cons_append, List.cons_append] at behind
  simp [ofDescription?, name, rest, behind, lexeme, ofList_drop_place]

/-- Reading accepts exactly what describing produces. -/
theorem ofDescription?_eq_some_iff {line : String} {t : Token} :
    ofDescription? line = some t ↔ t.describe = line := by
  constructor
  · intro read
    simp only [ofDescription?, Option.bind_eq_bind, Option.bind_eq_some_iff] at read
    obtain ⟨kind, _, offset, _, described⟩ := read
    split at described
    · next same => exact Option.some.inj described ▸ same
    · cases described
  · rintro rfl
    exact ofDescription?_describe t

/-- No two tokens have one description: kind, lexeme and offset can be read off it, and of all
lines off these alone. -/
theorem describe_unambiguous :
    Function.Injective describe ∧
      ∀ line t, ofDescription? line = some t ↔ t.describe = line := by
  refine ⟨?_, fun line t => ofDescription?_eq_some_iff⟩
  intro t u same
  have read := ofDescription?_describe t
  rw [same, ofDescription?_describe] at read
  exact (Option.some.inj read).symm

/-- A lexeme that ends like a description is kept apart from the offset; an offset is not read with
a leading zero. -/
example : ofDescription? "T_NONE `x` at 5` at 12" = some ⟨.unrecognized, "x` at 5", 12⟩ ∧
    ofDescription? "T_NONE `x` at 05" = none := by
  cbv

end Token

end TypeExprLexer

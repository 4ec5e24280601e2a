import Mathlib.Computability.Language
import TypeExprLexer.Cursor
import TypeExprLexer.NameGrammar

/-!
Names as a regular language.

`NameGrammar.language` is the language of names over bytes, `F C* (\ S C*)*` as a regular
expression, and has the words of the grammar (`NameGrammar.mem_language_iff`). The name
pattern takes the greatest length of a word of it that the bytes ahead begin with, and fails
exactly where they begin with none (`Cursor.matchLength?_name`). The place may be any byte of
a text, also one inside a character.
-/

namespace TypeExprLexer

open Computability

namespace NameGrammar

/-! ### The language of names -/

/-- The bytes that start a segment: letters, the underscore and all from `0x80` up. -/
def starting : Set UInt8 :=
  {b | 0x41 ≤ b ∧ b ≤ 0x5A ∨ 0x61 ≤ b ∧ b ≤ 0x7A ∨ b = 0x5F ∨ 0x80 ≤ b}

/-- The bytes that continue a segment: those that start one, and the digits. -/
def continuing : Set UInt8 :=
  starting ∪ {b | 0x30 ≤ b ∧ b ≤ 0x39}

/-- The words of a single byte of a class. -/
def single (bytes : Set UInt8) : Language UInt8 :=
  (fun b => [b]) '' bytes

/-- A segment after the first, `\ S C*`. -/
def segment : Language UInt8 :=
  single {0x5C} * single starting * (single continuing)∗

/-- The names, `F C* (\ S C*)*`. -/
def language : Language UInt8 :=
  single (starting ∪ {0x5C}) * (single continuing)∗ * segment∗

theorem mem_starting_iff {b : UInt8} : b ∈ starting ↔ ByteClass.isNameStart b := by
  simp [starting, ByteClass.isNameStart, ByteClass.isLetter, or_assoc]

theorem mem_continuing_iff {b : UInt8} : b ∈ continuing ↔ ByteClass.isNamePart b := by
  simp [continuing, ByteClass.isNamePart_iff, mem_starting_iff, ByteClass.isDigit]

/-- A word that begins with a byte of a class and goes on as a word of another language. -/
theorem mem_single_mul_iff {bytes : Set UInt8} {l : Language UInt8} {word : List UInt8} :
    word ∈ single bytes * l ↔ ∃ b rest, word = b :: rest ∧ b ∈ bytes ∧ rest ∈ l := by
  rw [Language.mem_mul]
  constructor
  · rintro ⟨_, ⟨b, own, rfl⟩, rest, other, rfl⟩
    exact ⟨b, rest, rfl, own, other⟩
  · rintro ⟨b, rest, rfl, own, other⟩
    exact ⟨[b], ⟨b, own, rfl⟩, rest, other, rfl⟩

theorem mem_kstar_single_iff {bytes : Set UInt8} {word : List UInt8} :
    word ∈ (single bytes)∗ ↔ ∀ b ∈ word, b ∈ bytes := by
  rw [Language.mem_kstar]
  constructor
  · rintro ⟨words, rfl, singles⟩ b mem
    obtain ⟨letter, inside, mem⟩ := List.mem_flatten.mp mem
    obtain ⟨c, own, rfl⟩ := singles letter inside
    rwa [List.mem_singleton.mp mem]
  · intro within
    refine ⟨word.map fun b => [b], by simp [← List.flatMap_def], ?_⟩
    intro letter mem
    obtain ⟨b, inside, rfl⟩ := List.mem_map.mp mem
    exact ⟨b, within b inside, rfl⟩

theorem mem_kstar_continuing_iff {word : List UInt8} :
    word ∈ (single continuing)∗ ↔ ∀ b ∈ word, byteAlphabet.continues b := by
  simp only [mem_kstar_single_iff, mem_continuing_iff]

theorem mem_segment_iff {word : List UInt8} : word ∈ segment ↔ IsSegment byteAlphabet word := by
  rw [segment, mul_assoc, mem_single_mul_iff]
  constructor
  · rintro ⟨_, _, rfl, rfl, further⟩
    obtain ⟨start, part, rfl, starts, parts⟩ := mem_single_mul_iff.mp further
    exact ⟨start, part, rfl, mem_starting_iff.mp starts, mem_kstar_continuing_iff.mp parts⟩
  · rintro ⟨start, part, rfl, starts, parts⟩
    refine ⟨_, _, rfl, rfl, mem_single_mul_iff.mpr ⟨start, part, rfl, ?_, ?_⟩⟩
    · exact mem_starting_iff.mpr starts
    · exact mem_kstar_continuing_iff.mpr parts

/-- The language has the words of the grammar. -/
theorem mem_language_iff {word : List UInt8} : word ∈ language ↔ IsName byteAlphabet word := by
  rw [language, mul_assoc, mem_single_mul_iff]
  have first (b : UInt8) :
      b ∈ starting ∪ {0x5C} ↔ byteAlphabet.starts b ∨ b = byteAlphabet.separator :=
    or_congr_left mem_starting_iff
  constructor
  · rintro ⟨b, _, rfl, start, tailed⟩
    obtain ⟨part, parts, _, ⟨segments, rfl, further⟩, rfl⟩ := Language.mem_mul.mp tailed
    refine ⟨b, _, rfl, (first b).mp start, part, segments, rfl, ?_, ?_⟩
    · exact mem_kstar_continuing_iff.mp parts
    · exact fun word mem => mem_segment_iff.mp (further word mem)
  · rintro ⟨b, _, rfl, start, part, segments, rfl, parts, further⟩
    refine ⟨b, _, rfl, (first b).mpr start, Language.append_mem_mul ?_ ?_⟩
    · exact mem_kstar_continuing_iff.mpr parts
    · exact Language.join_mem_kstar fun word mem => mem_segment_iff.mpr (further word mem)

/-! ### The longest name -/

/-- The lengths of the names that bytes begin with. -/
def lengths (bytes : List UInt8) : Set Nat :=
  {n | 1 ≤ n ∧ n ≤ bytes.length ∧ bytes.take n ∈ language}

theorem nameLength_mem_lengths {rest : List UInt8} (pos : 0 < Pattern.nameLength rest) :
    Pattern.nameLength rest ∈ lengths rest :=
  ⟨pos, nameLength_le_length rest, mem_language_iff.mpr (isName_take pos)⟩

theorem le_nameLength_of_mem_lengths {rest : List UInt8} {n : Nat} (mem : n ∈ lengths rest) :
    n ≤ Pattern.nameLength rest := by
  obtain ⟨_, within, named⟩ := mem
  have longest := length_le_nameLength (mem_language_iff.mp named) (List.take_prefix n rest)
  rwa [List.length_take, Nat.min_eq_left within] at longest

/-- The name pattern takes the greatest length of a name. -/
theorem matchLength?_name_eq_some_iff {rest : List UInt8} {n : Nat} :
    Pattern.name.matchLength? rest = some n ↔ IsGreatest (lengths rest) n := by
  rw [Pattern.matchLength?_eq_some_iff]
  constructor
  · rintro ⟨pos, rfl⟩
    exact ⟨nameLength_mem_lengths pos, fun _ => le_nameLength_of_mem_lengths⟩
  · rintro ⟨mem, greatest⟩
    have most := le_nameLength_of_mem_lengths mem
    have pos := Nat.lt_of_lt_of_le mem.1 most
    exact ⟨mem.1, Nat.le_antisymm (greatest (nameLength_mem_lengths pos)) most⟩

/-- The name pattern fails where no name stands. -/
theorem matchLength?_name_eq_none_iff {rest : List UInt8} :
    Pattern.name.matchLength? rest = none ↔ lengths rest = ∅ := by
  rw [Set.eq_empty_iff_forall_notMem]
  constructor
  · intro missed n mem
    have pos := Nat.lt_of_lt_of_le mem.1 (le_nameLength_of_mem_lengths mem)
    have found : Pattern.name.matchLength? rest = some (Pattern.nameLength rest) :=
      Pattern.matchLength?_eq_some_iff.mpr ⟨pos, rfl⟩
    cases missed.symm.trans found
  · intro none
    apply if_neg
    intro pos
    exact none _ (nameLength_mem_lengths pos)

end NameGrammar

namespace Cursor

/-- At every byte of a text the name pattern takes the longest name that the bytes from there
on begin with, and fails exactly where they begin with none. -/
theorem matchLength?_name (c : Cursor) :
    (∀ n, Pattern.name.matchLength? c.rest = some n ↔
        IsGreatest (NameGrammar.lengths ((Utf8.bytes c.text).drop c.pos)) n) ∧
      (Pattern.name.matchLength? c.rest = none ↔
        NameGrammar.lengths ((Utf8.bytes c.text).drop c.pos) = ∅) := by
  rw [c.rest_eq]
  constructor
  · intro n
    exact NameGrammar.matchLength?_name_eq_some_iff
  · exact NameGrammar.matchLength?_name_eq_none_iff

/-- From inside a character on, the rest of the character begins a name; the separator at the
end of it is left. -/
example : (Pattern.name.matchLength? ((ofText "é\\").advanceBy 1).rest) = some 1 := by
  decide

end Cursor

end TypeExprLexer

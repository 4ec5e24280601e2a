/-!
The classes of bytes that scanning tells apart.

Letters, digits and blanks are those of ASCII. Every byte from `0x80` up counts
as part of a name, so a character outside ASCII is never cut.
-/

namespace TypeExprLexer.ByteClass

/-- An ASCII letter of either case. -/
def isLetter (b : UInt8) : Bool :=
  (0x41 ≤ b && b ≤ 0x5A) || (0x61 ≤ b && b ≤ 0x7A)

/-- An ASCII digit. -/
def isDigit (b : UInt8) : Bool :=
  0x30 ≤ b && b ≤ 0x39

/-- A space or one of the five controls from tab to carriage return. -/
def isBlank (b : UInt8) : Bool :=
  b == 0x20 || (0x09 ≤ b && b ≤ 0x0D)

/-- A byte that begins a name segment: a letter, an underscore or a byte of a
character outside ASCII. -/
def isNameStart (b : UInt8) : Bool :=
  isLetter b || b == 0x5F || 0x80 ≤ b

/-- A byte that continues a name segment. -/
def isNamePart (b : UInt8) : Bool :=
  isNameStart b || isDigit b

/-- The backslash, which separates the segments of a name. -/
def separator : UInt8 := 0x5C

/-- The byte with an upper-case letter turned into lower case. -/
def toLower (b : UInt8) : UInt8 :=
  if 0x41 ≤ b && b ≤ 0x5A then b + 0x20 else b

/-! ### The classes as ranges -/

theorem isLetter_iff {b : UInt8} :
    isLetter b ↔ (0x41 ≤ b.toNat ∧ b.toNat ≤ 0x5A) ∨ (0x61 ≤ b.toNat ∧ b.toNat ≤ 0x7A) := by
  simp [isLetter, UInt8.le_iff_toNat_le]

theorem isDigit_iff {b : UInt8} : isDigit b ↔ 0x30 ≤ b.toNat ∧ b.toNat ≤ 0x39 := by
  simp [isDigit, UInt8.le_iff_toNat_le]

theorem isBlank_iff {b : UInt8} :
    isBlank b ↔ b.toNat = 0x20 ∨ (0x09 ≤ b.toNat ∧ b.toNat ≤ 0x0D) := by
  simp [isBlank, UInt8.le_iff_toNat_le, ← UInt8.toNat_inj]

theorem isNameStart_iff {b : UInt8} :
    isNameStart b ↔ (isLetter b ∨ b.toNat = 0x5F) ∨ 0x80 ≤ b.toNat := by
  simp [isNameStart, UInt8.le_iff_toNat_le, ← UInt8.toNat_inj]

theorem isNamePart_iff {b : UInt8} : isNamePart b ↔ isNameStart b ∨ isDigit b := by
  simp [isNamePart]

theorem isNameStart_of_isLetter {b : UInt8} (letter : isLetter b) : isNameStart b :=
  isNameStart_iff.mpr (.inl (.inl letter))

theorem isNamePart_of_isNameStart {b : UInt8} (start : isNameStart b) : isNamePart b :=
  isNamePart_iff.mpr (.inl start)

theorem not_isNamePart_separator : isNamePart separator = false := by decide

/-- A blank is in no name. -/
theorem not_isNamePart_of_isBlank {b : UInt8} (blank : isBlank b) : ¬ isNamePart b := by
  rw [isNamePart_iff, isNameStart_iff, isLetter_iff, isDigit_iff]
  rw [isBlank_iff] at blank
  omega

theorem not_isBlank_separator : isBlank separator = false := by decide

end TypeExprLexer.ByteClass

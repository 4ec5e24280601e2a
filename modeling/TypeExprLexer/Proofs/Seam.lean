import TypeExprLexer.Proofs.Glue

/-!
Joining two texts.

The lexemes of two joined texts are those of the one followed by those of the
other exactly if the last of the one and the first of the other are not glued
(`PatternSet.scan_append_iff`). No earlier lexeme of the one and no later one of
the other has a say in it.
-/

namespace TypeExprLexer

open ByteClass Pattern

namespace PatternSet

/-- What is glued to a text begins with a lexeme that is. -/
theorem exists_head?_of_glues {first : List UInt8} {text : String}
    (h : Glues first (Utf8.bytes text)) :
    ∃ m ∈ (typeExpression.scan text).head?, m.offset = 0 ∧ Glues first (Utf8.bytes m.text) := by
  induction text using move_induction typeExpression with
  | finished => exact absurd h (not_glues_nil first)
  | skip part rest skipped _ =>
      obtain ⟨b, mem, other⟩ := h.exists_head
      have nonempty : Utf8.bytes part ≠ [] :=
        mt Utf8.bytes_eq_nil_iff.mp (ne_empty_of_step_skip skipped)
      have blank : isBlank b := by
        obtain ⟨x, xs, eq⟩ := List.exists_cons_of_ne_nil nonempty
        rw [Utf8.bytes_append, eq] at mem
        cases mem
        exact isBlank_of_step_skip skipped b (by rw [eq]; exact List.mem_cons_self)
      rcases other with part | rfl
      · exact absurd part (not_isNamePart_of_isBlank blank)
      · cases not_isBlank_separator.symm.trans blank
  | emit part rest p emitted _ =>
      refine ⟨⟨part, 0⟩, by rw [scan_of_emit emitted]; rfl, rfl, ?_⟩
      obtain ⟨front, ahead, glues, size⟩ := h.exists_prefix
      have within : front.length ≤ (Utf8.bytes part).length := by
        rw [Utf8.length_bytes]
        rcases size with one | name
        · have := mt String.utf8ByteSize_eq_zero_iff.mp (ne_empty_of_step_emit emitted)
          omega
        · exact length_le_of_isName name ahead emitted
      rw [Utf8.bytes_append] at ahead
      obtain ⟨more, eq⟩ := List.prefix_of_prefix_length_le ahead (List.prefix_append ..) within
      rw [← eq]
      exact glues.append more

/-- The last lexeme of one text and the first of another, put right behind it, do
not stay apart. -/
def Glued (a b : String) : Prop :=
  ∃ l ∈ (typeExpression.scan a).getLast?, ∃ m ∈ (typeExpression.scan b).head?,
    l.stop = a.utf8ByteSize ∧ m.offset = 0 ∧ Glues (Utf8.bytes l.text) (Utf8.bytes m.text)

instance (a b : String) : Decidable (Glued a b) :=
  inferInstanceAs (Decidable (∃ l ∈ (typeExpression.scan a).getLast?,
    ∃ m ∈ (typeExpression.scan b).head?, _))

theorem glued_of_glues {a b : String} {l : Lexeme}
    (last : l ∈ (typeExpression.scan a).getLast?) (stop : l.stop = a.utf8ByteSize)
    (glues : Glues (Utf8.bytes l.text) (Utf8.bytes b)) : Glued a b := by
  obtain ⟨m, first, start, glues⟩ := exists_head?_of_glues glues
  exact ⟨l, last, m, first, stop, start, glues⟩

/-- Putting a text in front of the first moves the seam on. -/
theorem Glued.of_scan {part rest b : String} (front : List Lexeme)
    (scanned : typeExpression.scan (part ++ rest) =
      front ++ (typeExpression.scan rest).map (Lexeme.shift part.utf8ByteSize))
    (h : Glued rest b) : Glued (part ++ rest) b := by
  obtain ⟨l, last, m, first, stop, start, glues⟩ := h
  refine ⟨l.shift part.utf8ByteSize, ?_, m, first, ?_, start, glues⟩
  · rw [scanned, List.getLast?_append, List.getLast?_map, show _ = some l from last]
    rfl
  · rw [Lexeme.stop_shift, stop, String.utf8ByteSize_append]

/-! ### The seam law -/

theorem scan_append_of_not_glued {a b : String} (apart : ¬ Glued a b) :
    typeExpression.scan (a ++ b) =
      typeExpression.scan a ++ (typeExpression.scan b).map (Lexeme.shift a.utf8ByteSize) := by
  induction a using move_induction typeExpression with
  | finished => simp
  | skip part rest skipped ih =>
      have scanned := scan_of_skip skipped
      have joined := ih (mt (Glued.of_scan [] scanned) apart)
      have moved := scan_blanks_append skipsBlanks_typeExpression (rest ++ b)
        (isBlank_of_step_skip skipped)
      rw [String.append_assoc, moved, joined, scanned]
      simp [Function.comp_def]
  | emit part rest p emitted ih =>
      have scanned := scan_of_emit emitted
      have joined := ih (mt (Glued.of_scan [⟨part, 0⟩] scanned) apart)
      have kept : typeExpression.step (Utf8.bytes (part ++ (rest ++ b))) =
          .emit part.utf8ByteSize p := by
        rcases step_append_or_glues emitted b with same | ⟨rfl, glues⟩ | ⟨alone, glues⟩
        · exact same
        · refine absurd (glued_of_glues (l := ⟨part, 0⟩) ?_ ?_ glues) apart
          · rw [scanned]
            simp
          · simp [Lexeme.stop]
        · refine absurd (glued_of_glues (l := ⟨rest, part.utf8ByteSize⟩) ?_ ?_ glues) apart
          · rw [scanned, alone]
            rfl
          · simp [Lexeme.stop]
      rw [String.append_assoc, scan_of_emit kept, joined, scanned]
      simp [Function.comp_def]

theorem exists_glues_of_glued {a b : String} (h : Glued a b) :
    ∃ l ∈ (typeExpression.scan a).getLast?, l.stop = a.utf8ByteSize ∧
      Glues (Utf8.bytes l.text) (Utf8.bytes b) := by
  obtain ⟨l, last, m, first, stop, start, glues⟩ := h
  obtain ⟨before, after, _, rfl, size, _⟩ := exists_emit_of_mem_scan (List.mem_of_head? first)
  have empty : before = "" := String.utf8ByteSize_eq_zero_iff.mp (size.trans start)
  subst empty
  refine ⟨l, last, stop, ?_⟩
  rw [String.empty_append, Utf8.bytes_append]
  exact glues.append _

theorem not_glued_of_scan_append {a b : String}
    (same : typeExpression.scan (a ++ b) =
      typeExpression.scan a ++ (typeExpression.scan b).map (Lexeme.shift a.utf8ByteSize)) :
    ¬ Glued a b := by
  intro glued
  obtain ⟨l, last, stop, glues⟩ := exists_glues_of_glued glued
  have mem : l ∈ typeExpression.scan (a ++ b) := by
    rw [same]
    exact List.mem_append_left _ (List.mem_of_getLast? last)
  obtain ⟨before, after, p, whole, size, emitted⟩ := exists_emit_of_mem_scan mem
  -- The move that emits the last lexeme of `a` has all of `b` ahead of it.
  obtain ⟨_, rfl⟩ : a = before ++ l.text ∧ b = after := by
    rw [← String.append_assoc] at whole
    apply Utf8.eq_of_append_eq_append whole
    rw [String.utf8ByteSize_append, size, ← stop, Lexeme.stop]
  rw [Utf8.bytes_append, ← Utf8.length_bytes] at emitted
  exact step_ne_of_glues glues p emitted

/-- The characters with which no lexeme ever goes on: the blanks, NUL and the
symbols. -/
def partingChars : List Char :=
  [' ', '\t', '\n', '\x0b', '\x0c', '\r', '\x00', '|', '&', ',', '?', '<', '>', '(', ')', '[', ']']

/-- They are ASCII, and no byte of a name is among them. -/
theorem parting_classes : ∀ c ∈ partingChars, c.toNat < 0x80 ∧
    ¬ (isNamePart (UInt8.ofNat c.toNat) ∨ UInt8.ofNat c.toNat = separator) := by
  simp [partingChars, isNamePart, isNameStart, isLetter, isDigit, separator]

theorem not_glued_of_parting (a : String) {b : String} {c : Char} (first : c ∈ b.toList.head?)
    (parting : c ∈ partingChars) : ¬ Glued a b := by
  intro glued
  obtain ⟨l, _, _, glues⟩ := exists_glues_of_glued glued
  obtain ⟨x, mem, goesOn⟩ := glues.exists_head
  obtain ⟨cs, eq⟩ := List.head?_eq_some_iff.mp first
  obtain ⟨ascii, stop⟩ := parting_classes c parting
  rw [Utf8.bytes, eq, Utf8.encode_cons, Utf8.encodeChar_of_lt ascii] at mem
  cases mem
  exact stop goesOn

/-- The lexemes of two joined texts are those of the first followed by those of
the second exactly if the seam is not glued. A blank, a NUL or a symbol at the
start of the second always keeps them apart. -/
theorem scan_append_iff (a b : String) :
    (typeExpression.scan (a ++ b) =
        typeExpression.scan a ++ (typeExpression.scan b).map (Lexeme.shift a.utf8ByteSize) ↔
      ¬ Glued a b) ∧
    ∀ c ∈ b.toList.head?, c ∈ partingChars →
      typeExpression.scan (a ++ b) =
        typeExpression.scan a ++ (typeExpression.scan b).map (Lexeme.shift a.utf8ByteSize) := by
  refine ⟨⟨not_glued_of_scan_append, scan_append_of_not_glued⟩, ?_⟩
  intro c first parting
  exact scan_append_of_not_glued (not_glued_of_parting a first parting)

/-- A trailing separator goes on with a name, but never with a symbol. -/
theorem scan_append_iff_separator :
    (Glued "Foo\\" "Bar" ∧
      typeExpression.scan ("Foo\\" ++ "Bar") ≠
        typeExpression.scan "Foo\\" ++ (typeExpression.scan "Bar").map (Lexeme.shift 4)) ∧
    typeExpression.scan ("Foo\\" ++ "|Bar") =
      typeExpression.scan "Foo\\" ++ (typeExpression.scan "|Bar").map (Lexeme.shift 4) := by
  have glued : Glued "Foo\\" "Bar" := by decide +kernel
  refine ⟨⟨glued, ?_⟩, ?_⟩
  · intro same
    exact (scan_append_iff "Foo\\" "Bar").1.mp same glued
  · exact (scan_append_iff "Foo\\" "|Bar").2 '|' rfl (by decide)

end PatternSet

end TypeExprLexer

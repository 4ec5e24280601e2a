import TypeExprLexer.CharacterScan

/-!
A scan as the moves it makes.

What a scan does with a text depends on nothing that stands before it. So where
a move takes `part` off `part ++ rest`, the lexemes are those of `rest` moved on
by the length of `part`, with `part` in front if the move emits it
(`PatternSet.scan_of_skip`, `PatternSet.scan_of_emit`). Every text is the end of
a text or falls apart in this way (`PatternSet.move_induction`), and every lexeme
stands where a move emitted it (`PatternSet.exists_emit_of_mem_catches`).
-/

namespace TypeExprLexer

/-- The lexeme `n` bytes further on. -/
def Lexeme.shift (n : Nat) (l : Lexeme) : Lexeme :=
  { l with offset := n + l.offset }

/-- The catch `n` bytes further on. -/
def Catch.shift (n : Nat) (c : Catch) : Catch :=
  { c with lexeme := c.lexeme.shift n }

namespace Lexeme

@[simp] theorem text_shift (n : Nat) (l : Lexeme) : (l.shift n).text = l.text := rfl

@[simp] theorem offset_shift (n : Nat) (l : Lexeme) : (l.shift n).offset = n + l.offset := rfl

@[simp] theorem stop_shift (n : Nat) (l : Lexeme) : (l.shift n).stop = n + l.stop :=
  Nat.add_assoc ..

@[simp] theorem shift_zero (l : Lexeme) : l.shift 0 = l := by
  simp [shift]

@[simp] theorem shift_shift (m n : Nat) (l : Lexeme) : (l.shift n).shift m = l.shift (m + n) := by
  simp [shift, Nat.add_assoc]

@[simp] theorem map_shift_zero (ls : List Lexeme) : ls.map (shift 0) = ls := by
  simp [show shift 0 = id from funext shift_zero]

theorem shift_inj {n : Nat} {l m : Lexeme} (same : l.shift n = m.shift n) : l = m := by
  cases l
  cases m
  simpa [shift] using same

theorem map_shift_inj {n : Nat} {ls ms : List Lexeme} :
    ls.map (shift n) = ms.map (shift n) ↔ ls = ms :=
  List.map_inj_right fun _ _ => shift_inj

end Lexeme

namespace Utf8

theorem utf8ByteSize_pos {s : String} (nonempty : s ≠ "") : 0 < s.utf8ByteSize :=
  Nat.pos_of_ne_zero (mt String.utf8ByteSize_eq_zero_iff.mp nonempty)

theorem eq_of_bytes_eq {s t : String} (same : bytes s = bytes t) : s = t := by
  rw [← String.toByteArray_inj, ← toByteArray_bytes, same, toByteArray_bytes]

/-- A text splits at a byte offset in one way. -/
theorem eq_of_append_eq_append {a b c d : String} (same : a ++ b = c ++ d)
    (size : a.utf8ByteSize = c.utf8ByteSize) : a = c ∧ b = d := by
  have whole : bytes a ++ bytes b = bytes c ++ bytes d := by
    rw [← bytes_append, same, bytes_append]
  obtain ⟨front, back⟩ := List.append_inj whole (by simpa using size)
  exact ⟨eq_of_bytes_eq front, eq_of_bytes_eq back⟩

/-- Of two beginnings of a text the longer one continues the shorter one. -/
theorem exists_append_of_le {a b c d : String} (same : a ++ b = c ++ d)
    (longer : c.utf8ByteSize ≤ a.utf8ByteSize) : ∃ m, a = c ++ m ∧ d = m ++ b := by
  have chars : a.toList ++ b.toList = c.toList ++ d.toList := by
    rw [← String.toList_append, same, String.toList_append]
  obtain ⟨m, front⟩ : ∃ m, a = c ++ m := by
    rcases List.append_eq_append_iff.mp chars with ⟨m, front, _⟩ | ⟨m, front, _⟩
    · have empty : c = a ++ String.ofList m := by
        rw [← String.ofList_toList (s := c), front, String.ofList_append, String.ofList_toList]
      rw [empty, String.utf8ByteSize_append] at longer
      have none : String.ofList m = "" := String.utf8ByteSize_eq_zero_iff.mp (by omega)
      exact ⟨"", by rw [empty, none, String.append_empty, String.append_empty]⟩
    · refine ⟨String.ofList m, ?_⟩
      rw [← String.ofList_toList (s := a), front, String.ofList_append, String.ofList_toList]
  refine ⟨m, front, ?_⟩
  rw [front, String.append_assoc] at same
  exact (eq_of_append_eq_append same.symm rfl).2

end Utf8

namespace PatternSet

variable {P : PatternSet}

/-! ### The two kinds of move -/

/-- A move that skips takes a part that is not empty. -/
theorem ne_empty_of_step_skip {text part : String}
    (skipped : P.step (Utf8.bytes text) = .skip part.utf8ByteSize) : part ≠ "" := by
  rintro rfl
  exact Nat.lt_irrefl 0 (step_skip_pos skipped)

/-- A move that emits takes a part that is not empty. -/
theorem ne_empty_of_step_emit {text part : String} {p : Option Pattern}
    (emitted : P.step (Utf8.bytes text) = .emit part.utf8ByteSize p) : part ≠ "" := by
  rintro rfl
  exact Nat.lt_irrefl 0 (step_emit_pos emitted)

theorem catchesFrom_between_of_skip (before : String) {part rest : String}
    (skipped : P.step (Utf8.bytes (part ++ rest)) = .skip part.utf8ByteSize) :
    P.catchesFrom (.between before (part ++ rest)) =
      P.catchesFrom (.between (before ++ part) rest) := by
  rw [catchesFrom_eq, Cursor.rest_between, skipped, ← Cursor.advanceBy_between]

theorem catchesFrom_between_of_emit (before : String) {part rest : String} {p : Option Pattern}
    (emitted : P.step (Utf8.bytes (part ++ rest)) = .emit part.utf8ByteSize p) :
    P.catchesFrom (.between before (part ++ rest)) =
      ⟨⟨part, before.utf8ByteSize⟩, p⟩ :: P.catchesFrom (.between (before ++ part) rest) := by
  rw [catchesFrom_eq, Cursor.rest_between, emitted, ← Cursor.advanceBy_between,
    ← Cursor.lexeme_between before part rest]

/-- What holds of the empty text, and of a text when it holds of what the first
move leaves, holds of every text. -/
@[elab_as_elim]
theorem move_induction (P : PatternSet) {motive : String → Prop} (finished : motive "")
    (skip : ∀ part rest, P.step (Utf8.bytes (part ++ rest)) = .skip part.utf8ByteSize →
      motive rest → motive (part ++ rest))
    (emit : ∀ part rest p, P.step (Utf8.bytes (part ++ rest)) = .emit part.utf8ByteSize p →
      motive rest → motive (part ++ rest)) (text : String) : motive text := by
  rcases P.catchesFrom_between "" text with ⟨rfl, _⟩ | ⟨part, rest, rfl, nonempty, move⟩
  · exact finished
  · have shorter : rest.utf8ByteSize < (part ++ rest).utf8ByteSize := by
      have := mt String.utf8ByteSize_eq_zero_iff.mp nonempty
      rw [String.utf8ByteSize_append]
      omega
    have behind := move_induction P finished skip emit rest
    rcases move with ⟨skipped, _⟩ | ⟨p, emitted, _⟩
    · exact skip part rest skipped behind
    · exact emit part rest p emitted behind
termination_by text.utf8ByteSize

/-- A scan has no memory: what stands before a text only moves its lexemes on. -/
theorem catchesFrom_between_eq_map (P : PatternSet) (before after : String) :
    P.catchesFrom (.between before after) =
      (P.catches after).map (Catch.shift before.utf8ByteSize) := by
  induction after using move_induction P generalizing before with
  | finished =>
      rw [catches, catchesFrom_eq, catchesFrom_eq]
      rfl
  | skip part rest skipped ih =>
      have start : P.catches (part ++ rest) =
          (P.catches rest).map (Catch.shift ("" ++ part).utf8ByteSize) := by
        rw [catches, Cursor.ofText_eq_between, catchesFrom_between_of_skip "" skipped, ih]
      rw [catchesFrom_between_of_skip before skipped, ih, start]
      simp [Catch.shift, Function.comp_def]
  | emit part rest p emitted ih =>
      have start : P.catches (part ++ rest) =
          ⟨⟨part, 0⟩, p⟩ :: (P.catches rest).map (Catch.shift ("" ++ part).utf8ByteSize) := by
        rw [catches, Cursor.ofText_eq_between, catchesFrom_between_of_emit "" emitted, ih]
        rfl
      rw [catchesFrom_between_of_emit before emitted, ih, start]
      simp [Catch.shift, Lexeme.shift, Function.comp_def, Nat.add_assoc]

theorem catches_of_skip {part rest : String}
    (skipped : P.step (Utf8.bytes (part ++ rest)) = .skip part.utf8ByteSize) :
    P.catches (part ++ rest) = (P.catches rest).map (Catch.shift part.utf8ByteSize) := by
  rw [catches, Cursor.ofText_eq_between, catchesFrom_between_of_skip "" skipped,
    String.empty_append, catchesFrom_between_eq_map]

theorem catches_of_emit {part rest : String} {p : Option Pattern}
    (emitted : P.step (Utf8.bytes (part ++ rest)) = .emit part.utf8ByteSize p) :
    P.catches (part ++ rest) =
      ⟨⟨part, 0⟩, p⟩ :: (P.catches rest).map (Catch.shift part.utf8ByteSize) := by
  rw [catches, Cursor.ofText_eq_between, catchesFrom_between_of_emit "" emitted,
    String.empty_append, catchesFrom_between_eq_map]
  rfl

@[simp] theorem scan_empty (P : PatternSet) : P.scan "" = [] := by
  rw [scan, catches, catchesFrom_eq]
  rfl

/-- A part that a move skips only moves the lexemes on. -/
theorem scan_of_skip {part rest : String}
    (skipped : P.step (Utf8.bytes (part ++ rest)) = .skip part.utf8ByteSize) :
    P.scan (part ++ rest) = (P.scan rest).map (Lexeme.shift part.utf8ByteSize) := by
  simp [scan, catches_of_skip skipped, Catch.shift, Function.comp_def]

/-- A part that a move emits is the first lexeme. -/
theorem scan_of_emit {part rest : String} {p : Option Pattern}
    (emitted : P.step (Utf8.bytes (part ++ rest)) = .emit part.utf8ByteSize p) :
    P.scan (part ++ rest) = ⟨part, 0⟩ :: (P.scan rest).map (Lexeme.shift part.utf8ByteSize) := by
  simp [scan, catches_of_emit emitted, Catch.shift, Function.comp_def]

/-! ### Where a lexeme stands -/

/-- A catch is what a move emitted at its offset. -/
theorem exists_emit_of_mem_catches {text : String} {c : Catch} (mem : c ∈ P.catches text) :
    ∃ before after, text = before ++ (c.lexeme.text ++ after) ∧
      before.utf8ByteSize = c.lexeme.offset ∧
      P.step (Utf8.bytes (c.lexeme.text ++ after)) =
        .emit c.lexeme.text.utf8ByteSize c.pattern := by
  induction text using move_induction P generalizing c with
  | finished =>
      have none : P.catches "" = [] := List.map_eq_nil_iff.mp P.scan_empty
      rw [none] at mem
      cases mem
  | skip part rest skipped ih =>
      rw [catches_of_skip skipped, List.mem_map] at mem
      obtain ⟨d, mem, rfl⟩ := mem
      obtain ⟨before, after, rfl, size, emitted⟩ := ih mem
      refine ⟨part ++ before, after, (String.append_assoc).symm, ?_, emitted⟩
      simp [Catch.shift, size]
  | emit part rest p emitted ih =>
      rw [catches_of_emit emitted, List.mem_cons, List.mem_map] at mem
      rcases mem with rfl | ⟨d, mem, rfl⟩
      · exact ⟨"", rest, (String.empty_append).symm, rfl, emitted⟩
      · obtain ⟨before, after, rfl, size, emitted⟩ := ih mem
        refine ⟨part ++ before, after, (String.append_assoc).symm, ?_, emitted⟩
        simp [Catch.shift, size]

/-- A lexeme is what a move emitted at its offset. -/
theorem exists_emit_of_mem_scan {text : String} {l : Lexeme} (mem : l ∈ P.scan text) :
    ∃ before after p, text = before ++ (l.text ++ after) ∧ before.utf8ByteSize = l.offset ∧
      P.step (Utf8.bytes (l.text ++ after)) = .emit l.text.utf8ByteSize p := by
  obtain ⟨c, caught, rfl⟩ := List.mem_map.mp mem
  obtain ⟨before, after, same, size, emitted⟩ := exists_emit_of_mem_catches caught
  exact ⟨before, after, c.pattern, same, size, emitted⟩

end PatternSet

end TypeExprLexer

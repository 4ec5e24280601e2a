import TypeExprLexer.Proofs.Glue

/-!
Scans from inside a text.

A scan may begin anywhere between two characters. It finds its way back: where a
lexeme of the whole text is cut it takes the rest of it apart, but never reads on
beyond its end, and from there on it yields the lexemes of the whole text
(`PatternSet.resumes_scan`). The reason is that what continues a name still does so
when its first byte is taken away (`Pattern.nameTail_cons_of_pos`), and that no move
from there leaves it (`PatternSet.exists_emit_of_nameTail_pos`). Only `$this` is
different, since `this` goes on with a name behind it.
-/

namespace TypeExprLexer

open ByteClass Pattern

/-! ### Ends of names -/

namespace Pattern

/-- What continues a name still does without its first byte. -/
theorem nameTail_cons_of_pos {b : UInt8} {bs : List UInt8} (pos : 0 < nameTail (b :: bs)) :
    nameTail (b :: bs) = nameTail bs + 1 := by
  rcases nameTail_pos_iff.mp pos with ⟨x, mem, part⟩ | ⟨c, ahead, start⟩
  · cases mem
    exact nameTail_cons_of_isNamePart bs part
  · obtain ⟨rfl, cs, rfl⟩ := List.cons_prefix_cons.mp ahead
    rw [List.singleton_append, nameTail_separator_cons cs start,
      nameTail_cons_of_isNamePart cs (isNamePart_of_isNameStart start)]

theorem nameTail_drop {rest : List UInt8} {k : Nat} (within : k ≤ nameTail rest) :
    nameTail (rest.drop k) = nameTail rest - k := by
  induction k generalizing rest with
  | zero => rfl
  | succ k ih =>
      cases rest with
      | nil => cases within
      | cons b bs =>
          have shorter := nameTail_cons_of_pos (Nat.lt_of_lt_of_le (Nat.succ_pos k) within)
          rw [List.drop_succ_cons, ih (by omega), shorter, Nat.add_sub_add_right]

/-- What begins no name is a character of one byte. -/
theorem leadWidth_of_not_start {b : UInt8} (other : ¬ (isNameStart b ∨ b = separator)) :
    Utf8.leadWidth b = 1 := by
  apply if_pos
  apply UInt8.not_le.mp
  intro high
  exact other (.inl (isNameStart_of_le (UInt8.le_trans (by decide) high)))

end Pattern

namespace PatternSet

/-- Where something continues a name, a move emits a part of it. -/
theorem exists_emit_of_nameTail_pos {rest : List UInt8} (pos : 0 < nameTail rest) :
    ∃ n p, typeExpression.step rest = .emit n p ∧ n ≤ nameTail rest := by
  cases rest with
  | nil => cases pos
  | cons b bs =>
      have first : isNamePart b ∨ b = separator := by
        rcases nameTail_pos_iff.mp pos with ⟨x, mem, part⟩ | ⟨c, ahead, _⟩
        · cases mem
          exact .inl part
        · exact .inr (List.cons_prefix_cons.mp ahead).1.symm
      have noThis : ¬ BeginsThis (b :: bs) := by
        intro this
        rw [this.eq_dollar] at first
        revert first
        decide
      have noBlank : ¬ isBlank b := by
        intro blank
        rcases first with part | rfl
        · exact not_isNamePart_of_isBlank blank part
        · cases not_isBlank_separator.symm.trans blank
      rw [step_typeExpression_cons, if_neg noThis, if_neg noBlank]
      by_cases start : isNameStart b ∨ b = separator
      · rw [if_pos start]
        exact ⟨_, _, rfl, Nat.le_of_eq (nameTail_cons_of_pos pos).symm⟩
      · -- A digit is left.
        rw [if_neg start, leadWidth_of_not_start start]
        exact ⟨_, _, rfl, pos⟩

end PatternSet

/-! ### The rest of a cut lexeme -/

/-- Lexemes one right behind the other, from a byte offset up to another. -/
def Lexeme.Tiles (start stop : Nat) : List Lexeme → Prop
  | [] => start = stop
  | l :: ls => l.offset = start ∧ Tiles l.stop stop ls

namespace Lexeme

theorem Tiles.shift {start stop : Nat} {ls : List Lexeme} (h : Tiles start stop ls) (n : Nat) :
    Tiles (n + start) (n + stop) (ls.map (Lexeme.shift n)) := by
  induction ls generalizing start with
  | nil => exact congrArg (n + ·) h
  | cons l ls ih =>
      obtain ⟨first, others⟩ := h
      refine ⟨by rw [offset_shift, first], ?_⟩
      rw [stop_shift]
      exact ih others

end Lexeme

namespace PatternSet

/-- What continues a name is taken apart up to its end, and no further. -/
theorem exists_tiles_of_nameTail {part rest : String}
    (continues : nameTail (Utf8.bytes (part ++ rest)) = part.utf8ByteSize) :
    ∃ inner, Lexeme.Tiles 0 part.utf8ByteSize inner ∧
      typeExpression.scan (part ++ rest) =
        inner ++ (typeExpression.scan rest).map (Lexeme.shift part.utf8ByteSize) := by
  by_cases empty : part = ""
  · subst empty
    exact ⟨[], rfl, by simp⟩
  · have pos : 0 < nameTail (Utf8.bytes (part ++ rest)) := by
      rw [continues]
      exact Utf8.utf8ByteSize_pos empty
    obtain ⟨n, p, emitted, within⟩ := exists_emit_of_nameTail_pos pos
    obtain ⟨first, behind, same, rfl⟩ := (isBoundary_of_step_emit emitted).exists_append
    obtain ⟨more, rfl, rfl⟩ := Utf8.exists_append_of_le same (continues ▸ within)
    have taken := step_emit_pos emitted
    have left : nameTail (Utf8.bytes (more ++ rest)) = more.utf8ByteSize := by
      have dropped := nameTail_drop within
      rw [continues, String.append_assoc, Utf8.bytes_append first, ← Utf8.length_bytes first,
        List.drop_left, String.utf8ByteSize_append, Utf8.length_bytes,
        Nat.add_sub_cancel_left] at dropped
      exact dropped
    have shorter : more.utf8ByteSize < (first ++ more).utf8ByteSize := by
      rw [String.utf8ByteSize_append]
      omega
    obtain ⟨inner, tiles, scanned⟩ := exists_tiles_of_nameTail left
    rw [String.append_assoc] at emitted ⊢
    refine ⟨⟨first, 0⟩ :: inner.map (Lexeme.shift first.utf8ByteSize), ⟨rfl, ?_⟩, ?_⟩
    · rw [String.utf8ByteSize_append, Lexeme.stop, Nat.add_comm]
      exact tiles.shift first.utf8ByteSize
    · rw [scan_of_emit emitted, scanned]
      simp [Function.comp_def]
termination_by part.utf8ByteSize

/-- A lexeme that is cut, `$this` apart, is a name, and the rest of it continues one. -/
theorem nameTail_of_step_emit {part more rest : String} {p : Option Pattern}
    (emitted : typeExpression.step (Utf8.bytes (part ++ (more ++ rest))) =
      .emit (part ++ more).utf8ByteSize p)
    (front : part ≠ "") (back : more ≠ "") (other : p ≠ some .thisVariable) :
    nameTail (Utf8.bytes (more ++ rest)) = more.utf8ByteSize := by
  have long := Utf8.utf8ByteSize_pos back
  obtain ⟨b, bs, bytes⟩ := List.exists_cons_of_ne_nil (mt Utf8.bytes_eq_nil_iff.mp front)
  have size : part.utf8ByteSize = bs.length + 1 := by
    rw [← Utf8.length_bytes, bytes, List.length_cons]
  rw [Utf8.bytes_append, bytes, List.cons_append, step_typeExpression_cons,
    String.utf8ByteSize_append, size] at emitted
  by_cases this : BeginsThis (b :: (bs ++ Utf8.bytes (more ++ rest)))
  · rw [if_pos this] at emitted
    exact absurd (Step.emit.inj emitted).2.symm other
  · rw [if_neg this] at emitted
    by_cases start : isNameStart b ∨ b = separator
    · rw [if_pos start] at emitted
      have length : nameTail (bs ++ Utf8.bytes (more ++ rest)) = bs.length + more.utf8ByteSize := by
        have := (Step.emit.inj emitted).1
        omega
      have dropped := nameTail_drop (k := bs.length) (by rw [length]; exact Nat.le_add_right ..)
      rwa [List.drop_left, length, Nat.add_sub_cancel_left] at dropped
    · rw [if_neg start] at emitted
      by_cases blank : isBlank b
      · rw [if_pos blank] at emitted
        cases emitted
      · rw [if_neg blank, leadWidth_of_not_start start] at emitted
        have := (Step.emit.inj emitted).1
        omega

end PatternSet

/-! ### From a place on -/

/-- What is found from the byte offset `p` on, told by the lexemes of the whole text:
the rest of the lexeme that `p` cuts, taken apart without a gap, or nothing if `p` cuts
none, and then the lexemes from `p` on. -/
def Lexeme.Resumes (lexemes : List Lexeme) (p : Nat) (found : List Lexeme) : Prop :=
  ∃ inner, found = inner ++ lexemes.filter (fun l => p ≤ l.offset) ∧
    (∀ l ∈ lexemes, l.offset < p → p < l.stop → Lexeme.Tiles p l.stop inner) ∧
    ((∀ l ∈ lexemes, l.offset < p → l.stop ≤ p) → inner = [])

namespace Lexeme

theorem resumes_of_forall_le {lexemes : List Lexeme} {p : Nat}
    (behind : ∀ l ∈ lexemes, p ≤ l.offset) : Resumes lexemes p lexemes := by
  refine ⟨[], ?_, ?_, fun _ => rfl⟩
  · rw [List.nil_append, List.filter_eq_self.mpr]
    simpa using behind
  · intro l mem before
    exact absurd (behind l mem) (Nat.not_le.mpr before)

/-- Lexemes that end in front of a place have no say in what is found from there on. -/
theorem Resumes.shift {lexemes found : List Lexeme} {p : Nat} (h : Resumes lexemes p found)
    {n : Nat} (front : List Lexeme) (before : ∀ l ∈ front, l.offset < n ∧ l.stop ≤ n) :
    Resumes (front ++ lexemes.map (Lexeme.shift n)) (n + p) (found.map (Lexeme.shift n)) := by
  obtain ⟨inner, rfl, cut, whole⟩ := h
  refine ⟨inner.map (Lexeme.shift n), ?_, ?_, ?_⟩
  · have none : front.filter (fun l => n + p ≤ l.offset) = [] := by
      rw [List.filter_eq_nil_iff]
      intro l mem
      have := (before l mem).1
      simp only [decide_eq_true_eq]
      omega
    rw [List.map_append, List.filter_append, none, List.nil_append, List.filter_map]
    simp [Function.comp_def]
  · intro l mem start stop
    rcases List.mem_append.mp mem with mem | mem
    · have := (before l mem).2
      omega
    · obtain ⟨m, inside, rfl⟩ := List.mem_map.mp mem
      rw [offset_shift] at start
      rw [stop_shift] at stop ⊢
      exact (cut m inside (by omega) (by omega)).shift n
  · intro uncut
    rw [whole, List.map_nil]
    intro m mem start
    have stop := uncut (m.shift n) (List.mem_append_right _ (List.mem_map_of_mem mem))
    rw [offset_shift, stop_shift] at stop
    have := stop (by omega)
    omega

end Lexeme

/-- No `$this` is cut at the byte offset `p`. -/
def Catch.SparesThis (catches : List Catch) (p : Nat) : Prop :=
  ∀ c ∈ catches, c.pattern = some .thisVariable →
    ¬ (c.lexeme.offset < p ∧ p < c.lexeme.stop)

instance (catches : List Catch) (p : Nat) : Decidable (Catch.SparesThis catches p) :=
  inferInstanceAs (Decidable (∀ c ∈ catches, _ → ¬ (_ ∧ _)))

theorem Catch.SparesThis.of_shift (front : List Catch) {catches : List Catch} {n p : Nat}
    (h : SparesThis (front ++ catches.map (Catch.shift n)) (n + p)) : SparesThis catches p := by
  intro c mem this cut
  refine h (c.shift n) (List.mem_append_right _ (List.mem_map_of_mem mem)) this ?_
  have start : (c.shift n).lexeme.offset = n + c.lexeme.offset := rfl
  have stop : (c.shift n).lexeme.stop = n + c.lexeme.stop := Lexeme.stop_shift n c.lexeme
  omega

namespace PatternSet

/-- A scan that begins inside blanks that are passed over finds what one in front of
them does. -/
theorem resumes_of_step_skip {part more rest : String}
    (skipped : typeExpression.step (Utf8.bytes (part ++ more ++ rest)) =
      .skip (part ++ more).utf8ByteSize) :
    Lexeme.Resumes (typeExpression.scan (part ++ more ++ rest)) part.utf8ByteSize
      ((typeExpression.scan (more ++ rest)).map (Lexeme.shift part.utf8ByteSize)) := by
  have blank := isBlank_of_step_skip skipped
  have blankBehind : ∀ b ∈ Utf8.bytes more, isBlank b := by
    intro b mem
    rw [Utf8.bytes_append] at blank
    exact blank b (List.mem_append_right _ mem)
  have same : typeExpression.scan (part ++ more ++ rest) =
      (typeExpression.scan (more ++ rest)).map (Lexeme.shift part.utf8ByteSize) := by
    rw [scan_of_skip skipped, scan_blanks_append skipsBlanks_typeExpression rest blankBehind]
    simp [Function.comp_def]
  rw [same]
  apply Lexeme.resumes_of_forall_le
  intro l mem
  obtain ⟨m, _, rfl⟩ := List.mem_map.mp mem
  exact Nat.le_add_right ..

/-- A scan that begins inside a name takes the rest of the name apart. -/
theorem resumes_of_step_emit {part more rest : String} {p : Option Pattern}
    (emitted : typeExpression.step (Utf8.bytes (part ++ more ++ rest)) =
      .emit (part ++ more).utf8ByteSize p)
    (front : part ≠ "") (back : more ≠ "") (other : p ≠ some .thisVariable) :
    Lexeme.Resumes (typeExpression.scan (part ++ more ++ rest)) part.utf8ByteSize
      ((typeExpression.scan (more ++ rest)).map (Lexeme.shift part.utf8ByteSize)) := by
  have pos := Utf8.utf8ByteSize_pos front
  have long := Utf8.utf8ByteSize_pos back
  have size : (part ++ more).utf8ByteSize = part.utf8ByteSize + more.utf8ByteSize :=
    String.utf8ByteSize_append
  have scanned := scan_of_emit emitted
  rw [String.append_assoc] at emitted
  obtain ⟨inner, tiles, found⟩ :=
    exists_tiles_of_nameTail (nameTail_of_step_emit emitted front back other)
  -- The name is the only lexeme in front of the place or around it.
  have behind : ∀ l ∈ (typeExpression.scan rest).map (Lexeme.shift (part ++ more).utf8ByteSize),
      part.utf8ByteSize ≤ l.offset := by
    intro l mem
    obtain ⟨m, _, rfl⟩ := List.mem_map.mp mem
    rw [Lexeme.offset_shift]
    omega
  refine ⟨inner.map (Lexeme.shift part.utf8ByteSize), ?_, ?_, ?_⟩
  · rw [found, scanned, List.filter_cons_of_neg (by simpa using front),
      List.filter_eq_self.mpr (by simpa using behind), size]
    simp [Function.comp_def]
  · rw [scanned]
    intro l mem start _
    rcases List.mem_cons.mp mem with rfl | mem
    · have := tiles.shift part.utf8ByteSize
      rwa [Nat.add_zero, ← size, ← Nat.zero_add (part ++ more).utf8ByteSize] at this
    · exact absurd (behind l mem) (Nat.not_le.mpr start)
  · rw [scanned]
    intro uncut
    have stop := uncut _ List.mem_cons_self pos
    rw [Lexeme.stop, size] at stop
    omega

/-- A scan from any place on takes the rest of the lexeme that the place cuts apart up to
its end, and then finds the lexemes of the whole text, unless the place cuts a `$this`. -/
theorem resumes_scan {before after : String}
    (spared : Catch.SparesThis (typeExpression.catches (before ++ after)) before.utf8ByteSize) :
    Lexeme.Resumes (typeExpression.scan (before ++ after)) before.utf8ByteSize
      ((typeExpression.scan after).map (Lexeme.shift before.utf8ByteSize)) := by
  obtain ⟨text, same⟩ : ∃ text, text = before ++ after := ⟨_, rfl⟩
  rw [← same] at spared ⊢
  induction text using move_induction typeExpression generalizing before with
  | finished =>
      obtain ⟨_, rfl⟩ := String.append_eq_empty_iff.mp same.symm
      rw [scan_empty]
      exact Lexeme.resumes_of_forall_le nofun
  | skip part rest skipped ih =>
      rcases Nat.le_total part.utf8ByteSize before.utf8ByteSize with behind | inside
      · obtain ⟨more, rfl, rfl⟩ := Utf8.exists_append_of_le same.symm behind
        rw [catches_of_skip skipped, String.utf8ByteSize_append] at spared
        have resumed := ih (Catch.SparesThis.of_shift [] spared) rfl
        have moved := resumed.shift (n := part.utf8ByteSize) [] nofun
        rw [scan_of_skip skipped, String.utf8ByteSize_append]
        simpa [Function.comp_def] using moved
      · obtain ⟨more, rfl, rfl⟩ := Utf8.exists_append_of_le same inside
        exact resumes_of_step_skip skipped
  | emit part rest p emitted ih =>
      rcases Nat.lt_or_ge before.utf8ByteSize part.utf8ByteSize with inside | behind
      · obtain ⟨more, rfl, rfl⟩ := Utf8.exists_append_of_le same (Nat.le_of_lt inside)
        by_cases front : before = ""
        · subst front
          rw [String.empty_append, String.utf8ByteSize_empty, Lexeme.map_shift_zero]
          exact Lexeme.resumes_of_forall_le fun _ _ => Nat.zero_le _
        · rw [String.utf8ByteSize_append] at inside
          apply resumes_of_step_emit emitted front
          · rintro rfl
            exact Nat.lt_irrefl _ inside
          · intro this
            rw [catches_of_emit emitted] at spared
            refine spared _ List.mem_cons_self this ⟨?_, ?_⟩
            · exact Utf8.utf8ByteSize_pos front
            · rwa [Lexeme.stop, Nat.zero_add, String.utf8ByteSize_append]
      · obtain ⟨more, rfl, rfl⟩ := Utf8.exists_append_of_le same.symm behind
        rw [catches_of_emit emitted, String.utf8ByteSize_append] at spared
        have resumed := ih (Catch.SparesThis.of_shift [_] spared) rfl
        have ends : ∀ l ∈ [(⟨part, 0⟩ : Lexeme)],
            l.offset < part.utf8ByteSize ∧ l.stop ≤ part.utf8ByteSize := by
          simpa [Lexeme.stop] using Utf8.utf8ByteSize_pos (ne_empty_of_step_emit emitted)
        have moved := resumed.shift _ ends
        rw [scan_of_emit emitted, String.utf8ByteSize_append]
        simpa [Function.comp_def] using moved

/-- In front of the digits of a name: they are lexemes of their own, and the segment
behind them is one up to the end of the name. -/
theorem resumes_scan_digits :
    Catch.SparesThis (typeExpression.catches ("Foo\\Bar" ++ "12\\é|$this")) 7 ∧
    Lexeme.Resumes (typeExpression.scan ("Foo\\Bar" ++ "12\\é|$this")) 7
      [⟨"1", 7⟩, ⟨"2", 8⟩, ⟨"\\é", 9⟩, ⟨"|", 12⟩, ⟨"$this", 13⟩] := by
  have spared : Catch.SparesThis (typeExpression.catches ("Foo\\Bar" ++ "12\\é|$this")) 7 := by
    decide +kernel
  have found : (typeExpression.scan "12\\é|$this").map (Lexeme.shift 7) =
      [⟨"1", 7⟩, ⟨"2", 8⟩, ⟨"\\é", 9⟩, ⟨"|", 12⟩, ⟨"$this", 13⟩] := by
    decide +kernel
  refine ⟨spared, ?_⟩
  rw [← found]
  exact resumes_scan spared

/-- Inside `$this` a scan reads on beyond its end. -/
example : typeExpression.scan ("$" ++ "thisFoo") = [⟨"$this", 0⟩, ⟨"Foo", 5⟩] ∧
    typeExpression.scan "thisFoo" = [⟨"thisFoo", 0⟩] := by
  decide +kernel

end PatternSet

end TypeExprLexer

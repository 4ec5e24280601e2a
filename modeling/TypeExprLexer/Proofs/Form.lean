import TypeExprLexer.Proofs.Lookahead

/-!
Pattern sets that scan alike.

Many pattern sets make the same lexemes of every text: at most one pattern other than
`anyChar` matches at a place, nothing behind `anyChar` is ever tried, and a character is
taken in the same way whether `anyChar` matches it or nothing does. What remains is the
form of a pattern set, two flags and what becomes of blanks. The form tells every move
up to the pattern that made it (`PatternSet.forget_step_cons`), and three short texts
tell the form (`PatternSet.ofScan_scan`). So two pattern sets scan alike exactly if
their forms are equal (`PatternSet.scan_eq_iff_form_eq`).
-/

namespace TypeExprLexer

/-- What becomes of blanks. -/
inductive BlankTreatment where
  /-- A run of blanks is a lexeme. -/
  | run
  /-- A run of blanks is passed over. -/
  | skip
  /-- Every blank is a lexeme. -/
  | char
deriving DecidableEq, Repr

/-- What the scans of a pattern set show of it: whether `$this` and names are taken
whole, and what becomes of blanks. -/
structure Form where
  thisVariable : Bool
  name : Bool
  blanks : BlankTreatment
deriving DecidableEq, Repr

namespace PatternSet

variable {P Q : PatternSet}

/-- The patterns that have their turn before `anyChar`, which leaves no turn to others. -/
def tried (P : PatternSet) : List Pattern :=
  (P.catchable ++ P.nonCatchable).takeWhile (· ≠ .anyChar)

/-- The form of a pattern set. -/
def form (P : PatternSet) : Form where
  thisVariable := .thisVariable ∈ P.tried
  name := .name ∈ P.tried
  blanks :=
    if .blanks ∈ P.catchable.takeWhile (· ≠ .anyChar) then .run
    else if .blanks ∈ P.tried then .skip
    else .char

theorem mem_tried_iff {p : Pattern} :
    p ∈ P.tried ↔ p ∈ P.catchable.takeWhile (· ≠ .anyChar) ∨
      .anyChar ∉ P.catchable ∧ p ∈ P.nonCatchable.takeWhile (· ≠ .anyChar) := by
  obtain ⟨catchable, nonCatchable⟩ := P
  rw [tried]
  induction catchable with
  | nil => simp
  | cons q qs ih =>
      by_cases any : q = .anyChar
      · subst any
        simp
      · rw [List.cons_append, List.takeWhile_cons_of_pos (by simpa using any),
          List.takeWhile_cons_of_pos (by simpa using any), List.mem_cons, List.mem_cons, ih]
        simp [Ne.symm any, or_assoc]

end PatternSet

/-! ### Moves without their patterns -/

namespace Step

/-- A move, whichever pattern made it. -/
def forget : Step → Step
  | finished => finished
  | skip n => skip n
  | emit n _ => emit n none

theorem eq_skip_of_forget {s : Step} {n : Nat} (same : s.forget = .skip n) : s = .skip n := by
  cases s with
  | finished => cases same
  | skip m => exact same
  | emit m p => cases same

theorem exists_eq_emit_of_forget {s : Step} {n : Nat} (same : s.forget = .emit n none) :
    ∃ p, s = .emit n p := by
  cases s with
  | finished => cases same
  | skip m => cases same
  | emit m p =>
      cases same
      exact ⟨p, rfl⟩

end Step

namespace Form

/-- Whether the patterns of a form take a match of the given one whole. -/
def takes (f : Form) : Pattern → Bool
  | .thisVariable => f.thisVariable
  | .name => f.name
  | .blanks => f.blanks ≠ .char
  | .anyChar => false

end Form

namespace PatternSet

variable {P Q : PatternSet}

theorem blanks_form_eq_skip_iff :
    P.form.blanks = .skip ↔ .blanks ∉ P.catchable.takeWhile (· ≠ .anyChar) ∧ .blanks ∈ P.tried := by
  rw [form]
  split
  · next caught => exact iff_of_false nofun fun h => h.1 caught
  · next free =>
      split
      · next tried => exact iff_of_true rfl ⟨free, tried⟩
      · next untried => exact iff_of_false nofun fun h => untried h.2

theorem blanks_form_eq_char_iff : P.form.blanks = .char ↔ .blanks ∉ P.tried := by
  rw [form]
  split
  · next caught => exact iff_of_false nofun fun untried => untried (mem_tried_iff.mpr (.inl caught))
  · split
    · next tried => exact iff_of_false nofun fun untried => untried tried
    · next untried => exact iff_of_true rfl untried

theorem takes_form_iff {p : Pattern} : P.form.takes p ↔ p ∈ P.tried := by
  cases p with
  | thisVariable => simp [Form.takes, form]
  | name => simp [Form.takes, form]
  | blanks => simp [Form.takes, blanks_form_eq_char_iff]
  | anyChar =>
      have none : .anyChar ∉ P.tried := by
        intro mem
        simpa using List.all_eq_true.mp List.all_takeWhile _ mem
      simp [Form.takes, none]

/-- A move of a pattern set is told by its form and the bytes ahead, up to the pattern
that made it. -/
theorem forget_step_cons (P : PatternSet) (b : UInt8) (bs : List UInt8) :
    (P.step (b :: bs)).forget =
      if P.form.takes (.due (b :: bs)) then
        if Pattern.due (b :: bs) = .blanks ∧ P.form.blanks = .skip then
          .skip (Pattern.blanks.length (b :: bs))
        else .emit ((Pattern.due (b :: bs)).length (b :: bs)) none
      else .emit (Utf8.leadWidth b) none := by
  have takes := takes_form_iff (P := P) (p := .due (b :: bs))
  rw [mem_tried_iff] at takes
  rw [step_cons_eq_due]
  by_cases caught : .due (b :: bs) ∈ P.catchable.takeWhile (· ≠ .anyChar)
  · rw [if_pos caught, if_pos (takes.mpr (.inl caught)), if_neg]
    · rfl
    · rintro ⟨same, skips⟩
      exact (blanks_form_eq_skip_iff.mp skips).1 (same ▸ caught)
  by_cases listed : .anyChar ∉ P.catchable ∧
      .due (b :: bs) ∈ P.nonCatchable.takeWhile (· ≠ .anyChar)
  · have taken := takes.mpr (.inr listed)
    rw [if_neg caught, if_neg listed.1, if_pos listed.2, if_pos taken]
    by_cases blank : Pattern.due (b :: bs) = .blanks
    · have skips : P.form.blanks = .skip := by
        rw [blanks_form_eq_skip_iff, ← blank, ← takes_form_iff]
        exact ⟨caught, taken⟩
      rw [if_pos blank, if_pos ⟨blank, skips⟩]
      rfl
    · rw [if_neg blank, if_neg fun h => blank h.1]
      rfl
  · rw [if_neg caught, if_neg (mt takes.mp (not_or.mpr ⟨caught, listed⟩))]
    split
    · rfl
    · next any => rw [if_neg fun mem => listed ⟨any, mem⟩]; rfl

/-- Equal forms make moves that differ only in the patterns they name. -/
theorem forget_step_eq (same : P.form = Q.form) (rest : List UInt8) :
    (P.step rest).forget = (Q.step rest).forget := by
  cases rest with
  | nil => rfl
  | cons b bs => rw [forget_step_cons, forget_step_cons, same]

/-- Moves that differ only in the patterns they name cut a text into the same lexemes. -/
theorem scan_eq_of_forget_step_eq
    (same : ∀ rest, (P.step rest).forget = (Q.step rest).forget) (text : String) :
    P.scan text = Q.scan text := by
  induction text using move_induction P with
  | finished => rw [scan_empty, scan_empty]
  | skip part rest skipped ih =>
      have other := same (Utf8.bytes (part ++ rest))
      rw [skipped] at other
      rw [scan_of_skip skipped, scan_of_skip (Step.eq_skip_of_forget other.symm), ih]
  | emit part rest p emitted ih =>
      have other := same (Utf8.bytes (part ++ rest))
      rw [emitted] at other
      obtain ⟨q, emitted'⟩ := Step.exists_eq_emit_of_forget other.symm
      rw [scan_of_emit emitted, scan_of_emit emitted', ih]

theorem scan_eq_of_form_eq (same : P.form = Q.form) : P.scan = Q.scan :=
  funext (scan_eq_of_forget_step_eq (forget_step_eq same))

end PatternSet

/-! ### A form from scans -/

namespace Form

/-- The simplest pattern set of a form. -/
def patternSet (f : Form) : PatternSet where
  catchable :=
    (if f.thisVariable then [.thisVariable] else []) ++
      ((if f.name then [.name] else []) ++ if f.blanks = .run then [.blanks] else [])
  nonCatchable := if f.blanks = .skip then [.blanks] else []

theorem form_patternSet (f : Form) : f.patternSet.form = f := by
  obtain ⟨thisVariable, name, blanks⟩ := f
  cases thisVariable <;> cases name <;> cases blanks <;> rfl

/-- The form that three short texts and their lexemes show. -/
def ofScan (scan : String → List Lexeme) : Form where
  thisVariable := (scan "$this").length = 1
  name := (scan "ab").length = 1
  blanks :=
    match (scan "  ").length with
    | 0 => .skip
    | 1 => .run
    | _ => .char

theorem ofScan_patternSet (f : Form) : ofScan f.patternSet.scan = f := by
  obtain ⟨thisVariable, name, blanks⟩ := f
  cases thisVariable <;> cases name <;> cases blanks <;> decide +kernel

end Form

namespace PatternSet

variable {P Q : PatternSet}

/-- The scans of a pattern set show its form. -/
theorem ofScan_scan (P : PatternSet) : Form.ofScan P.scan = P.form := by
  rw [scan_eq_of_form_eq P.form.form_patternSet.symm, Form.ofScan_patternSet]

/-- Two pattern sets cut every text into the same lexemes exactly if their forms are
equal. -/
theorem scan_eq_iff_form_eq (P Q : PatternSet) :
    (∀ text, P.scan text = Q.scan text) ↔ P.form = Q.form := by
  constructor
  · intro alike
    rw [← P.ofScan_scan, ← Q.ofScan_scan, funext alike]
  · intro same text
    rw [scan_eq_of_form_eq same]

/-- Neither order, nor repetition, nor what stands behind `anyChar` shows, nor whether
`anyChar` is listed at all. -/
example : (⟨[.name, .thisVariable, .name, .anyChar, .blanks], [.blanks]⟩ : PatternSet).form =
    (⟨[.thisVariable], [.name]⟩ : PatternSet).form := rfl

end PatternSet

end TypeExprLexer

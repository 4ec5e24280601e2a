import Mathlib.Data.List.Chain
import TypeExprLexer.Proofs.Factorization
import TypeExprLexer.Proofs.Seam

/-!
Writing lexemes down again.

A layout writes words one behind the other, each after a gap. If the words are
lexemes and the gaps blank, then a scan of what is written finds the words again, each
where it was written, exactly if no two that are glued touch
(`PatternSet.scan_text_iff`). So the tokens of a text survive any other spacing that
keeps these apart (`Vocabulary.tokenize_respaced`).
-/

namespace TypeExprLexer

open ByteClass

/-! ### Layouts -/

/-- Words with the gaps around them. -/
structure Layout where
  /-- The words in their order, each with the gap in front of it. -/
  words : List (String × String)
  /-- The gap behind the last word. -/
  lastGap : String
deriving DecidableEq, Repr

namespace Layout

/-- What is written: every gap and its word in turn, and the last gap. -/
def text (l : Layout) : String :=
  l.words.foldr (fun w rest => w.1 ++ (w.2 ++ rest)) l.lastGap

/-- What is written in front of a word that has the given number and gap. -/
def textBefore (l : Layout) (i : Nat) (gap : String) : String :=
  text ⟨l.words.take i, gap⟩

/-- The words as lexemes: each stands where the text in front of it ends. -/
def lexemes (l : Layout) : List Lexeme :=
  l.words.mapIdx fun i w => ⟨w.2, (l.textBefore i w.1).utf8ByteSize⟩

/-- The gaps are blank, and a word touches the next one only if the two are not
glued. -/
structure Spaced (l : Layout) : Prop where
  blank : ∀ w ∈ l.words, ∀ b ∈ Utf8.bytes w.1, isBlank b
  blankLast : ∀ b ∈ Utf8.bytes l.lastGap, isBlank b
  apart : l.words.IsChain fun w next => next.1 = "" → ¬ Glues (Utf8.bytes w.2) (Utf8.bytes next.2)

theorem spaced_iff {l : Layout} :
    l.Spaced ↔ (∀ w ∈ l.words, (Utf8.bytes w.1).all isBlank) ∧ (Utf8.bytes l.lastGap).all isBlank ∧
      l.words.IsChain fun w next => next.1 = "" → ¬ Glues (Utf8.bytes w.2) (Utf8.bytes next.2) := by
  simp only [List.all_eq_true]
  constructor
  · intro h
    exact ⟨h.blank, h.blankLast, h.apart⟩
  · rintro ⟨blank, blankLast, apart⟩
    exact ⟨blank, blankLast, apart⟩

instance (l : Layout) : Decidable l.Spaced :=
  decidable_of_iff _ spaced_iff.symm

@[simp] theorem text_nil (lastGap : String) : text ⟨[], lastGap⟩ = lastGap := rfl

@[simp] theorem text_cons (w : String × String) (words : List (String × String))
    (lastGap : String) : text ⟨w :: words, lastGap⟩ = w.1 ++ (w.2 ++ text ⟨words, lastGap⟩) := rfl

theorem getElem?_lexemes (l : Layout) (i : Nat) :
    l.lexemes[i]? = l.words[i]?.map fun w => ⟨w.2, (l.textBefore i w.1).utf8ByteSize⟩ :=
  List.getElem?_mapIdx

theorem map_text_lexemes (l : Layout) : l.lexemes.map Lexeme.text = l.words.map Prod.snd := by
  apply List.ext_getElem?
  intro i
  simp [getElem?_lexemes, Function.comp_def]

/-- A word in front moves the lexemes on by its gap and its own length. -/
theorem lexemes_cons (w : String × String) (words : List (String × String)) (lastGap : String) :
    lexemes ⟨w :: words, lastGap⟩ =
      (⟨w.2, 0⟩ :: (lexemes ⟨words, lastGap⟩).map (Lexeme.shift w.2.utf8ByteSize)).map
        (Lexeme.shift w.1.utf8ByteSize) := by
  apply List.ext_getElem?
  intro i
  cases i with
  | zero => simp [getElem?_lexemes, textBefore, Lexeme.shift]
  | succ i => simp [getElem?_lexemes, textBefore, Lexeme.shift, Function.comp_def]

end Layout

namespace PatternSet

/-! ### Scanning a layout -/

/-- A lexeme in front of a text stays a lexeme of its own exactly if it is not glued to
the text. -/
theorem scan_lexeme_append_iff {first rest : String} {ls : List Lexeme}
    (lone : typeExpression.scan first = [⟨first, 0⟩]) :
    typeExpression.scan (first ++ rest) =
        ⟨first, 0⟩ :: ls.map (Lexeme.shift first.utf8ByteSize) ↔
      typeExpression.scan rest = ls ∧ ¬ Glued first rest := by
  constructor
  · intro joined
    have mem : ⟨first, 0⟩ ∈ typeExpression.scan (first ++ rest) := by
      rw [joined]
      exact List.mem_cons_self
    obtain ⟨before, after, p, whole, size, emitted⟩ := exists_emit_of_mem_scan mem
    have empty : before = "" := String.utf8ByteSize_eq_zero_iff.mp size
    subst empty
    obtain ⟨_, rfl⟩ := Utf8.eq_of_append_eq_append (whole.trans String.empty_append) rfl
    have behind := joined.symm.trans (scan_of_emit emitted)
    have same := Lexeme.map_shift_inj.mp (List.cons.inj behind).2
    refine ⟨same.symm, not_glued_of_scan_append ?_⟩
    rw [joined, lone, same]
    rfl
  · rintro ⟨behind, apart⟩
    rw [scan_append_of_not_glued apart, lone, behind]
    rfl

/-- A lexeme is glued to a layout that is found again exactly if it touches the first
word and is glued to this one. -/
theorem glued_text_iff {first : String} {w : String × String} {words : List (String × String)}
    {lastGap : String} (lone : typeExpression.scan first = [⟨first, 0⟩])
    (found : typeExpression.scan (Layout.text ⟨w :: words, lastGap⟩) =
      Layout.lexemes ⟨w :: words, lastGap⟩) :
    Glued first (Layout.text ⟨w :: words, lastGap⟩) ↔
      w.1 = "" ∧ Glues (Utf8.bytes first) (Utf8.bytes w.2) := by
  rw [Glued, lone, found, Layout.lexemes_cons]
  simp [Lexeme.stop]

/-- A scan of a layout of lexemes with blank gaps finds each of them where it was
written, exactly if those that are glued do not touch. -/
theorem scan_text_iff {l : Layout} (lone : ∀ w ∈ l.words, typeExpression.scan w.2 = [⟨w.2, 0⟩])
    (blank : ∀ w ∈ l.words, ∀ b ∈ Utf8.bytes w.1, isBlank b)
    (blankLast : ∀ b ∈ Utf8.bytes l.lastGap, isBlank b) :
    typeExpression.scan l.text = l.lexemes ↔
      l.words.IsChain fun w next => next.1 = "" → ¬ Glues (Utf8.bytes w.2) (Utf8.bytes next.2) := by
  obtain ⟨words, lastGap⟩ := l
  have nothing : typeExpression.scan lastGap = [] := by
    have moved := scan_blanks_append skipsBlanks_typeExpression "" blankLast
    simpa using moved
  induction words with
  | nil => exact iff_of_true nothing List.IsChain.nil
  | cons w words ih =>
      obtain ⟨first, lone⟩ := List.forall_mem_cons.mp lone
      obtain ⟨blankFirst, blank⟩ := List.forall_mem_cons.mp blank
      have behind := ih lone blank blankLast
      rw [Layout.text_cons, scan_blanks_append skipsBlanks_typeExpression _ blankFirst,
        Layout.lexemes_cons, Lexeme.map_shift_inj, scan_lexeme_append_iff first]
      cases words with
      | nil =>
          refine iff_of_true ⟨nothing, ?_⟩ (List.IsChain.singleton w)
          rintro ⟨_, _, next, found, _⟩
          rw [Layout.text_nil, nothing] at found
          cases found
      | cons v words =>
          rw [List.isChain_cons_cons]
          constructor
          · rintro ⟨found, apart⟩
            rw [glued_text_iff first found, not_and] at apart
            exact ⟨apart, behind.mp found⟩
          · rintro ⟨apart, others⟩
            have found := behind.mpr others
            refine ⟨found, ?_⟩
            rw [glued_text_iff first found, not_and]
            exact apart

end PatternSet

namespace Vocabulary

/-! ### The tokens of a layout -/

theorem scan_of_mem_tokenize {v : Vocabulary} {text : String} {t : Token}
    (mem : t ∈ v.tokenize text) :
    PatternSet.typeExpression.scan t.lexeme = [⟨t.lexeme, 0⟩] := by
  obtain ⟨l, found, rfl⟩ := List.mem_map.mp mem
  exact PatternSet.scan_of_mem_scan found

/-- The lexemes of a text decide all kinds. -/
theorem map_kind_tokenize (v : Vocabulary) (text : String) :
    (v.tokenize text).map (fun t => (t.kind, t.lexeme)) =
      ((v.tokenize text).map Token.lexeme).map fun lexeme => (v.classify lexeme, lexeme) := by
  simp [tokenize, token]

/-- The tokens of a text, written down again with any spacing that keeps glued
lexemes apart, are tokens of the same kinds and lexemes, each at the offset at which
it was written. -/
theorem tokenize_respaced {v : Vocabulary} {text : String} {l : Layout} (spaced : l.Spaced)
    (words : l.words.map Prod.snd = (v.tokenize text).map Token.lexeme) :
    (v.tokenize l.text).map (fun t => (t.kind, t.lexeme)) =
        (v.tokenize text).map (fun t => (t.kind, t.lexeme)) ∧
      ∀ i t, (v.tokenize l.text)[i]? = some t →
        ∃ gap, l.words[i]? = some (gap, t.lexeme) ∧
          t.offset = (l.textBefore i gap).utf8ByteSize := by
  have lone : ∀ w ∈ l.words, PatternSet.typeExpression.scan w.2 = [⟨w.2, 0⟩] := by
    intro w mem
    have mem : w.2 ∈ (v.tokenize text).map Token.lexeme := words ▸ List.mem_map_of_mem mem
    obtain ⟨t, mem, same⟩ := List.mem_map.mp mem
    rw [← same]
    exact scan_of_mem_tokenize mem
  have tokens : v.tokenize l.text = l.lexemes.map v.token := by
    rw [tokenize, (PatternSet.scan_text_iff lone spaced.blank spaced.blankLast).mpr spaced.apart]
  constructor
  · have same : (v.tokenize l.text).map Token.lexeme = (v.tokenize text).map Token.lexeme := by
      rw [← words, ← l.map_text_lexemes, tokens]
      simp [token, Function.comp_def]
    rw [map_kind_tokenize, map_kind_tokenize, same]
  · intro i t found
    rw [tokens, List.getElem?_map, l.getElem?_lexemes, Option.map_map,
      Option.map_eq_some_iff] at found
    obtain ⟨⟨gap, word⟩, found, rfl⟩ := found
    exact ⟨gap, found, rfl⟩

/-- Five lexemes written down again with a single gap that is not empty: a `$` may
touch `thi`, and a separator that no segment follows may touch the name before it. -/
theorem tokenize_respaced_touching :
    (Layout.Spaced ⟨[("", "$"), ("", "thi"), ("\t", "é"), ("", "\\"), ("", "\\1")], "\n"⟩ ∧
      ["$", "thi", "é", "\\", "\\1"] =
        (standard.tokenize " $ thi é \\ \\1").map Token.lexeme) ∧
    (standard.tokenize "$thi\té\\\\1\n").map (fun t => (t.kind, t.lexeme)) =
      [(.unrecognized, "$"), (.pseudoType, "thi"), (.unrecognized, "é"),
        (.fullyQualifiedName, "\\"), (.fullyQualifiedName, "\\1")] := by
  have spaced :
      Layout.Spaced ⟨[("", "$"), ("", "thi"), ("\t", "é"), ("", "\\"), ("", "\\1")], "\n"⟩ := by
    decide
  have words : ["$", "thi", "é", "\\", "\\1"] =
      (standard.tokenize " $ thi é \\ \\1").map Token.lexeme := by
    decide +kernel
  refine ⟨⟨spaced, words⟩, (tokenize_respaced spaced words).1.trans ?_⟩
  decide +kernel

end Vocabulary

end TypeExprLexer

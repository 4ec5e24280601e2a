import Mathlib.Data.List.Basic
import TypeExprLexer.Proofs.Coherence
import TypeExprLexer.Proofs.Partition

/-!
What stands around a place in a text.

A stream of the tokens of a text stands between two of them, and between these the
text has only blanks: a partition leaves nothing else out
(`Lexeme.Partition.blankBetween_append`). A beginning of the text can be given exactly up
to the ends of characters, and what is inside one can be told
(`TokenStream.inputUntil_cases`). `TokenStream.standsIn_run` says both for every session
with the stream of a text.
-/

namespace TypeExprLexer

open ByteClass

/-! ### Between two lexemes -/

/-- From the one byte offset to the other a text has nothing but blanks. -/
def BlankBetween (text : String) (start stop : Nat) : Prop :=
  ∀ b ∈ ((Utf8.bytes text).take stop).drop start, isBlank b

namespace Lexeme.Partition

variable {text : String}

theorem blankBetween {lexemes : List Lexeme} (h : Partition text lexemes) {start stop : Nat}
    (outside : ∀ l ∈ lexemes, l.stop ≤ start ∨ stop ≤ l.offset) : BlankBetween text start stop := by
  intro b mem
  obtain ⟨n, found⟩ := List.mem_iff_getElem?.mp mem
  rw [List.getElem?_drop, List.getElem?_take] at found
  split at found
  · next within =>
      refine h.gaps (start + n) b found ?_
      intro l mem
      rcases outside l mem with before | behind
      · exact .inr (by omega)
      · exact .inl (by omega)
  · cases found

theorem stop_le_getLast? {lexemes : List Lexeme}
    (ordered : lexemes.Pairwise fun l m => l.stop ≤ m.offset) {l : Lexeme} (mem : l ∈ lexemes) :
    l.stop ≤ lexemes.getLast?.elim 0 Lexeme.stop := by
  rcases List.eq_nil_or_concat' lexemes with rfl | ⟨init, last, rfl⟩
  · cases mem
  · rw [List.getLast?_concat]
    rcases List.mem_append.mp mem with mem | mem
    · have before := (List.pairwise_append.mp ordered).2.2 l mem last List.mem_cons_self
      exact Nat.le_trans before (Nat.le_add_right ..)
    · rw [List.mem_singleton.mp mem]
      exact Nat.le_refl _

theorem head?_le_offset {lexemes : List Lexeme}
    (ordered : lexemes.Pairwise fun l m => l.stop ≤ m.offset) {l : Lexeme} (mem : l ∈ lexemes)
    (none : Nat) : lexemes.head?.elim none Lexeme.offset ≤ l.offset := by
  cases lexemes with
  | nil => cases mem
  | cons first others =>
      rcases List.mem_cons.mp mem with rfl | mem
      · exact Nat.le_refl _
      · exact Nat.le_trans (Nat.le_add_right ..) (List.rel_of_pairwise_cons ordered mem)

/-- Between the lexemes of a beginning and those that follow there are only blanks;
the ends of the text count where there are none. -/
theorem blankBetween_append {front back : List Lexeme} (h : Partition text (front ++ back)) :
    BlankBetween text (front.getLast?.elim 0 Lexeme.stop)
      (back.head?.elim text.utf8ByteSize Lexeme.offset) := by
  obtain ⟨ordered, ordered', _⟩ := List.pairwise_append.mp h.ordered
  apply h.blankBetween
  intro l mem
  rcases List.mem_append.mp mem with mem | mem
  · exact .inl (stop_le_getLast? ordered mem)
  · exact .inr (head?_le_offset ordered' mem _)

end Lexeme.Partition

namespace Vocabulary

theorem pairwise_tokenize (v : Vocabulary) (text : String) :
    (v.tokenize text).Pairwise fun t u => t.stop ≤ u.offset :=
  List.pairwise_map.mpr (PatternSet.pairwise_scan PatternSet.typeExpression text)

/-- No token of a text is there twice. -/
theorem nodup_tokenize (v : Vocabulary) (text : String) : (v.tokenize text).Nodup := by
  apply (v.pairwise_tokenize text).imp_of_mem
  rintro t _ mem _ ordered rfl
  obtain ⟨l, found, rfl⟩ := List.mem_map.mp mem
  have nonempty := (PatternSet.partition_scan PatternSet.typeExpression text).nonempty l found
  exact absurd ordered (Nat.not_le.mpr (Nat.lt_add_of_pos_right (Utf8.utf8ByteSize_pos nonempty)))

/-- Between the tokens before a place and those from it on there are only blanks. -/
theorem blankBetween_tokenize (v : Vocabulary) (text : String) (i : Nat) :
    BlankBetween text (((v.tokenize text).take i).getLast?.elim 0 Token.stop)
      (((v.tokenize text).drop i).head?.elim text.utf8ByteSize Token.offset) := by
  have partition := PatternSet.partition_scan PatternSet.typeExpression text
  rw [← List.take_append_drop i (PatternSet.typeExpression.scan text)] at partition
  have between := partition.blankBetween_append
  rw [tokenize, ← List.map_take, ← List.map_drop, List.getLast?_map, List.head?_map,
    Option.elim_map, Option.elim_map]
  exact between

end Vocabulary

namespace TokenStream

/-! ### The stream of a text -/

theorem lookahead_eq_head? (s : TokenStream) :
    s.lookahead = (s.tokens.toList.drop s.position).head? := by
  rw [lookahead, List.head?_drop, Array.getElem?_toList]

/-- The token consumed last is the last one in front of the lookahead. -/
theorem Coherent.getLast?_of_token {s : TokenStream} (h : s.Coherent) {t : Token}
    (current : s.token = some t) : (s.tokens.toList.take s.position).getLast? = some t := by
  obtain ⟨i, consumed, _⟩ := Option.bind_eq_some_iff.mp current
  obtain ⟨u, found, current'⟩ := h.token_of_consumed consumed
  cases current.symm.trans current'
  rw [List.getLast?_take, if_neg, Array.getElem?_toList, found]
  · rfl
  · rw [← h.consumed_succ i consumed]
    exact Nat.succ_ne_zero i

/-- No token is current and one is ahead only at the start. -/
theorem Coherent.position_of_token_eq_none {s : TokenStream} (h : s.Coherent) {t : Token}
    (absent : s.token = none) (ahead : s.lookahead = some t) : s.position = 0 := by
  cases consumed : s.consumed with
  | none =>
      obtain ⟨within, _⟩ := lookahead_eq_some_iff.mp ahead
      exact (h.position_of_none consumed).resolve_right (Nat.ne_of_lt within)
  | some i =>
      obtain ⟨u, _, current⟩ := h.token_of_consumed consumed
      cases absent.symm.trans current

/-- Between the token in front of the lookahead and the lookahead there are only
blanks. -/
theorem blankBetween_lookahead {s : TokenStream} {v : Vocabulary}
    (tokens : s.tokens = (v.tokenize s.input).toArray) :
    BlankBetween s.input ((s.tokens.toList.take s.position).getLast?.elim 0 Token.stop)
      (s.lookahead.elim s.input.utf8ByteSize Token.offset) := by
  rw [lookahead_eq_head?, tokens]
  exact v.blankBetween_tokenize s.input s.position

/-- The current token ends where the lookahead begins or before. -/
theorem Coherent.stop_le_offset {s : TokenStream} {v : Vocabulary} (h : s.Coherent)
    (tokens : s.tokens = (v.tokenize s.input).toArray) {t l : Token} (current : s.token = some t)
    (ahead : s.lookahead = some l) : t.stop ≤ l.offset := by
  have ordered : s.tokens.toList.Pairwise fun t u => t.stop ≤ u.offset := by
    rw [tokens]
    exact v.pairwise_tokenize s.input
  rw [← List.take_append_drop s.position s.tokens.toList] at ordered
  rw [lookahead_eq_head?] at ahead
  have last := List.mem_of_getLast? (h.getLast?_of_token current)
  exact (List.pairwise_append.mp ordered).2.2 t last l (List.mem_of_head? ahead)

/-! ### The input before an offset -/

section Prefix

variable {s : TokenStream}

theorem inputUntil_of_lt {n : Nat} (beyond : s.input.utf8ByteSize < n) :
    s.inputUntil n = .error (.offsetOutOfBounds n s.input.utf8ByteSize) :=
  if_pos beyond

theorem inputUntil_append {part rest : String} (split : s.input = part ++ rest) :
    s.inputUntil part.utf8ByteSize = .ok part := by
  have cut : Utf8.slice? s.input 0 part.utf8ByteSize = some part :=
    Utf8.slice?_eq_some_iff.mpr ⟨"", rest, by rw [String.empty_append, split], rfl, Nat.zero_add _⟩
  have within : ¬ part.utf8ByteSize > s.input.utf8ByteSize := by
    rw [split, String.utf8ByteSize_append]
    omega
  rw [inputUntil, if_neg within, cut]

theorem inputUntil_of_isInside {n : Nat} (within : n ≤ s.input.utf8ByteSize)
    (inside : Utf8.IsInside s.input.toList n) : s.inputUntil n = .error (.insideCharacter n) := by
  rw [inputUntil, if_neg (Nat.not_lt.mpr within)]
  cases cut : Utf8.slice? s.input 0 n with
  | none => rfl
  | some part =>
      obtain ⟨before, after, split, empty, size⟩ := Utf8.slice?_eq_some_iff.mp cut
      have whole : s.input = part ++ after := by
        rw [split, String.utf8ByteSize_eq_zero_iff.mp empty, String.empty_append]
      obtain rfl : part.utf8ByteSize = n := (Nat.zero_add _).symm.trans size
      exact absurd inside (Utf8.not_isInside_of_isBoundary (Utf8.isBoundary_of_eq_append whole))

/-- The three answers, and when each is given. -/
theorem inputUntil_cases (s : TokenStream) (n : Nat) :
    (s.input.utf8ByteSize < n ∧
        s.inputUntil n = .error (.offsetOutOfBounds n s.input.utf8ByteSize)) ∨
      (n ≤ s.input.utf8ByteSize ∧ Utf8.IsInside s.input.toList n ∧
        s.inputUntil n = .error (.insideCharacter n)) ∨
      (n ≤ s.input.utf8ByteSize ∧ ¬ Utf8.IsInside s.input.toList n ∧
        ∃ part, s.inputUntil n = .ok part ∧ Utf8.bytes part = (Utf8.bytes s.input).take n) := by
  rcases Nat.lt_or_ge s.input.utf8ByteSize n with beyond | within
  · exact .inl ⟨beyond, inputUntil_of_lt beyond⟩
  · by_cases inside : Utf8.IsInside s.input.toList n
    · exact .inr (.inl ⟨within, inside, inputUntil_of_isInside within inside⟩)
    · have within' : n ≤ (Utf8.encode s.input.toList).length := by
        rwa [Utf8.length_encode_toList]
      have boundary := (Utf8.isBoundary_iff_not_isInside within').mpr inside
      obtain ⟨part, rest, split, rfl⟩ := boundary.exists_append
      refine .inr (.inr ⟨within, inside, part, inputUntil_append split, ?_⟩)
      rw [split, Utf8.bytes_append, ← Utf8.length_bytes, List.take_left]

theorem inputUntil_eq_offsetOutOfBounds_iff {n : Nat} :
    s.inputUntil n = .error (.offsetOutOfBounds n s.input.utf8ByteSize) ↔
      s.input.utf8ByteSize < n := by
  rcases s.inputUntil_cases n with ⟨beyond, answer⟩ | ⟨within, _, answer⟩ | ⟨within, _, _, answer, _⟩
  · exact iff_of_true answer beyond
  · exact iff_of_false (by simp [answer]) (Nat.not_lt.mpr within)
  · exact iff_of_false (by simp [answer]) (Nat.not_lt.mpr within)

theorem inputUntil_eq_insideCharacter_iff {n : Nat} :
    s.inputUntil n = .error (.insideCharacter n) ↔
      n ≤ s.input.utf8ByteSize ∧ Utf8.IsInside s.input.toList n := by
  rcases s.inputUntil_cases n with ⟨beyond, answer⟩ | ⟨within, inside, answer⟩ |
    ⟨_, outside, _, answer, _⟩
  · exact iff_of_false (by simp [answer]) fun h => Nat.not_le.mpr beyond h.1
  · exact iff_of_true answer ⟨within, inside⟩
  · exact iff_of_false (by simp [answer]) fun h => outside h.2

theorem exists_inputUntil_of_not_isInside {n : Nat} (within : n ≤ s.input.utf8ByteSize)
    (outside : ¬ Utf8.IsInside s.input.toList n) :
    ∃ part, s.inputUntil n = .ok part ∧ Utf8.bytes part = (Utf8.bytes s.input).take n := by
  rcases s.inputUntil_cases n with ⟨beyond, _⟩ | ⟨_, inside, _⟩ | ⟨_, _, found⟩
  · exact absurd within (Nat.not_le.mpr beyond)
  · exact absurd inside outside
  · exact found

/-- The input before a token and the input up to its end differ by its lexeme. -/
theorem exists_inputUntil_of_mem_tokenize {v : Vocabulary} {t : Token}
    (mem : t ∈ v.tokenize s.input) :
    ∃ before, s.inputUntil t.offset = .ok before ∧ s.inputUntil t.stop = .ok (before ++ t.lexeme) := by
  obtain ⟨l, found, rfl⟩ := List.mem_map.mp mem
  obtain ⟨before, after, _, split, size, _⟩ := PatternSet.exists_emit_of_mem_scan found
  refine ⟨before, ?_, ?_⟩
  · have front := inputUntil_append split
    rwa [size] at front
  · have split : s.input = before ++ l.text ++ after := by
      rw [split, String.append_assoc]
    have upTo := inputUntil_append split
    rwa [String.utf8ByteSize_append, size] at upTo

end Prefix

/-- How a stream stands in the text of its tokens. -/
structure StandsIn (text : String) (s : TokenStream) : Prop where
  /-- The current token and the lookahead have only blanks between them. -/
  between : ∀ t l, s.token = some t → s.lookahead = some l →
    t.stop ≤ l.offset ∧ BlankBetween text t.stop l.offset
  /-- With no lookahead the text goes on with blanks only. -/
  behind : ∀ t, s.token = some t → s.lookahead = none →
    BlankBetween text t.stop text.utf8ByteSize
  /-- With no current token the stream is at its start or has no lookahead. -/
  before : ∀ l, s.token = none → s.lookahead = some l →
    s.position = 0 ∧ BlankBetween text 0 l.offset
  /-- The input up to the end of a token is the input before it and its lexeme. -/
  upTo : ∀ t ∈ s.tokens, ∃ before,
    s.inputUntil t.offset = .ok before ∧ s.inputUntil t.stop = .ok (before ++ t.lexeme)
  beyond : ∀ n, s.inputUntil n = .error (.offsetOutOfBounds n text.utf8ByteSize) ↔
    text.utf8ByteSize < n
  inside : ∀ n, s.inputUntil n = .error (.insideCharacter n) ↔
    n ≤ text.utf8ByteSize ∧ Utf8.IsInside text.toList n
  first : ∀ n, n ≤ text.utf8ByteSize → ¬ Utf8.IsInside text.toList n →
    ∃ part, s.inputUntil n = .ok part ∧ Utf8.bytes part = (Utf8.bytes text).take n

/-- Where its places are tied to one another, a stream of the tokens of its input
stands in its input. -/
theorem Coherent.standsIn {s : TokenStream} {v : Vocabulary} (h : s.Coherent)
    (tokens : s.tokens = (v.tokenize s.input).toArray) : StandsIn s.input s where
  between t l current ahead := by
    have gap := blankBetween_lookahead tokens
    rw [h.getLast?_of_token current, ahead] at gap
    exact ⟨h.stop_le_offset tokens current ahead, gap⟩
  behind t current ended := by
    have gap := blankBetween_lookahead tokens
    rwa [h.getLast?_of_token current, ended] at gap
  before l absent ahead := by
    have start := h.position_of_token_eq_none absent ahead
    have gap := blankBetween_lookahead tokens
    rw [start, ahead] at gap
    exact ⟨start, gap⟩
  upTo t mem := by
    rw [tokens] at mem
    exact exists_inputUntil_of_mem_tokenize (List.mem_toArray.mp mem)
  beyond _ := inputUntil_eq_offsetOutOfBounds_iff
  inside _ := inputUntil_eq_insideCharacter_iff
  first _ := exists_inputUntil_of_not_isInside

/-- In every session the stream of a text stands in the text. -/
theorem standsIn_run (v : Vocabulary) (text : String) (session : List Operation) :
    StandsIn text ((ofText v text).run session) := by
  have coherent : ((ofText v text).run session).Coherent := (coherent_ofTokens _ _).run session
  have input : ((ofText v text).run session).input = text := input_run _ session
  have tokens : ((ofText v text).run session).tokens = (v.tokenize text).toArray :=
    tokens_run _ session
  generalize (ofText v text).run session = s at coherent input tokens
  subst input
  exact coherent.standsIn tokens

end TokenStream

end TypeExprLexer

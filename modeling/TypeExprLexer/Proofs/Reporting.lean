import Mathlib.Data.List.Induction
import TypeExprLexer.Navigation
import TypeExprLexer.Proofs.Glue
import TypeExprLexer.Report

/-!
What is reported and what is returned.

A report is made while a text is scanned and walked, and yet it can be told from the
tokens alone (`Report.told`): the pattern that took a lexeme shows in the lexeme
(`PatternSet.pattern_of_mem_catches`), and the position after a move is the number of
moves, at most the number of tokens (`Report.records_moves`). The operations that report
have the results of those that do not (`Report.collect_eq`, `Report.session_eq`).

What readers receive of it hangs on the tracing alone. One that delivers record by record
has delivered, in the end, what the reader's level accepts
(`Tracing.Delivers.received_eq_filter`). `Report.received_eq_told` puts this together for
readers of every level.
-/

namespace TypeExprLexer

open ByteClass Pattern

/-! ### The pattern of a lexeme -/

namespace Pattern

/-- The pattern that takes a lexeme of a type expression, read off the lexeme. -/
def ofLexeme (text : String) : Pattern :=
  if (Utf8.bytes text).map toLower = thisBytes then .thisVariable
  else if IsNameLike (Utf8.bytes text) then .name
  else .anyChar

theorem ofLexeme_ne_blanks (text : String) : ofLexeme text ≠ .blanks := by
  unfold ofLexeme
  split
  · nofun
  · split
    · nofun
    · nofun

end Pattern

namespace PatternSet

theorem pattern_of_step_emit {part rest : String} {p : Option Pattern}
    (emitted : typeExpression.step (Utf8.bytes (part ++ rest)) = .emit part.utf8ByteSize p) :
    p = some (.ofLexeme part) := by
  obtain ⟨b, bs, bytes⟩ :=
    List.exists_cons_of_ne_nil (mt Utf8.bytes_eq_nil_iff.mp (ne_empty_of_step_emit emitted))
  have named : IsNameLike (b :: bs) ↔ isNameStart b ∨ b = separator := by simp [IsNameLike]
  rw [← Utf8.length_bytes part, Utf8.bytes_append, bytes, List.cons_append,
    step_typeExpression_cons] at emitted
  by_cases this : BeginsThis (b :: (bs ++ Utf8.bytes rest))
  · rw [if_pos this] at emitted
    obtain ⟨size, rfl⟩ := Step.emit.inj emitted
    have size : thisBytes.length = (b :: bs).length := size
    have spelled : (Utf8.bytes part).map toLower = thisBytes := by
      rw [bytes, map_toLower_eq_thisBytes_iff]
      rw [BeginsThis, ← List.cons_append, List.take_append_of_le_length (Nat.le_of_eq size)] at this
      exact ⟨size.symm, this⟩
    rw [ofLexeme, if_pos spelled]
  · have unspelled : ¬ (Utf8.bytes part).map toLower = thisBytes := by
      intro spelled
      rw [bytes] at spelled
      exact this ((map_toLower_eq_thisBytes_iff.mp spelled).2.append _)
    rw [if_neg this] at emitted
    rw [ofLexeme, if_neg unspelled, bytes]
    by_cases start : isNameStart b ∨ b = separator
    · rw [if_pos start] at emitted
      rw [if_pos (named.mpr start), (Step.emit.inj emitted).2]
    · rw [if_neg start] at emitted
      rw [if_neg (mt named.mp start)]
      split at emitted
      · cases emitted
      · exact (Step.emit.inj emitted).2.symm

/-- Every lexeme of a type expression was taken by the pattern that shows in it. -/
theorem pattern_of_mem_catches {text : String} {c : Catch}
    (mem : c ∈ typeExpression.catches text) : c.pattern = some (.ofLexeme c.lexeme.text) := by
  obtain ⟨_, _, _, _, emitted⟩ := exists_emit_of_mem_catches mem
  exact pattern_of_step_emit emitted

end PatternSet

/-! ### Records told from tokens -/

namespace Record

/-- The record of the lexeme that a token was made of. -/
def ofToken (t : Token) : Record :=
  lexemeCut t.offset t.lexeme (some (.ofLexeme t.lexeme))

end Record

/-! ### What the operations report -/

namespace Report

/-- The report of tokenizing a text and moving through it, told from its tokens. -/
def told (v : Vocabulary) (text : String) (moves : Nat) : List Record :=
  [.spanMade text.utf8ByteSize, .spanEntered] ++ (v.tokenize text).map .ofToken ++
    [.textTokenized (v.tokenize text).length, .spanLeft] ++
      (List.range moves).map fun i => .streamMoved (min (i + 1) (v.tokenize text).length)

/-- A lexeme is reported if there is one, and nothing else is. -/
theorem records_nextLexeme (P : PatternSet) (c : Cursor) :
    (nextLexeme P c).records = ((P.nextLexeme c).1.map Record.ofCatch).toList := by
  rw [nextLexeme]
  split
  · next ended => simp [ended]
  · next more => simp [more]

theorem records_nextToken (s : TokenSource) :
    (nextToken s).records =
      ((PatternSet.typeExpression.nextLexeme s.cursor).1.map Record.ofCatch).toList := by
  simp [nextToken, records_nextLexeme]

/-- Collecting gives the tokens that remain and reports a lexeme for each of them. -/
theorem collect_eq (s : TokenSource) :
    (collect s).result = s.remaining ∧
      (collect s).records =
        (PatternSet.typeExpression.catchesFrom s.cursor).map Record.ofCatch := by
  fun_induction collect s with
  | case1 s behind records taken =>
      have next : s.next = (none, behind) :=
        (result_nextToken s).symm.trans (congrArg Reported.result taken)
      have ended : (PatternSet.typeExpression.nextLexeme s.cursor).1 = none := by
        simpa [TokenSource.next] using congrArg Prod.fst next
      have noMore := PatternSet.catchesFrom_of_next?_eq_none
        (PatternSet.next?_eq_none_iff.mpr ended)
      have made : records = [] := by
        simpa [taken, ended] using records_nextToken s
      simp [TokenSource.remaining, noMore, made]
  | case2 s token further records taken _ others ih =>
      have next : s.next = (some token, further) :=
        (result_nextToken s).symm.trans (congrArg Reported.result taken)
      obtain ⟨l, found, rfl, same⟩ := TokenSource.exists_next?_of_next next
      have made : records = [.ofCatch l] := by
        simpa [taken, PatternSet.next?_eq_some_iff.mp found] using records_nextToken s
      obtain ⟨tokens, reported⟩ := ih
      have all := PatternSet.catchesFrom_of_next?_eq_some found
      constructor
      · show _ :: (collect further).result = _
        rw [tokens, TokenSource.remaining, TokenSource.remaining, all, same, List.map_cons]
      · show records ++ (collect further).records = _
        rw [reported, made, all, List.map_cons, List.singleton_append]

theorem map_ofCatch_catches (v : Vocabulary) (text : String) :
    (PatternSet.typeExpression.catches text).map Record.ofCatch =
      (v.tokenize text).map .ofToken := by
  rw [Vocabulary.tokenize, PatternSet.scan, List.map_map, List.map_map, List.map_inj_left]
  intro c mem
  rw [Record.ofCatch, PatternSet.pattern_of_mem_catches mem]
  rfl

/-- Tokenizing gives the tokens, and reports what they tell. -/
theorem tokenize_eq (v : Vocabulary) (text : String) :
    (tokenize v text).result = v.tokenize text ∧
      (tokenize v text).records =
        [.spanMade text.utf8ByteSize, .spanEntered] ++ (v.tokenize text).map .ofToken ++
          [.textTokenized (v.tokenize text).length, .spanLeft] := by
  obtain ⟨tokens, cut⟩ := collect_eq (.ofText v text)
  rw [TokenSource.remaining_ofText] at tokens
  replace cut : (collect (.ofText v text)).records = (v.tokenize text).map .ofToken :=
    cut.trans (map_ofCatch_catches v text)
  simp [tokenize, inSpan, tokens, cut]

/-! ### Moves -/

/-- Reporting them does not change where moves lead. -/
theorem result_moves (s : TokenStream) (n : Nat) :
    (moves s n).result = s.run (List.replicate n .moveNext) := by
  induction n generalizing s with
  | zero => rfl
  | succ n ih =>
      rw [moves, Reported.result_bind, result_moveNext]
      exact ih s.advance

/-- Each move goes one token on, up to the end. -/
theorem records_moves {s : TokenStream} (within : s.position ≤ s.size) (n : Nat) :
    (moves s n).records =
      (List.range n).map fun i => .streamMoved (min (s.position + (i + 1)) s.size) := by
  induction n generalizing s with
  | zero => rfl
  | succ n ih =>
      have size : s.advance.size = s.size := s.size_apply .moveNext
      have place := TokenStream.position_advance_eq_min within
      have further := ih (TokenStream.position_advance_le_size within)
      rw [place, size] at further
      rw [moves, Reported.records_bind, records_moveNext, place, List.range_succ_eq_map,
        List.map_cons, List.map_map]
      refine congrArg (_ :: ·) (further.trans ?_)
      apply List.map_congr_left
      intro i _
      -- Once at the end both sides are there.
      have same : min (min (s.position + 1) s.size + (i + 1)) s.size =
          min (s.position + (i + 1 + 1)) s.size := by
        omega
      exact congrArg Record.streamMoved same

/-- A session leads where its moves lead, and reports what its tokens tell. -/
theorem session_eq (v : Vocabulary) (text : String) (n : Nat) :
    (session v text n).result = (TokenStream.ofText v text).run (List.replicate n .moveNext) ∧
      (session v text n).records = told v text n := by
  obtain ⟨tokens, report⟩ := tokenize_eq v text
  have opened : (stream v text).result = .ofText v text := by
    simp [stream, tokens, TokenStream.ofText]
  have size : (TokenStream.ofText v text).size = (v.tokenize text).length := rfl
  constructor
  · rw [session, Reported.result_bind, result_moves, opened]
  · have start : (stream v text).records = (tokenize v text).records := by simp [stream]
    rw [session, Reported.records_bind, start, report, opened, records_moves (Nat.zero_le _), size,
      told]
    simp [TokenStream.ofText, TokenStream.ofTokens]

/-- No token is told to come from `blanks`, or from no pattern at all. -/
theorem pattern_of_lexemeCut_mem_told {v : Vocabulary} {text lexeme : String}
    {moves offset : Nat} {pattern : Option Pattern}
    (mem : .lexemeCut offset lexeme pattern ∈ told v text moves) :
    pattern ≠ none ∧ pattern ≠ some .blanks := by
  have cut : ∃ t ∈ v.tokenize text, Record.ofToken t = .lexemeCut offset lexeme pattern := by
    simpa [told] using mem
  obtain ⟨t, _, same⟩ := cut
  cases same
  exact ⟨nofun, fun blank => ofLexeme_ne_blanks _ (Option.some.inj blank)⟩

/-- The number of tokens is told to those who debug, everything else to those who trace. -/
theorem level_of_mem_told {v : Vocabulary} {text : String} {n : Nat} {r : Record}
    (mem : r ∈ told v text n) :
    r.level = if r = .textTokenized (v.tokenize text).length then .debug else .trace := by
  simp only [told, List.mem_append, List.mem_cons, List.mem_map, List.not_mem_nil, or_false] at mem
  rcases mem with (((rfl | rfl) | ⟨t, _, rfl⟩) | (rfl | rfl)) | ⟨i, _, rfl⟩
  · rfl
  · rfl
  · rfl
  · rw [if_pos rfl, Record.level]
  · rfl
  · rfl

/-- Without the traces there is the number of tokens at most. -/
theorem filter_told {accepts : Level → Bool} (quiet : ¬ accepts .trace) (v : Vocabulary)
    (text : String) (n : Nat) :
    (told v text n).filter (fun r => accepts r.level) =
      if accepts .debug then [.textTokenized (v.tokenize text).length] else [] := by
  have unseen {records : List Record} (traces : ∀ r ∈ records, r.level = .trace) :
      records.filter (fun r => accepts r.level) = [] := by
    rw [List.filter_eq_nil_iff]
    intro r mem
    rwa [traces r mem]
  have lexemes : ∀ r ∈ (v.tokenize text).map Record.ofToken, r.level = .trace :=
    List.forall_mem_map.mpr fun _ _ => rfl
  have moved : ∀ r ∈ (List.range n).map fun i =>
      Record.streamMoved (min (i + 1) (v.tokenize text).length), r.level = .trace :=
    List.forall_mem_map.mpr fun _ _ => rfl
  rw [told, List.filter_append, List.filter_append, List.filter_append, unseen lexemes,
    unseen moved]
  simp [Record.level, quiet, List.filter_cons]

end Report

/-! ### What readers receive -/

/-- What is delivered one by one is, in the end, all that the reader's level accepts. -/
theorem Tracing.Delivers.received_eq_filter {tracing : Tracing} (delivers : tracing.Delivers)
    (reader : Level) (made : List Record) :
    tracing.received reader made = made.filter fun r => tracing.accepts reader r.level := by
  induction made using List.reverseRecOn with
  | nil => exact delivers.received_nil reader
  | append_singleton made r ih =>
      rw [List.filter_append, List.filter_cons, List.filter_nil]
      by_cases accepted : tracing.accepts reader r.level
      · rw [delivers.received_accepted accepted, ih, if_pos accepted]
      · rw [delivers.received_refused accepted, ih, if_neg accepted, List.append_nil]

namespace Report

/-- What is reported agrees with what is returned: a session leads where its moves lead, and a
reader who traces receives the whole report that its tokens tell. In it each lexeme was taken by a
pattern and none by `blanks`, and nothing but the number of tokens is above the traces; so that is
all a reader who debugs receives, and the readers above receive nothing. -/
theorem received_eq_told {tracing : Tracing} (delivers : tracing.Delivers) (v : Vocabulary)
    (text : String) (n : Nat) :
    (session v text n).result = (TokenStream.ofText v text).run (List.replicate n .moveNext) ∧
      tracing.received .trace (session v text n).records = told v text n ∧
      (∀ offset lexeme pattern, .lexemeCut offset lexeme pattern ∈ told v text n →
        pattern ≠ none ∧ pattern ≠ some .blanks) ∧
      (∀ r ∈ told v text n,
        r.level = if r = .textTokenized (v.tokenize text).length then .debug else .trace) ∧
      (∀ reader, tracing.received reader (session v text n).records =
        (told v text n).filter fun r => tracing.accepts reader r.level) ∧
      tracing.received .debug (session v text n).records =
        [.textTokenized (v.tokenize text).length] ∧
      tracing.received .info (session v text n).records = [] := by
  obtain ⟨led, made⟩ := session_eq v text n
  have received : ∀ reader, tracing.received reader (session v text n).records =
      (told v text n).filter fun r => tracing.accepts reader r.level := by
    intro reader
    rw [delivers.received_eq_filter, made]
  refine ⟨led, ?_, fun _ _ _ => pattern_of_lexemeCut_mem_told, fun _ => level_of_mem_told,
    received, ?_, ?_⟩
  · rw [received, List.filter_eq_self]
    exact fun r _ => delivers.accepts_trace r.level
  · have quiet : ¬ tracing.accepts .debug .trace := mt (delivers.accepts_debug _).mp (· rfl)
    have debug : tracing.accepts .debug .debug := (delivers.accepts_debug _).mpr nofun
    rw [received, filter_told quiet, if_pos debug]
  · have quiet : ¬ tracing.accepts .info .trace := mt (delivers.accepts_info _).mp nofun
    have debug : ¬ tracing.accepts .info .debug := mt (delivers.accepts_info _).mp nofun
    rw [received, filter_told quiet, if_neg debug]

/-- For the readers of `Tracing.bySeverity`, with moves past the end. -/
theorem received_eq_told_bySeverity :
    Tracing.bySeverity.Delivers ∧
      seen .trace .standard "$This |é" 4 =
        [.spanMade 9, .spanEntered, .lexemeCut 0 "$This" (some .thisVariable),
          .lexemeCut 6 "|" (some .anyChar), .lexemeCut 7 "é" (some .name), .textTokenized 3,
          .spanLeft, .streamMoved 1, .streamMoved 2, .streamMoved 3, .streamMoved 3] ∧
      seen .debug .standard "$This |é" 4 = [.textTokenized 3] ∧
      seen .info .standard "$This |é" 4 = [] := by
  obtain ⟨_, all, _, _, _, debug, info⟩ :=
    received_eq_told Tracing.delivers_bySeverity .standard "$This |é" 4
  refine ⟨Tracing.delivers_bySeverity, all.trans ?_, debug.trans ?_, info⟩
  · decide +kernel
  · decide +kernel

end Report

end TypeExprLexer

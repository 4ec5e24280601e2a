import TypeExprLexer.TokenSource
import TypeExprLexer.TokenStream

/-!
What the program reports while it works.

An operation that reports gives its result together with the records it made, in their order
(`Reported`). Tokenizing is a span: it is made with the length of the text, entered, and left when
the tokens are there. Inside it every lexeme is reported as it is cut, and at the end the number of
tokens. Every move reports the position it reached. The results are those of the operations that
report nothing.

How a record comes to its readers is not decided here. A `Tracing` stands between them, and all
that is assumed of it is `Tracing.Delivers`. `Tracing.bySeverity` is one for which that is true,
and `Report.seen` is what its readers see.
-/

namespace TypeExprLexer

/-- How severe a record is. -/
inductive Level where
  | trace
  | debug
  | info
deriving DecidableEq, Repr

/-- One thing that is reported. -/
inductive Record where
  /-- The span of tokenizing a text of the given length in bytes is made. -/
  | spanMade (length : Nat)
  | spanEntered
  | spanLeft
  | lexemeCut (offset : Nat) (text : String) (pattern : Option Pattern)
  | textTokenized (count : Nat)
  | streamMoved (position : Nat)
deriving DecidableEq, Repr

namespace Record

/-- The level of a record. A span's records share the level of the span. -/
def level : Record → Level
  | textTokenized _ => .debug
  | _ => .trace

/-- The wording of a record that is an event. -/
def message? : Record → Option String
  | lexemeCut .. => some "lexeme"
  | textTokenized _ => some "tokenized type expression"
  | streamMoved _ => some "move_next"
  | _ => none

/-- The record of a lexeme. -/
def ofCatch (c : Catch) : Record :=
  lexemeCut c.lexeme.offset c.lexeme.text c.pattern

end Record

/-! ### Results with records -/

/-- A result and the records made on the way to it, first to last. -/
structure Reported (α : Type) where
  result : α
  records : List Record

namespace Reported

variable {α β : Type}

instance : Monad Reported where
  pure a := ⟨a, []⟩
  bind x f := ⟨(f x.result).result, x.records ++ (f x.result).records⟩

@[simp] theorem result_pure (a : α) : (pure a : Reported α).result = a := rfl

@[simp] theorem records_pure (a : α) : (pure a : Reported α).records = [] := rfl

@[simp] theorem result_bind (x : Reported α) (f : α → Reported β) :
    (x >>= f).result = (f x.result).result := rfl

@[simp] theorem records_bind (x : Reported α) (f : α → Reported β) :
    (x >>= f).records = x.records ++ (f x.result).records := rfl

end Reported

namespace Report

/-- Makes one record. -/
def record (r : Record) : Reported Unit :=
  ⟨(), [r]⟩

@[simp] theorem records_record (r : Record) : (record r).records = [r] := rfl

/-- Work inside the span of tokenizing a text of the given length. -/
def inSpan {α : Type} (length : Nat) (work : Reported α) : Reported α := do
  record (.spanMade length)
  record .spanEntered
  let result ← work
  record .spanLeft
  return result

/-! ### Tokenizing -/

/-- The next lexeme at a cursor, reported as it is cut. -/
def nextLexeme (P : PatternSet) (c : Cursor) : Reported (Option Catch × Cursor) :=
  match P.nextLexeme c with
  | (none, behind) => pure (none, behind)
  | (some caught, behind) => do
      record (.ofCatch caught)
      return (some caught, behind)

theorem result_nextLexeme (P : PatternSet) (c : Cursor) :
    (nextLexeme P c).result = P.nextLexeme c := by
  rw [nextLexeme]
  split
  · next ended => exact ended.symm
  · next more => exact more.symm

/-- The next token of a source. -/
def nextToken (s : TokenSource) : Reported (Option Token × TokenSource) := do
  let (caught, cursor) ← nextLexeme .typeExpression s.cursor
  return (caught.map fun c => s.vocabulary.token c.lexeme, { s with cursor })

theorem result_nextToken (s : TokenSource) : (nextToken s).result = s.next := by
  simp [nextToken, TokenSource.next, result_nextLexeme]

/-- All tokens that a source still has. -/
def collect (s : TokenSource) : Reported (List Token) :=
  match taken : nextToken s with
  | ⟨(none, _), records⟩ => ⟨[], records⟩
  | ⟨(some token, further), records⟩ =>
      have := TokenSource.rest_next_lt
        ((result_nextToken s).symm.trans (congrArg Reported.result taken))
      let others := collect further
      ⟨token :: others.result, records ++ others.records⟩
termination_by s.cursor.rest.length
decreasing_by exact this

/-- The tokens of a text. -/
def tokenize (v : Vocabulary) (text : String) : Reported (List Token) :=
  inSpan text.utf8ByteSize do
    let tokens ← collect (.ofText v text)
    record (.textTokenized tokens.length)
    return tokens

/-- The stream in front of the first token of a text. -/
def stream (v : Vocabulary) (text : String) : Reported TokenStream := do
  let tokens ← tokenize v text
  return .ofTokens text tokens.toArray

/-! ### Moving -/

/-- Consumes the lookahead and tells whether there is a further one. -/
def moveNext (s : TokenStream) : Reported (Bool × TokenStream) := do
  let (more, moved) := s.moveNext
  record (.streamMoved moved.position)
  return (more, moved)

@[simp] theorem result_moveNext (s : TokenStream) : (moveNext s).result = s.moveNext := rfl

@[simp] theorem records_moveNext (s : TokenStream) :
    (moveNext s).records = [.streamMoved s.advance.position] := rfl

/-- The stream after a number of moves. -/
def moves (s : TokenStream) : Nat → Reported TokenStream
  | 0 => pure s
  | n + 1 => do
      let (_, moved) ← moveNext s
      moves moved n

/-- The stream of a text, and a number of moves through it. -/
def session (v : Vocabulary) (text : String) (n : Nat) : Reported TokenStream := do
  let s ← stream v text
  moves s n

end Report

/-! ### Readers -/

/-- What takes the records as they are made and hands them to readers, each of a level. -/
structure Tracing where
  /-- Whether a reader of the first level is to see records of the second. -/
  accepts : Level → Level → Bool
  /-- What a reader of the level has received after the records were made. -/
  received : Level → List Record → List Record

/-- What is assumed of a tracing: how the levels are ordered, and that a record which is made is
delivered behind the earlier ones if its level is accepted, and else passed over. What happens to
a record is settled when it is made; the later ones have no part in it. -/
structure Tracing.Delivers (tracing : Tracing) : Prop where
  accepts_trace : ∀ level, tracing.accepts .trace level
  accepts_debug : ∀ level, tracing.accepts .debug level ↔ level ≠ .trace
  accepts_info : ∀ level, tracing.accepts .info level ↔ level = .info
  received_nil : ∀ reader, tracing.received reader [] = []
  received_accepted : ∀ {reader made r}, tracing.accepts reader r.level →
    tracing.received reader (made ++ [r]) = tracing.received reader made ++ [r]
  received_refused : ∀ {reader made r}, ¬ tracing.accepts reader r.level →
    tracing.received reader (made ++ [r]) = tracing.received reader made

/-- The rank of a level, higher for the more severe. -/
def Level.severity : Level → Nat
  | trace => 0
  | debug => 1
  | info => 2

/-- The tracing whose readers receive the records of their level and of the more severe ones. -/
def Tracing.bySeverity : Tracing where
  accepts reader level := reader.severity ≤ level.severity
  received reader made := made.filter fun r => reader.severity ≤ r.level.severity

theorem Tracing.delivers_bySeverity : bySeverity.Delivers where
  accepts_trace level := decide_eq_true (Nat.zero_le level.severity)
  accepts_debug level := by cases level <;> decide
  accepts_info level := by cases level <;> decide
  received_nil reader := rfl
  received_accepted accepted := by simp_all [bySeverity]
  received_refused refused := by simp_all [bySeverity]

/-- What a reader of a level sees of tokenizing a text and moving through it. -/
def Report.seen (reader : Level) (v : Vocabulary) (text : String) (n : Nat) : List Record :=
  Tracing.bySeverity.received reader (session v text n).records

end TypeExprLexer

import TypeExprLexer.Tokenization

/-!
A list of tokens with a place in it, for a parser that looks one token ahead.

The lookahead is the token at the position, the current token the one consumed
last. Peeking looks further ahead, one token more at each call, without moving.
An operation that may change the stream gives its answer together with the
stream after it; a repositioning that is refused gives the stream back as it was.
-/

namespace TypeExprLexer

/-- Why a place in a stream or in its input was refused. -/
inductive NavigationError where
  | positionOutOfBounds (position size : Nat)
  | offsetOutOfBounds (offset size : Nat)
  | insideCharacter (offset : Nat)
deriving DecidableEq, Repr

/-- The wording for a reader. -/
def NavigationError.message : NavigationError → String
  | positionOutOfBounds position size =>
      "token position " ++ toString position ++ " out of bounds (stream has " ++ toString size ++
        " tokens)"
  | offsetOutOfBounds offset size =>
      "byte offset " ++ toString offset ++ " out of bounds (input is " ++ toString size ++ " bytes)"
  | insideCharacter offset =>
      "byte offset " ++ toString offset ++ " is not on a character boundary"

/-- Tokens of one input with a place among them. -/
structure TokenStream where
  input : String
  tokens : Array Token
  /-- The index of the lookahead, the number of tokens at the end. -/
  position : Nat
  /-- The index of the token consumed last. -/
  consumed : Option Nat
  /-- How many tokens after the lookahead were peeked at. -/
  peeked : Nat
deriving DecidableEq, Repr

namespace TokenStream

/-- The stream in front of the first of the given tokens. -/
def ofTokens (input : String) (tokens : Array Token) : TokenStream where
  input := input
  tokens := tokens
  position := 0
  consumed := none
  peeked := 0

/-- The stream in front of the first token of a text. -/
def ofText (v : Vocabulary) (text : String) : TokenStream :=
  ofTokens text (v.tokenize text).toArray

/-! ### Looking -/

/-- The number of all tokens. -/
def size (s : TokenStream) : Nat :=
  s.tokens.size

/-- Whether the stream has no token at all. -/
def isEmpty (s : TokenStream) : Bool :=
  s.tokens.isEmpty

/-- The token consumed last: none before the first move and after a move past
the end. -/
def token (s : TokenStream) : Option Token :=
  s.consumed.bind fun i => s.tokens[i]?

/-- The token to consume next, none at the end. -/
def lookahead (s : TokenStream) : Option Token :=
  s.tokens[s.position]?

/-- Whether the lookahead has the given kind. -/
def isNext (s : TokenStream) (k : Kind) : Bool :=
  s.lookahead.any fun t => t.kind == k

/-- Whether the lookahead has one of the given kinds. -/
def isNextAny (s : TokenStream) (kinds : List Kind) : Bool :=
  s.lookahead.any fun t => kinds.contains t.kind

/-- The input before a byte offset. -/
def inputUntil (s : TokenStream) (offset : Nat) : Except NavigationError String :=
  if offset > s.input.utf8ByteSize then
    .error (.offsetOutOfBounds offset s.input.utf8ByteSize)
  else
    match Utf8.slice? s.input 0 offset with
    | some before => .ok before
    | none => .error (.insideCharacter offset)

/-! ### Moving -/

/-- The stream after the lookahead is consumed. At the end no token is current. -/
def advance (s : TokenStream) : TokenStream :=
  if s.position < s.tokens.size then
    { s with position := s.position + 1, consumed := some s.position, peeked := 0 }
  else
    { s with consumed := none, peeked := 0 }

/-- Consumes the lookahead and tells whether there is a further one. -/
def moveNext (s : TokenStream) : Bool × TokenStream :=
  (s.advance.lookahead.isSome, s.advance)

theorem position_advance {s : TokenStream} (more : s.position < s.tokens.size) :
    s.advance.position = s.position + 1 := by
  rw [advance, if_pos more]

@[simp] theorem tokens_advance (s : TokenStream) : s.advance.tokens = s.tokens := by
  rw [advance]
  split
  · rfl
  · rfl

@[simp] theorem input_advance (s : TokenStream) : s.advance.input = s.input := by
  rw [advance]
  split
  · rfl
  · rfl

theorem lookahead_eq_some_iff {s : TokenStream} {t : Token} :
    s.lookahead = some t ↔ ∃ h : s.position < s.tokens.size, s.tokens[s.position] = t :=
  Array.getElem?_eq_some_iff

theorem ahead_advance_lt {s : TokenStream} {t : Token} (more : s.lookahead = some t) :
    s.advance.tokens.size - s.advance.position < s.tokens.size - s.position := by
  obtain ⟨more, _⟩ := lookahead_eq_some_iff.mp more
  rw [tokens_advance, position_advance more]
  omega

/-- Consumes tokens up to the first of the given kind, or all of them. -/
def skipUntil (s : TokenStream) (k : Kind) : TokenStream :=
  match h : s.lookahead with
  | none => s
  | some t =>
      have := ahead_advance_lt h
      if t.kind = k then s else s.advance.skipUntil k
termination_by s.tokens.size - s.position
decreasing_by exact this

theorem skipUntil_of_lookahead_eq_none {s : TokenStream} {k : Kind} (ended : s.lookahead = none) :
    s.skipUntil k = s := by
  rw [skipUntil]
  split
  · rfl
  · next more => cases ended.symm.trans more

theorem skipUntil_of_lookahead_eq_some {s : TokenStream} {k : Kind} {t : Token}
    (more : s.lookahead = some t) :
    s.skipUntil k = if t.kind = k then s else s.advance.skipUntil k := by
  rw [skipUntil]
  split
  · next ended => cases more.symm.trans ended
  · next found => cases more.symm.trans found; rfl

/-- Puts the lookahead back to the first token. -/
def reset (s : TokenStream) : TokenStream :=
  ofTokens s.input s.tokens

/-- Makes the token at `position` the lookahead and the one before it current.
The number of tokens is a position too, the end. -/
def resetPosition (s : TokenStream) (position : Nat) : Except NavigationError Unit × TokenStream :=
  if position > s.tokens.size then
    (.error (.positionOutOfBounds position s.tokens.size), s)
  else
    (.ok (), { s with
      position := position
      consumed := if position = 0 then none else some (position - 1)
      peeked := 0 })

theorem resetPosition_of_le {s : TokenStream} {position : Nat} (within : position ≤ s.tokens.size) :
    s.resetPosition position = (.ok (), { s with
      position := position
      consumed := if position = 0 then none else some (position - 1)
      peeked := 0 }) :=
  if_neg (Nat.not_lt.mpr within)

theorem resetPosition_of_lt {s : TokenStream} {position : Nat} (beyond : s.tokens.size < position) :
    s.resetPosition position = (.error (.positionOutOfBounds position s.tokens.size), s) :=
  if_pos beyond

/-! ### Peeking -/

/-- The first token after the lookahead that was not peeked at yet. -/
def peek (s : TokenStream) : Option Token × TokenStream :=
  match s.tokens[s.position + 1 + s.peeked]? with
  | none => (none, s)
  | some t => (some t, { s with peeked := s.peeked + 1 })

theorem peek_fst (s : TokenStream) : s.peek.1 = s.tokens[s.position + 1 + s.peeked]? := by
  rw [peek]
  split
  · next ended => exact ended.symm
  · next more => exact more.symm

/-- Lets peeking start again behind the lookahead. -/
def resetPeek (s : TokenStream) : TokenStream :=
  { s with peeked := 0 }

/-- Peeks once and lets peeking start again. -/
def glimpse (s : TokenStream) : Option Token × TokenStream :=
  (s.peek.1, s.peek.2.resetPeek)

end TokenStream

end TypeExprLexer

import PipeQuery.Token

/-!
# Token streams

A `TokenStream` is what the grammar reads: the tokens of a text without its blanks and comments, up
to the first token that ends the input. Each token comes with its position among all the tokens, so
that a stretch of the stream is also a stretch of the text.

Reading goes forward one token at a time (`TokenStream.next`). At the end there is the end token,
however often one reads on. When no token marks the end, one is made up that stands where the last
token stops.
-/

namespace PipeQuery

/-- A place in a sequence of tokens that is being read. -/
structure TokenStream where
  /-- All the tokens, blanks and comments included. -/
  tokens : List Token
  /-- The number of tokens in front of the end of the input. -/
  limit : Nat
  /-- The token that ends the input. -/
  endToken : Token
  /-- The tokens that are still to be read, with their positions. -/
  rest : List (Token × Nat)
  /-- The position of the token that was read last. -/
  previous : Option Nat
deriving Inhabited

namespace TokenStream

/-- The greatest column that a token can have. -/
def maxColumn : Nat := 0xffffffff

/-- The end of an input whose last token is given. -/
def endAfter : Option Token → Token
  | some last =>
    Token.endOfInput last.stop last.line (min (last.column + last.text.length) maxColumn)
  | none => Token.endOfInput 0 1 0

/-- The tokens that the grammar sees, with their positions: all but blanks and comments, up to the
end of the input. -/
def significant (tokens : List Token) : List (Token × Nat) :=
  (tokens.takeWhile (!·.isEnd)).zipIdx.filter (·.1.isSignificant)

/-- A sequence of tokens that is read from its beginning. -/
def ofTokens (tokens : List Token) : TokenStream where
  tokens := tokens
  limit := tokens.findIdx Token.isEnd
  endToken := (tokens.find? Token.isEnd).getD (endAfter tokens.getLast?)
  rest := significant tokens
  previous := none

/-- The next token to be read. -/
def current (s : TokenStream) : Token :=
  match s.rest with
  | [] => s.endToken
  | (token, _) :: _ => token

/-- The kind of the next token. -/
def kind (s : TokenStream) : Kind := s.current.kind

/-- The position of the next token. -/
def position (s : TokenStream) : Nat :=
  match s.rest with
  | [] => s.limit
  | (_, i) :: _ => i

/-- The token that is `k` tokens ahead of the next one. -/
def lookahead (s : TokenStream) (k : Nat) : Token :=
  match s.rest.drop k with
  | [] => s.endToken
  | (token, _) :: _ => token

/-- Whether only the end of the input is left. -/
def atEnd (s : TokenStream) : Bool := s.rest.isEmpty

/-- Reads a token. -/
def next (s : TokenStream) : TokenStream :=
  match s.rest with
  | [] => s
  | (_, i) :: rest => { s with rest := rest, previous := some i }

/-- The number of tokens that are still to be read. -/
def remaining (s : TokenStream) : Nat := s.rest.length

/-! ## Going back -/

/-- A place that was remembered. -/
structure Mark where
  /-- The tokens that were still to be read. -/
  rest : List (Token × Nat)
  /-- The position of the token that had been read last. -/
  previous : Option Nat
deriving DecidableEq

/-- Remembers the place. -/
def mark (s : TokenStream) : Mark := ⟨s.rest, s.previous⟩

/-- Goes back to a place that was remembered. -/
def reset (s : TokenStream) (m : Mark) : TokenStream :=
  { s with rest := m.rest, previous := m.previous }

/-! ## Text -/

/-- The text of the tokens from position `start` to position `stop`, both included, with what the
grammar does not see. The end of the input is shown as such, and nothing comes after it. -/
def textBetween (s : TokenStream) (start stop : Nat) : String :=
  let last := max start stop
  let texts := (s.tokens.extract start (min (last + 1) s.limit)).map Token.text
  String.join texts ++ (if s.limit ≤ last then s.endToken.shown else "")

/-! ## Lemmas -/

@[simp] theorem mark_reset (s : TokenStream) (m : Mark) : (s.reset m).mark = m := rfl

@[simp] theorem reset_mark (s : TokenStream) : s.reset s.mark = s := rfl

@[simp] theorem lookahead_zero (s : TokenStream) : s.lookahead 0 = s.current := rfl

theorem next_eq_self_of_atEnd {s : TokenStream} (h : s.atEnd = true) : s.next = s := by
  have : s.rest = [] := by simpa [atEnd] using h
  simp [next, this]

theorem remaining_next (s : TokenStream) : s.next.remaining = s.remaining - 1 := by
  unfold next remaining
  split <;> simp_all

theorem lookahead_succ (s : TokenStream) (k : Nat) : s.lookahead (k + 1) = s.next.lookahead k := by
  obtain ⟨tokens, limit, endToken, rest, previous⟩ := s
  cases rest with
  | nil => simp [lookahead, next]
  | cons p rest => simp [lookahead, next]

end TokenStream

end PipeQuery

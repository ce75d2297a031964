import PipeQuery.Kind

/-!
# Tokens

A `Token` is a piece of query text with its kind and its place: the byte range that it covers, and
the line and column of its first character. Lines count from one, columns count characters from
zero. The grammar reads tokens and never text, so the kind of a token is final.
-/

namespace PipeQuery

/-- A piece of query text with its kind and its place. -/
structure Token where
  /-- The class of the token. -/
  kind : Kind
  /-- The text as written. -/
  text : String
  /-- The offset of the first byte. -/
  start : Nat
  /-- The offset just past the last byte. -/
  stop : Nat
  /-- The line of the first character, counted from one. -/
  line : Nat
  /-- The number of characters before the first one in its line. -/
  column : Nat
deriving DecidableEq, Repr

namespace Token

/-- The end of the input at byte offset `offset`. -/
def endOfInput (offset line column : Nat) : Token where
  kind := .endOfInput
  text := ""
  start := offset
  stop := offset
  line := line
  column := column

instance : Inhabited Token where
  default := endOfInput 0 1 0

/-- Whether the token marks the end of the input. -/
def isEnd (t : Token) : Bool := t.kind = .endOfInput

/-- Whether the grammar sees the token. -/
def isSignificant (t : Token) : Bool := !t.kind.isTrivia

/-- The text in diagnostics: the end of the input has a wording of its own. -/
def shown (t : Token) : String := if t.isEnd then "<EOF>" else t.text

end Token

end PipeQuery

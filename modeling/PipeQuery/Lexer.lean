import PipeQuery.Lexer.Lexeme
import PipeQuery.Token

/-!
# Reading a text as tokens

`tokenize` cuts a text into tokens, blanks and comments included, and puts the end of the input
behind them. Nothing is lost: every step of a `Scan` takes at least one character off the text and
makes a token of what it took. The kind of the token and the mode of the next step come from
`Frames.read`.
-/

namespace PipeQuery

namespace Lexer

/-- A place in a text. -/
structure Place where
  /-- The number of bytes in front of it. -/
  offset : Nat
  /-- Its line, counted from one. -/
  line : Nat
  /-- The number of characters in front of it in its line. -/
  column : Nat
deriving DecidableEq, Repr, Inhabited

namespace Place

/-- The beginning of a text. -/
def start : Place := ⟨0, 1, 0⟩

/-- The place behind a character. -/
def after (p : Place) (c : Char) : Place :=
  if c = '\n' then ⟨p.offset + c.utf8Size, p.line + 1, 0⟩
  else ⟨p.offset + c.utf8Size, p.line, p.column + 1⟩

/-- The place behind some text. -/
def afterText (p : Place) (text : List Char) : Place := text.foldl after p

@[simp] theorem afterText_nil (p : Place) : p.afterText [] = p := rfl

theorem afterText_append (p : Place) (l m : List Char) :
    p.afterText (l ++ m) = (p.afterText l).afterText m := List.foldl_append

end Place

/-- A text that is being cut into tokens. -/
structure Scan where
  /-- The text that is left. -/
  rest : List Char
  /-- The modes. -/
  frames : Frames
  /-- The place of the text that is left. -/
  place : Place
  /-- The tokens so far, last one first. -/
  tokens : List Token

namespace Scan

/-- A text of which nothing has been read. -/
def start (mode : Mode) (text : List Char) : Scan := ⟨text, .start mode, .start, []⟩

/-- The number of characters of the next token. -/
def width (s : Scan) : Nat := max 1 (s.frames.current.mode.lexeme s.rest).length

/-- The next token, and the modes behind it. -/
def token (s : Scan) : Token × Frames :=
  let text := s.rest.take s.width
  let (kind, frames) :=
    s.frames.read (s.frames.current.mode.lexeme s.rest).shape (String.ofList text)
  let stop := s.place.afterText text
  (⟨kind, String.ofList text, s.place.offset, stop.offset, s.place.line, s.place.column⟩, frames)

/-- Takes the next token off the text. -/
def step (s : Scan) : Scan :=
  let (token, frames) := s.token
  ⟨s.rest.drop s.width, frames, s.place.afterText (s.rest.take s.width), token :: s.tokens⟩

/-- Takes tokens off the text, at most a given number of them. -/
def steps : Nat → Scan → Scan
  | 0, s => s
  | n + 1, s => if s.rest.isEmpty then s else steps n s.step

theorem width_pos (s : Scan) : 0 < s.width := Nat.lt_of_lt_of_le Nat.one_pos (Nat.le_max_left ..)

/-- What is taken off and what is left make up the text. -/
theorem text_step (s : Scan) : s.rest.take s.width ++ s.step.rest = s.rest :=
  List.take_append_drop ..

/-- Every step makes the text that is left shorter. -/
theorem length_rest_step {s : Scan} (h : s.rest ≠ []) : s.step.rest.length < s.rest.length := by
  have hw := s.width_pos
  have hr : 0 < s.rest.length := List.length_pos_iff.mpr h
  simp only [step, List.length_drop]
  omega

/-- All the tokens, with the end of the input behind them. -/
def finish (s : Scan) : List Token :=
  (Token.endOfInput s.place.offset s.place.line s.place.column :: s.tokens).reverse

end Scan

end Lexer

open Lexer in
/-- The tokens of a text that begins in a given mode. A text has at most as many tokens as it has
characters. -/
def tokenizeFrom (mode : Mode) (text : String) : List Token :=
  ((Scan.start mode text.toList).steps text.length).finish

/-- The tokens of a query text, blanks and comments included. -/
def tokenize (text : String) : List Token := tokenizeFrom .command text

/-- The tokens of a query text without blanks and comments. -/
def significantTokens (text : String) : List Token := (tokenize text).filter Token.isSignificant

end PipeQuery

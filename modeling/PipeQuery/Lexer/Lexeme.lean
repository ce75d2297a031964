import PipeQuery.Lexer.Mode

/-!
# Lexemes

A `Lexeme` is the piece of text that comes first: its shape and the number of its characters. Each
family of tokens has a recogniser, a function that answers the lexeme at the front of a text if it
is of the family. Families begin with different characters, up to comments and numbers, which are
tried before the slash and the dot, so the first recogniser that answers finds the longest lexeme.

Comments, quoted names and strings are delimited: once opened they go on until they are closed. One
that is never closed is an error that reaches as far as its complete parts do. Letters, digits and
blanks are those of ASCII; every other character stands only between delimiters, in comments and in
index patterns.
-/

namespace PipeQuery.Lexer

/-- A piece of text: what it is and the number of its characters. -/
structure Lexeme where
  /-- What it is. -/
  shape : Shape
  /-- The number of its characters. -/
  length : Nat
deriving DecidableEq, Repr, Inhabited

/-- A character that begins no token. -/
def Lexeme.stray : Lexeme := ⟨.fixed .error, 1⟩

/-- A recogniser of a family of tokens. -/
abbrev Recogniser := List Char → Option Lexeme

/-- The lexeme of the first recogniser that knows the text. -/
def firstOf (recognisers : List Recogniser) (text : List Char) : Lexeme :=
  (recognisers.findSome? (· text)).getD .stray

/-! ## Character classes -/

/-- Blanks, tabs and line breaks. -/
def isBlank (c : Char) : Bool := c == ' ' || c == '\t' || c == '\r' || c == '\n'

/-- The characters of a word, from its second one on. -/
def isWordPart (c : Char) : Bool := c.isAlphanum || c == '_'

/-- The characters of an index pattern: all but blanks, a few delimiters, and the slash. -/
def isPatternPart (c : Char) : Bool :=
  !(isBlank c || c == ',' || c == '|' || c == '[' || c == ']' || c == '\x60' || c == '='
    || c == '/')

/-- The number of characters of a class at the front of a text. -/
def run (p : Char → Bool) (text : List Char) : Nat := (text.takeWhile p).length

/-! ## Delimited forms -/

/-- How far a delimited form reaches behind its opening delimiter. -/
inductive Extent where
  /-- Up to its closing delimiter, included. -/
  | closed (length : Nat)
  /-- Never closed; the length is that of its complete parts. -/
  | unclosed (length : Nat)
deriving DecidableEq, Repr

namespace Extent

/-- The extent with `n` more characters in front. -/
def push (n : Nat) : Extent → Extent
  | closed length => closed (n + length)
  | unclosed length => unclosed (n + length)

/-- The lexeme of a delimited form with an opening delimiter of `n` characters. -/
def lexeme (kind : Kind) (n : Nat) : Extent → Lexeme
  | closed length => ⟨.fixed kind, n + length⟩
  | unclosed length => ⟨.fixed .error, n + length⟩

end Extent

/-- A comment behind its opening delimiter. An asterisk takes the next character with it, unless the
two close the comment. -/
def commentBody : List Char → Extent
  | '*' :: '/' :: _ => .closed 2
  | '*' :: _ :: rest => (commentBody rest).push 2
  | ['*'] => .unclosed 0
  | _ :: rest => (commentBody rest).push 1
  | [] => .unclosed 0

/-- A quoted name behind its opening backquote. Two backquotes stand for one. -/
def nameBody : List Char → Extent
  | '\x60' :: '\x60' :: rest => (nameBody rest).push 2
  | '\x60' :: _ => .closed 1
  | _ :: rest => (nameBody rest).push 1
  | [] => .unclosed 0

/-- A string behind its opening quote. A backslash takes the next character with it. No string goes
beyond its line. -/
def stringBody : List Char → Extent
  | '"' :: _ => .closed 1
  | '\\' :: c :: rest => if c = '\n' then .unclosed 0 else (stringBody rest).push 2
  | ['\\'] => .unclosed 0
  | c :: rest => if c = '\r' ∨ c = '\n' then .unclosed 0 else (stringBody rest).push 1
  | [] => .unclosed 0

/-- A verbatim string behind its three opening quotes. One or two quotes belong to the string if
another character follows. -/
def verbatimBody : List Char → Extent
  | '"' :: '"' :: '"' :: _ => .closed 3
  | '"' :: '"' :: _ :: rest => (verbatimBody rest).push 3
  | ['"', '"'] => .unclosed 0
  | '"' :: _ :: rest => (verbatimBody rest).push 2
  | ['"'] => .unclosed 0
  | _ :: rest => (verbatimBody rest).push 1
  | [] => .unclosed 0

/-! ## Recognisers -/

/-- Runs of blanks. -/
def blanks? : Recogniser
  | [] => none
  | c :: rest => if isBlank c then some ⟨.fixed .whitespace, 1 + run isBlank rest⟩ else none

/-- Comments of both forms. -/
def comment? : Recogniser
  | '/' :: '/' :: rest => some ⟨.fixed .lineComment, 2 + run (· != '\n') rest⟩
  | '/' :: '*' :: rest => some ((commentBody rest).lexeme .blockComment 2)
  | _ => none

/-- Names in backquotes, of a given kind. -/
def quotedName? (kind : Kind) : Recogniser
  | '\x60' :: rest => some ((nameBody rest).lexeme kind 1)
  | _ => none

/-- Strings of both forms. -/
def string? : Recogniser
  | '"' :: '"' :: '"' :: rest => some ((verbatimBody rest).lexeme .string 3)
  | '"' :: rest => some ((stringBody rest).lexeme .string 1)
  | _ => none

/-- The number of characters of the exponent at the front of a text; zero if there is none. -/
def exponentLength : List Char → Nat
  | [] => 0
  | c :: rest =>
    let sign := match rest with
      | '+' :: _ | '-' :: _ => 1
      | _ => 0
    let digits := run Char.isDigit (rest.drop sign)
    if (c == 'e' || c == 'E') && 0 < digits then 1 + sign + digits else 0

/-- Integers and decimals. A decimal has a point or an exponent; there are digits on one side of the
point at least. -/
def number? : Recogniser := fun text =>
  let whole := run Char.isDigit text
  match text.drop whole with
  | '.' :: rest =>
    let fraction := run Char.isDigit rest
    if whole + fraction = 0 then none
    else some ⟨.fixed .decimal, whole + 1 + fraction + exponentLength (rest.drop fraction)⟩
  | rest =>
    if whole = 0 then none
    else if exponentLength rest = 0 then some ⟨.fixed .integer, whole⟩
    else some ⟨.fixed .decimal, whole + exponentLength rest⟩

/-- Words. One that begins with an underscore or an at sign has a second character. -/
def word? : Recogniser
  | [] => none
  | c :: rest =>
    let tail := run isWordPart rest
    if c.isAlpha || ((c == '_' || c == '@') && 0 < tail) then some ⟨.word, 1 + tail⟩ else none

/-- The comparison operators and the equals sign. -/
def comparison? : Recogniser
  | '=' :: '=' :: _ | '!' :: '=' :: _ | '<' :: '=' :: _ | '>' :: '=' :: _ =>
    some ⟨.fixed .comparison, 2⟩
  | '<' :: _ | '>' :: _ => some ⟨.fixed .comparison, 1⟩
  | '=' :: _ => some ⟨.fixed .assign, 1⟩
  | _ => none

/-- Tokens of one character, by a table. -/
def single? (table : List (Char × Shape)) : Recogniser
  | [] => none
  | c :: _ => (table.lookup c).map (⟨·, 1⟩)

/-- Index patterns, and the names of `ENRICH`; what they are is given. -/
def pattern? (shape : Shape) : Recogniser
  | [] => none
  | c :: rest => if isPatternPart c then some ⟨shape, 1 + run isPatternPart rest⟩ else none

/-! ## The lexeme at the front of a text -/

/-- The first lexeme at the start of a stage and in expressions. -/
def expressionLexeme : List Char → Lexeme :=
  firstOf
    [blanks?, comment?, quotedName? .quotedIdentifier, string?, number?, word?, comparison?,
     single?
       [('|', .pipe), ('[', .leftBracket), (']', .rightBracket), ('+', .fixed .plus),
        ('-', .fixed .minus), ('*', .fixed .asterisk), ('/', .fixed .slash),
        ('%', .fixed .percent), (',', .fixed .comma), ('.', .fixed .dot),
        ('(', .fixed .leftParen), (')', .fixed .rightParen)]]

/-- The first lexeme among the index patterns of `FROM`. -/
def sourceLexeme : List Char → Lexeme :=
  firstOf
    [blanks?, comment?, quotedName? .quotedSourceIdentifier, pattern? (.fixed .sourceIdentifier),
     single? [('|', .pipe), (']', .rightBracket), (',', .fixed .comma)]]

/-- The first lexeme in the clauses of `ENRICH`. -/
def enrichLexeme : List Char → Lexeme :=
  firstOf
    [blanks?, comment?, quotedName? .quotedEnrichIdentifier, pattern? .word,
     single? [('|', .pipe), (']', .rightBracket), (',', .fixed .comma), ('=', .fixed .assign)]]

/-- The first lexeme in a mode. -/
def Mode.lexeme : Mode → List Char → Lexeme
  | .command | .explain | .expression => expressionLexeme
  | .source => sourceLexeme
  | .enrich => enrichLexeme

end PipeQuery.Lexer

import PipeQuery.Lexer.Vocabulary

/-!
# Lexical modes

How a text is cut into tokens depends on the command that it belongs to. A `Mode` is a place in a
stage, and `Frames` remembers the modes of the queries around a query in brackets, innermost first.
A frame counts its open brackets, so that a bracket that closes a list is told apart from one that
closes the query.

`Frames.read` is the one rule by which modes change: it takes a piece of text by its `Shape` and
answers the kind of the token and the frames behind it.
-/

namespace PipeQuery.Lexer

/-- A place in a stage. -/
inductive Mode where
  /-- The start of a stage, where command words are known. -/
  | command
  /-- Behind `EXPLAIN`, where a bracket opens a query. -/
  | explain
  /-- Expressions and the modifiers behind them. -/
  | expression
  /-- The index patterns of `FROM`. -/
  | source
  /-- The clauses of `ENRICH`. -/
  | enrich
deriving DecidableEq, Repr, Inhabited

/-- What a piece of text is, as far as its characters show. -/
inductive Shape where
  /-- A token of one kind wherever it stands. -/
  | fixed (kind : Kind)
  /-- A word, whose kind depends on the mode. -/
  | word
  /-- The bar between two stages. -/
  | pipe
  /-- An opening bracket. -/
  | leftBracket
  /-- A closing bracket. -/
  | rightBracket
deriving DecidableEq, Repr, Inhabited

/-- The mode of a query, with the number of its brackets that are open. -/
structure Frame where
  /-- The mode. -/
  mode : Mode
  /-- The number of open brackets. -/
  brackets : Nat
deriving DecidableEq, Repr, Inhabited

/-- The frame of a query and the frames of the queries around it, innermost first. -/
structure Frames where
  /-- The frame of the query. -/
  current : Frame
  /-- The frames around it. -/
  outer : List Frame
deriving DecidableEq, Repr, Inhabited

/-- The mode behind a command word. -/
def Mode.after : Kind → Mode
  | .kwFrom => .source
  | .kwEnrich => .enrich
  | .kwExplain => .explain
  | _ => .expression

namespace Frames

/-- A single frame. -/
def start (mode : Mode) : Frames := ⟨⟨mode, 0⟩, []⟩

/-- Changes the mode of the query. -/
def setMode (fs : Frames) (mode : Mode) : Frames :=
  { fs with current := { fs.current with mode := mode } }

/-- The kind of a word, and the frames behind it. -/
def readWord (fs : Frames) (text : String) : Kind × Frames :=
  match fs.current.mode with
  | .command =>
    match commandWords.kind? text with
    | some kind => (kind, fs.setMode (.after kind))
    | none => (.identifier, fs)
  | .explain | .expression => ((expressionWords.kind? text).getD .identifier, fs)
  | .source => (.sourceIdentifier, fs)
  | .enrich => ((enrichWords.kind? text).getD .enrichIdentifier, fs)

/-- The frames behind an opening bracket: behind `EXPLAIN` it opens a query. -/
def openBracket (fs : Frames) : Frames :=
  if fs.current.mode = .explain then
    ⟨⟨.command, 0⟩, { fs.current with mode := .expression } :: fs.outer⟩
  else { fs with current := { fs.current with brackets := fs.current.brackets + 1 } }

/-- The frames behind a closing bracket: one that closes no list closes the query, if there is one
around it. -/
def closeBracket (fs : Frames) : Frames :=
  if 0 < fs.current.brackets then
    { fs with current := { fs.current with brackets := fs.current.brackets - 1 } }
  else
    match fs.outer with
    | [] => fs
    | frame :: outer => ⟨frame, outer⟩

/-- The kind of a piece of text, and the frames behind it. -/
def read (fs : Frames) (shape : Shape) (text : String) : Kind × Frames :=
  match shape with
  | .fixed kind => (kind, fs)
  | .word => fs.readWord text
  | .pipe => (.pipe, fs.setMode .command)
  | .leftBracket => (.leftBracket, fs.openBracket)
  | .rightBracket => (.rightBracket, fs.closeBracket)

end Frames

end PipeQuery.Lexer

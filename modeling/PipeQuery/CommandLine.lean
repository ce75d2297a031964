import PipeQuery.Ast.SExpression
import PipeQuery.Parsed

/-!
# The command line

What the program answers. The query is given by its arguments, or by the standard input when there
are none. It writes the query as an s-expression, and the diagnostics to the standard error, a line
each; the exit code says whether there are any.
-/

namespace PipeQuery.CommandLine

/-- What a run of the program leaves behind. -/
structure Answer where
  /-- The standard output. -/
  output : String
  /-- The standard error. -/
  errors : String
  /-- The exit code. -/
  exitCode : UInt8
deriving DecidableEq, Repr

/-- A text as a line. -/
def line (text : String) : String := text ++ "\n"

/-- The answer to a query. -/
def answer (text : String) : Answer :=
  let parsed := parseText text
  { output := line parsed.statement.sexpr
    errors := String.join (parsed.diagnostics.map (line ·.text))
    exitCode := if parsed.isOk then 0 else 1 }

/-- The answer to an input that is no text. -/
def unreadable : Answer :=
  { output := "", errors := line "esql-parse: stream did not contain valid UTF-8", exitCode := 1 }

/-- The answer to a query given by arguments, with a blank between them. -/
def answerArguments (arguments : List String) : Answer := answer (" ".intercalate arguments)

/-- The answer to a query given by the bytes of the standard input. -/
def answerInput (input : ByteArray) : Answer :=
  match String.fromUTF8? input with
  | some text => answer text
  | none => unreadable

/-- The answer to given arguments and a given standard input. -/
def run (arguments : List String) (input : ByteArray) : Answer :=
  if arguments.isEmpty then answerInput input else answerArguments arguments

end PipeQuery.CommandLine
